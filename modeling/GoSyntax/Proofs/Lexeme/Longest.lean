import GoSyntax.Proofs.Lexer.Uncommented

/-! A lexeme is the longest at its place: no text that goes on from it is one lexeme. -/
namespace GoSyntax
namespace Lexeme

variable {elides elides' : Bool} {a b s rest rest' : Text} {kind : Kind} {v : Option Value}

namespace Comment

theorem line_lookahead {m : Meaning} (hh : rest'.head? = rest.head?)
    (h : line (a ++ rest) = .done (a.length + 2) m) : line (a ++ rest') = .done (a.length + 2) m := by
  have hsize : 2 + ((a ++ rest).takeWhile (· != '\n')).length = a.length + 2 :=
    congrArg Reading.size h
  rw [← h, line, line, takeWhile_congr hh (by omega)]

theorem two_le_blockSize {cs : Text} {n : Nat} (h : blockSize? cs = some n) : 2 ≤ n := by
  fun_induction blockSize? cs generalizing n with
  | case1 => cases h
  | case2 => exact Nat.le_of_eq (Option.some.inj h)
  | case3 c cs _ ih =>
    obtain ⟨m, hm, rfl⟩ := Option.map_eq_some_iff.1 h
    exact Nat.le_succ_of_le (ih hm)

/-- A block comment ends at its end marker, whatever follows. -/
theorem blockSize?_append (h : blockSize? (a ++ rest) = some a.length) (rest' : Text) :
    blockSize? (a ++ rest') = some a.length := by
  generalize hcs : a ++ rest = cs at h
  fun_induction blockSize? cs generalizing a with
  | case1 => cases h
  | case2 cs =>
    have hlen : a.length = 2 := (Option.some.inj h).symm
    obtain ⟨c, d, rfl⟩ := List.length_eq_two.1 hlen
    obtain ⟨rfl, hd⟩ := List.cons.inj hcs
    obtain ⟨rfl, -⟩ := List.cons.inj hd
    rfl
  | case3 c cs hend ih =>
    obtain ⟨m, hm, hlen⟩ := Option.map_eq_some_iff.1 h
    cases a with
    | nil => simp at hlen
    | cons d a =>
      obtain ⟨rfl, rfl⟩ := List.cons.inj hcs
      obtain rfl : m = a.length := Nat.succ.inj hlen
      have hrest := ih rfl hm
      have htwo := two_le_blockSize hm
      rw [List.cons_append, blockSize?, hrest]
      · rfl
      · intro cs' hd ha
        cases a with
        | nil => simp at htwo
        | cons e a =>
          obtain ⟨rfl, -⟩ := List.cons.inj ha
          exact hend (a ++ rest) hd rfl

theorem block_append {m : Meaning} (h : block (a ++ rest) = .done (a.length + 2) m) (rest' : Text) :
    block (a ++ rest') = .done (a.length + 2) m := by
  have hsize : blockSize? (a ++ rest) = some a.length := by
    unfold block at h
    split at h
    · rename_i n hn
      have hlen : 2 + n = a.length + 2 := congrArg Reading.size h
      rw [hn]
      congr 1
      omega
    · cases congrArg Reading.result h
  simp only [block, hsize] at h
  simp only [block, blockSize?_append hsize rest']
  exact h

end Comment

theorem comment_of_read {c : Char} {cs : Text} {form : CommentForm}
    (h : (read elides (c :: cs)).result = .ok (.token (.comment form) v)) :
    ∃ rest, c = '/' ∧ (cs = '/' :: rest ∧ read elides (c :: cs) = Comment.line rest ∨
      cs = '*' :: rest ∧ read elides (c :: cs) = Comment.block rest) := by
  have ho := read_opening elides c cs
  generalize read elides (c :: cs) = r at h ho ⊢
  have hlit : ¬r.IsLiteral := by
    intro hl
    obtain ⟨form, w, hm⟩ := hl.eq_token h
    cases hm
  cases ho with
  | newline => cases elides <;> cases h
  | @lineComment rest hc hcs => exact ⟨rest, hc, Or.inl ⟨hcs, rfl⟩⟩
  | @blockComment rest hc hcs => exact ⟨rest, hc, Or.inr ⟨hcs, rfl⟩⟩
  | rune => exact absurd (Quotation.literal_rune cs) hlit
  | string => exact absurd (Quotation.literal_string cs) hlit
  | rawString => exact absurd (Quotation.literal_rawString cs) hlit
  | number => exact absurd (Number.literal_read (c :: cs)) hlit
  | word =>
    simp only [word, Reading.done, Except.ok.injEq] at h
    split at h <;> cases h
  | symbol =>
    rw [symbol_eq_longest] at h
    split at h
    · cases h
    · rename_i w k hs
      have hk := mem_symbols_kind (longestSymbol?_eq_some hs).1
      split at h <;> cases h
      cases hk.2

theorem comment_lookahead {form : CommentForm} (hne : s ≠ []) (hh : rest'.head? = rest.head?)
    (h : read elides (s ++ rest) = .done s.length (.token (.comment form) v)) :
    read elides' (s ++ rest') = .done s.length (.token (.comment form) v) := by
  obtain ⟨c, a, rfl⟩ := List.exists_cons_of_ne_nil hne
  have hread : (read elides (c :: (a ++ rest))).result = .ok (.token (.comment form) v) :=
    congrArg Reading.result h
  have hsize : (read elides (c :: (a ++ rest))).size = a.length + 1 := congrArg Reading.size h
  have htwo := (kind_read hread).2.1 rfl
  -- both characters of the opening are in the comment, so what follows cannot change it
  obtain ⟨d, a, rfl⟩ := List.exists_cons_of_length_pos (show 0 < a.length by omega)
  obtain ⟨more, rfl, ⟨hcs, hline⟩ | ⟨hcs, hblock⟩⟩ := comment_of_read hread
  · obtain ⟨rfl, rfl⟩ := List.cons.inj hcs
    have hdone : Comment.line (a ++ rest) = .done (a.length + 2) (.token (.comment form) v) :=
      hline.symm.trans h
    exact Comment.line_lookahead hh hdone
  · obtain ⟨rfl, rfl⟩ := List.cons.inj hcs
    have hdone : Comment.block (a ++ rest) = .done (a.length + 2) (.token (.comment form) v) :=
      hblock.symm.trans h
    exact Comment.block_append hdone rest'

/-- All but line ends are read again where the same character follows. -/
theorem read_goes_on (hne : s ≠ []) (hk : kind.isLineEnd = false) (hh : rest'.head? = rest.head?)
    (h : read elides (s ++ rest) = .done s.length (.token kind v)) :
    read elides' (s ++ rest') = .done s.length (.token kind v) := by
  by_cases hcomment : kind.isComment = true
  · cases kind with
    | comment form => exact comment_lookahead hne hh h
    | _ => cases hcomment
  · obtain ⟨c, a, rfl⟩ := List.exists_cons_of_ne_nil hne
    have hc : c ≠ '\n' := by
      rintro rfl
      cases Except.ok.inj (congrArg Reading.result h)
      cases elides <;> cases hk
    have hsolid := isSolid_of_read hc (by simpa using hcomment) (congrArg Reading.result h)
    exact read_lookahead hne hsolid hh h

theorem read_dot (hdot : rest.head? ≠ some '.') (hdigit : ∀ c ∈ rest.head?, isDigitIn 10 c = false) :
    read elides ('.' :: rest) = .done 1 (.token (.delimiter .dot) none) := by
  have hnumber : ¬Number.opens '.' rest := by
    rintro (hd | ⟨-, hd⟩)
    · cases hd
    · obtain ⟨c, hc, hd⟩ := (Option.any_eq_true _ _).1 hd
      rw [hdigit c hc] at hd
      cases hd
  have hopens : OpensSymbol '.' rest :=
    ⟨by decide, by simp, by simp, by decide, by decide, by decide, hnumber, by decide⟩
  have hends : ∀ d ∈ rest.head?, symbolEnds ['.'] d = true := by
    intro d hd
    have hall : symbols.all (fun x => x.1.head? = some '.' →
        x.1 = ['.'] ∨ x.1 = ['.', '.', '.']) = true := by decide
    have hno : symbols.all (fun x => !(['.'] ++ [d]).isPrefixOf x.1) = true := by
      refine List.all_eq_true.2 fun x hx => ?_
      cases hp : (['.'] ++ [d]).isPrefixOf x.1 with
      | false => rfl
      | true =>
        obtain ⟨more, hmore⟩ := List.isPrefixOf_iff_prefix.1 hp
        rcases of_decide_eq_true (List.all_eq_true.1 hall x hx) (by rw [← hmore]; rfl) with hx | hx
        · simp [hx] at hmore
        · obtain rfl : d = '.' := by
            rw [hx] at hmore
            exact (List.cons.inj (List.cons.inj hmore).2).1
          exact absurd hd hdot
    rw [symbolEnds, hno]
    simp [hdigit d hd]
  have hmem : (['.'], Kind.delimiter .dot) ∈ symbols := by decide
  rw [read_symbol hopens]
  exact symbol_eq hmem hends

/-- All of the text is one lexeme. -/
def Whole (s : Text) : Prop := ∃ kind v, read false s = .done s.length (.token kind v)

/-- What goes on from a lexeme is not one lexeme. -/
theorem not_whole_of_read (hne : s ≠ []) (hk : kind.isLineEnd = false)
    (h : read elides (s ++ rest) = .done s.length (.token kind v)) (hb : b ≠ []) (hp : b <+: rest) :
    ¬Whole (s ++ b) := by
  rintro ⟨kind', v', hwhole⟩
  have hh : b.head? = rest.head? := by
    obtain ⟨more, rfl⟩ := hp
    rw [List.head?_append_of_ne_nil _ hb]
  have hread : read false (s ++ b) = .done s.length (.token kind v) := read_goes_on hne hk hh h
  have hsize : (s ++ b).length = s.length := congrArg Reading.size (hwhole.symm.trans hread)
  have hpos := List.length_pos_iff.2 hb
  rw [List.length_append] at hsize
  omega

/-- What goes on from the first of two dots is not one lexeme. -/
theorem not_whole_of_twoDots (h : rest.head? ≠ some '.') (hp : b <+: rest) :
    ¬Whole ('.' :: '.' :: b) := by
  rintro ⟨kind, v, hwhole⟩
  have hthird : b.head? ≠ some '.' := by
    intro hb
    obtain ⟨bs, rfl⟩ := List.head?_eq_some_iff.1 hb
    obtain ⟨more, rfl⟩ := hp
    exact h rfl
  have hread := (read_twoDots_iff false b).2 hthird
  cases congrArg Reading.result (hwhole.symm.trans hread)

end Lexeme
end GoSyntax
