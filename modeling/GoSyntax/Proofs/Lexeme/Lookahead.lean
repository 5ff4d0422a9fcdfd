import GoSyntax.Proofs.Lexeme.Locality

/-! Reading looks one character past a lexeme: where the same character follows, the same lexeme is
read. So is it before a blank or a line feed, whatever followed at first. -/
namespace GoSyntax
namespace Lexeme

variable {a rest rest' : Text}

theorem takeWhile_congr {p : Char → Bool} (hh : rest'.head? = rest.head?)
    (h : ((a ++ rest).takeWhile p).length ≤ a.length) :
    (a ++ rest').takeWhile p = (a ++ rest).takeWhile p := by
  induction a with
  | nil =>
    have hstop : ∀ c ∈ rest.head?, p c = false := by
      intro c hc
      obtain ⟨cs, rfl⟩ := List.head?_eq_some_iff.1 hc
      cases hp : p c with
      | false => rfl
      | true => simp [hp] at h
    have hnil : ∀ s : Text, (∀ c ∈ s.head?, p c = false) → s.takeWhile p = [] := by
      intro s hs
      have htake := @takeWhile_append p [] s (by simp) hs
      exact htake
    rw [List.nil_append, List.nil_append, hnil rest hstop, hnil rest' (hh ▸ hstop)]
  | cons c a ih =>
    by_cases hp : p c = true
    · simp only [List.cons_append, List.takeWhile_cons, hp, if_true, List.length_cons] at h ⊢
      rw [ih (Nat.le_of_succ_le_succ h)]
    · simp [hp]

namespace Number

open Number.Decimal (splitFraction exponentOf)

theorem suffix_congr (hh : rest'.head? = rest.head?) {n : Nat} (hn : n ≤ a.length) :
    suffix ((a ++ rest').drop n) = suffix ((a ++ rest).drop n) := by
  have hhead : ((a ++ rest').drop n).head? = ((a ++ rest).drop n).head? := by
    rw [List.drop_append_of_le_length hn, List.drop_append_of_le_length hn, List.head?_append,
      List.head?_append, hh]
  rw [suffix, suffix, hhead]

theorem splitFraction_of_ne {cs : Text} (h : cs.head? ≠ some '.') : splitFraction cs = (none, cs) := by
  unfold splitFraction
  split
  · exact absurd rfl h
  · rfl

theorem digitRun_congr {base : Nat} (hh : rest'.head? = rest.head?)
    (h : (digitRun base (a ++ rest)).length ≤ a.length) :
    digitRun base (a ++ rest') = digitRun base (a ++ rest) :=
  takeWhile_congr hh h

theorem splitFraction_congr (hh : rest'.head? = rest.head?)
    (h : fractionSize (splitFraction (a ++ rest)).1 ≤ a.length) :
    ∃ f b, fractionSize f + b.length = a.length ∧ splitFraction (a ++ rest) = (f, b ++ rest) ∧
      splitFraction (a ++ rest') = (f, b ++ rest') := by
  by_cases hdot : (a ++ rest).head? = some '.'
  · cases a with
    | nil =>
      obtain ⟨more, rfl⟩ := List.head?_eq_some_iff.1 hdot
      simp [splitFraction, fractionSize] at h
    | cons c a =>
      obtain rfl : c = '.' := Option.some.inj hdot
      have hrun : (digitRun 10 (a ++ rest)).length ≤ a.length := by
        simpa [splitFraction, fractionSize] using h
      refine ⟨some (digitRun 10 (a ++ rest)), a.drop (digitRun 10 (a ++ rest)).length, ?_, ?_, ?_⟩
      · simp only [fractionSize, Option.map_some, Option.getD_some, List.length_drop,
          List.length_cons]
        omega
      · rw [List.cons_append, splitFraction, List.drop_append_of_le_length hrun]
      · rw [List.cons_append, splitFraction, digitRun_congr hh hrun,
          List.drop_append_of_le_length hrun]
  · have hdot' : (a ++ rest').head? ≠ some '.' := by
      rwa [List.head?_append, hh, ← List.head?_append]
    exact ⟨none, a, Nat.zero_add _, splitFraction_of_ne hdot, splitFraction_of_ne hdot'⟩

/-- The sign that a text opens with. -/
def leadingSign (cs : Text) : Option Char :=
  cs.head?.bind fun c => if c = '+' ∨ c = '-' then some c else none

theorem exponentOf_letter {e : Char} (he : e = 'e' ∨ e = 'E') (cs : Text) :
    exponentOf (e :: cs) =
      some (leadingSign cs, digitRun 10 (cs.drop (leadingSign cs).toList.length)) := by
  cases cs with
  | nil => simp [exponentOf, he, leadingSign]
  | cons c cs =>
    by_cases hplus : c = '+'
    · simp [exponentOf, he, leadingSign, hplus]
    by_cases hminus : c = '-'
    · simp [exponentOf, he, leadingSign, hminus]
    · simp [exponentOf, he, leadingSign, hplus, hminus]

theorem exponentOf_congr (hh : rest'.head? = rest.head?)
    (h : exponentSize (exponentOf (a ++ rest)) ≤ a.length) :
    exponentOf (a ++ rest') = exponentOf (a ++ rest) := by
  by_cases he : ∃ e cs, (e = 'e' ∨ e = 'E') ∧ a ++ rest = e :: cs
  · obtain ⟨e, cs, he, hcs⟩ := he
    rw [hcs, exponentOf_letter he] at h
    simp only [exponentSize, Option.map_some, Option.getD_some] at h
    obtain ⟨c, a, rfl⟩ := List.exists_cons_of_length_pos (Nat.lt_of_lt_of_le (Nat.succ_pos _) h)
    rw [List.cons_append] at hcs
    obtain ⟨rfl, rfl⟩ := List.cons.inj hcs
    have hsign : leadingSign (a ++ rest') = leadingSign (a ++ rest) := by
      rw [leadingSign, leadingSign, List.head?_append, List.head?_append, hh]
    rw [List.length_cons] at h
    have hle : (leadingSign (a ++ rest)).toList.length ≤ a.length := by omega
    rw [List.drop_append_of_le_length hle] at h
    rw [List.cons_append, List.cons_append, exponentOf_letter he, exponentOf_letter he, hsign,
      List.drop_append_of_le_length hle, List.drop_append_of_le_length hle, digitRun_congr hh]
    rw [List.length_drop]
    omega
  · have hnone : ∀ s : Text, s.head? = (a ++ rest).head? → exponentOf s = none := by
      intro s hs
      cases s with
      | nil => rfl
      | cons e s =>
        obtain ⟨cs, hcs⟩ := List.head?_eq_some_iff.1 hs.symm
        have hne : ¬(e = 'e' ∨ e = 'E') := fun hletter => he ⟨e, cs, hletter, hcs⟩
        simp only [exponentOf, if_neg hne]
    rw [hnone _ rfl, hnone _ (by rw [List.head?_append, hh, List.head?_append])]

theorem ofText_congr (hh : rest'.head? = rest.head?)
    (h : (Decimal.ofText (a ++ rest)).size ≤ a.length) :
    Decimal.ofText (a ++ rest') = Decimal.ofText (a ++ rest) := by
  rw [size_ofText] at h
  have hrun : (digitRun 10 (a ++ rest)).length ≤ a.length := by omega
  rw [ofText_eq, ofText_eq, digitRun_congr hh hrun]
  rw [List.drop_append_of_le_length hrun] at h ⊢
  rw [List.drop_append_of_le_length hrun]
  have hlen := List.length_drop (i := (digitRun 10 (a ++ rest)).length) (l := a)
  generalize a.drop (digitRun 10 (a ++ rest)).length = b at h hlen ⊢
  obtain ⟨f, b', hsize, hsplit, hsplit'⟩ := splitFraction_congr (a := b) hh (by omega)
  simp only [hsplit] at h
  rw [hsplit, hsplit', exponentOf_congr hh (by omega)]

theorem plain_lookahead {m : Meaning} (hh : rest'.head? = rest.head?)
    (h : plain (a ++ rest) = .done a.length m) : plain (a ++ rest') = .done a.length m := by
  have hres := congrArg Reading.result h
  have hsize := (size_plain_eq hres).symm.trans (congrArg Reading.size h)
  have hle : (Decimal.ofText (a ++ rest)).size ≤ a.length := by
    rw [Reading.size_done] at hsize
    omega
  rw [← h]
  refine plain_congr (ofText_congr hh hle) ?_ ?_ ?_
  · exact suffix_congr hh hle
  · rw [List.take_append_of_le_length hle, List.take_append_of_le_length hle]
  · rw [List.head?_append, List.head?_append, hh]

theorem prefixed_lookahead {form : LiteralForm} {base : Nat} {m : Meaning}
    (hh : rest'.head? = rest.head?) (h : prefixed form base (a ++ rest) = .done (a.length + 2) m) :
    prefixed form base (a ++ rest') = .done (a.length + 2) m := by
  have hsize := (size_prefixed_eq (congrArg Reading.result h)).symm.trans (congrArg Reading.size h)
  have hle : (digitRun (max base 10) (a ++ rest)).length ≤ a.length := by
    rw [Reading.size_done] at hsize
    omega
  have hsuffix := suffix_congr hh hle
  rw [← h]
  simp only [prefixed, digitRun_congr hh hle, hsuffix]

/-- A numeric literal is read again where the same character follows. -/
theorem read_lookahead {m : Meaning} (hne : a ≠ []) (hh : rest'.head? = rest.head?)
    (h : read (a ++ rest) = .done a.length m) : read (a ++ rest') = .done a.length m := by
  refine read_again hne h ?_ (plain_lookahead hh) fun _ _ _ => prefixed_lookahead hh
  intro hbase
  rwa [hh]

end Number

theorem word_lookahead {c : Char} {m : Meaning} (hh : rest'.head? = rest.head?)
    (h : word c (a ++ rest) = .done (a.length + 1) m) :
    word c (a ++ rest') = .done (a.length + 1) m := by
  have hsize : ((a ++ rest).takeWhile Identifier.isContinue).length + 1 = a.length + 1 :=
    congrArg Reading.size h
  have hrun := takeWhile_congr (a := a) (p := Identifier.isContinue) hh (by omega)
  rw [← h]
  simp only [word, hrun]

/-- A symbol that goes on can do so with one character, but for the dots. -/
theorem symbols_extend {x y : Text × Kind} {d : Char} (hx : x ∈ symbols) (hy : y ∈ symbols)
    (h : x.1 ++ [d] <+: y.1) : x.1 ++ [d] = ['.', '.'] ∨ ∃ z ∈ symbols, z.1 = x.1 ++ [d] := by
  have hall : symbols.all (fun x => symbols.all fun y =>
      !x.1.isPrefixOf y.1 || y.1.length ≤ x.1.length || y.1.take (x.1.length + 1) == ['.', '.'] ||
        symbols.any fun z => z.1 == y.1.take (x.1.length + 1)) = true := by decide +kernel
  have hxy := List.all_eq_true.1 (List.all_eq_true.1 hall x hx) y hy
  have hpre : x.1.isPrefixOf y.1 = true :=
    List.isPrefixOf_iff_prefix.2 ((List.prefix_append x.1 [d]).trans h)
  have hlen := h.length_le
  rw [List.length_append, List.length_singleton] at hlen
  have htake : y.1.take (x.1.length + 1) = x.1 ++ [d] := by
    rw [List.prefix_iff_eq_take.1 h, List.length_append, List.length_singleton]
  simp only [hpre, htake, Bool.not_true, Bool.false_or, Bool.or_eq_true, beq_iff_eq,
    decide_eq_true_eq, List.any_eq_true] at hxy
  rcases hxy with (hxy | hxy) | hxy
  · omega
  · exact Or.inl hxy
  · exact Or.inr hxy

theorem longest_of_symbol {c : Char} {cs : Text} {n : Nat} {kind : Kind} {v : Option Value}
    (h : symbol c cs = .done n (.token kind v)) :
    ∃ s, longestSymbol? (c :: cs) = some (s, kind) ∧ s.length = n ∧
      ¬(kind = .delimiter .dot ∧ cs.head? = some '.') := by
  rw [symbol_eq_longest] at h
  split at h
  · cases congrArg Reading.result h
  rename_i s k hs
  split at h
  · cases congrArg Reading.result h
  rename_i hdots
  cases (Except.ok.inj (congrArg Reading.result h) : Meaning.token k none = .token kind v)
  exact ⟨s, hs, congrArg Reading.size h, hdots⟩

/-- The longest symbol ends before the character that follows it. -/
theorem symbolEnds_of_symbol {c : Char} {kind : Kind} {v : Option Value}
    (ho : OpensSymbol c (a ++ rest))
    (h : symbol c (a ++ rest) = .done (a.length + 1) (.token kind v)) :
    ∀ d ∈ rest.head?, symbolEnds (c :: a) d = true := by
  intro d hd
  obtain ⟨more, rfl⟩ := List.head?_eq_some_iff.1 hd
  obtain ⟨hmem, -⟩ := eq_of_symbol h
  obtain ⟨s, hlong, hlen, hdots⟩ := longest_of_symbol h
  have hmax := (longestSymbol?_eq_some hlong).2.2
  have hall : symbols.all (fun x => !(c :: a ++ [d]).isPrefixOf x.1) = true := by
    refine List.all_eq_true.2 fun x hx => ?_
    cases hp : (c :: a ++ [d]).isPrefixOf x.1 with
    | false => rfl
    | true =>
      have hpre := List.isPrefixOf_iff_prefix.1 hp
      rcases symbols_extend hmem hx hpre with hdot | ⟨z, hz, hzd⟩
      · have hdot : [c] ++ a ++ [d] = ['.'] ++ ['.'] := hdot
        obtain ⟨hsymbol, hd'⟩ := List.append_inj' hdot rfl
        obtain ⟨rfl, rfl⟩ := List.cons.inj hsymbol
        have hkind := symbol_unique hmem (y := (['.'], .delimiter .dot)) (by decide) rfl
        exact absurd ⟨(Prod.mk.inj hkind).2, congrArg List.head? hd'⟩ hdots
      · have hle := hmax z hz (by rw [hzd]; exact ⟨more, by simp⟩)
        simp only [hzd, hlen, List.length_append, List.length_cons] at hle
        omega
  have hcomment : (c :: a == ['/'] && (d == '/' || d == '*')) = false := by
    rw [Bool.and_eq_false_imp]
    intro hslash
    obtain ⟨rfl, rfl⟩ := List.cons.inj (beq_iff_eq.1 hslash)
    have hline : d ≠ '/' := fun hd => ho.lineComment ⟨rfl, congrArg some hd⟩
    have hblock : d ≠ '*' := fun hd => ho.blockComment ⟨rfl, congrArg some hd⟩
    simp [hline, hblock]
  have hdigit : (c :: a == ['.'] && isDigitIn 10 d) = false := by
    rw [Bool.and_eq_false_imp]
    intro hdot
    obtain ⟨rfl, rfl⟩ := List.cons.inj (beq_iff_eq.1 hdot)
    cases hdig : isDigitIn 10 d with
    | false => rfl
    | true => exact absurd (Or.inr ⟨rfl, hdig⟩) ho.number
  rw [symbolEnds, hall, hcomment, hdigit]
  rfl

/-- A lexeme that was read once is read again where the same character follows. -/
theorem read_lookahead {elides elides' : Bool} {s : Text} {kind : Kind} {v : Option Value}
    (hne : s ≠ []) (hk : isSolid kind = true) (hh : rest'.head? = rest.head?)
    (h : read elides (s ++ rest) = .done s.length (.token kind v)) :
    read elides' (s ++ rest') = .done s.length (.token kind v) := by
  obtain ⟨c, a, rfl⟩ := List.exists_cons_of_ne_nil hne
  refine read_again hk h (Number.read_lookahead hne hh) (word_lookahead hh) ?_
  intro ho hsymbol
  rw [hh]
  exact symbolEnds_of_symbol ho hsymbol

/-- A lexeme that was read once is read again before a gap, or where the same character follows. -/
theorem read_before {elides elides' : Bool} {s : Text} {kind : Kind} {v : Option Value}
    (hne : s ≠ []) (hk : isSolid kind = true)
    (h : read elides (s ++ rest) = .done s.length (.token kind v))
    (hr : ∀ c ∈ rest'.head?, isGap c = true ∨ c ∈ rest.head?) :
    read elides' (s ++ rest') = .done s.length (.token kind v) := by
  by_cases hh : rest'.head? = rest.head?
  · exact read_lookahead hne hk hh h
  · refine read_append hne hk h fun c hc => ?_
    rcases hr c hc with hgap | hsame
    · exact endsBefore_gap hk s hgap
    · exact absurd (Eq.trans hc (Eq.symm hsame)) hh

theorem opensSymbol_dot {cs : Text} (h : cs.head? = some '.') : OpensSymbol '.' cs := by
  refine ⟨by decide, by simp, by simp, by decide, by decide, by decide, ?_, by decide⟩
  rw [Number.opens, h]
  decide

/-- Two dots are read as such just if no third follows. -/
theorem read_twoDots_iff (elides : Bool) (rest : Text) :
    read elides ('.' :: '.' :: rest) = .done 2 .twoDots ↔ rest.head? ≠ some '.' := by
  rw [read_symbol (opensSymbol_dot rfl), symbol_eq_longest]
  refine ⟨?_, fun hthird => by rw [longestSymbol?_twoDots hthird]; rfl⟩
  intro h hthird
  obtain ⟨more, rfl⟩ := List.head?_eq_some_iff.1 hthird
  split at h
  · cases congrArg Reading.result h
  rename_i s kind hlong
  obtain ⟨hmem, -, hmax⟩ := longestSymbol?_eq_some hlong
  have hle := hmax (['.', '.', '.'], .operator .ellipsis) (by decide) ⟨more, rfl⟩
  by_cases hk : kind = .delimiter .dot
  · subst hk
    rw [mem_symbols_dot hmem] at hle
    exact absurd hle (by decide)
  · simp [hk, Reading.done] at h

/-- So two dots are read again before a gap, or where the same character follows. -/
theorem read_twoDots {elides elides' : Bool}
    (h : read elides ('.' :: '.' :: rest) = .done 2 .twoDots)
    (hr : ∀ c ∈ rest'.head?, isGap c = true ∨ c ∈ rest.head?) :
    read elides' ('.' :: '.' :: rest') = .done 2 .twoDots := by
  rw [read_twoDots_iff] at h ⊢
  intro hthird
  rcases hr '.' hthird with hgap | hsame
  · cases hgap
  · exact h hsame

end Lexeme
end GoSyntax
