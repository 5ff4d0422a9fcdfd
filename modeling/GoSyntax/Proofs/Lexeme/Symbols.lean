import GoSyntax.Lexeme.Basic

/-! Reading a symbol one character after the other comes to the longest symbol that opens the text,
two dots apart. -/
namespace GoSyntax
namespace Lexeme

/-- Operators and delimiters as they are written. -/
def symbols : List (Text × Kind) :=
  Operator.all.map (fun o => (o.spelling.toList, .operator o)) ++
    (Delimiter.all.filter Delimiter.isWritten).map fun d => (d.spelling.toList, .delimiter d)

/-- The longer of two readings of a symbol. -/
def longer (best : Option (Text × Kind)) (s : Text × Kind) : Option (Text × Kind) :=
  match best with
  | some b => if b.1.length < s.1.length then some s else best
  | none => some s

/-- The longest symbol that opens `cs`. -/
def longestSymbol? (cs : Text) : Option (Text × Kind) :=
  (symbols.filter fun s => s.1.isPrefixOf cs).foldl longer none

theorem longer_eq (best : Option (Text × Kind)) (a : Text × Kind) :
    ∃ y, longer best a = some y ∧ (y = a ∨ best = some y) ∧ a.1.length ≤ y.1.length ∧
      ∀ b ∈ best, b.1.length ≤ y.1.length := by
  cases best with
  | none => exact ⟨a, rfl, Or.inl rfl, Nat.le_refl _, by simp⟩
  | some b =>
    by_cases h : b.1.length < a.1.length
    · refine ⟨a, by simp [longer, h], Or.inl rfl, Nat.le_refl _, ?_⟩
      rintro _ ⟨⟩
      omega
    · refine ⟨b, by simp [longer, h], Or.inr rfl, by omega, ?_⟩
      rintro _ ⟨⟩
      exact Nat.le_refl _

/-- A fold over candidates gives one of them, and none of them is longer. -/
theorem foldl_longer {l : List (Text × Kind)} {best : Option (Text × Kind)} {x : Text × Kind}
    (h : l.foldl longer best = some x) :
    (x ∈ l ∨ best = some x) ∧ (∀ y ∈ l, y.1.length ≤ x.1.length) ∧
      ∀ y ∈ best, y.1.length ≤ x.1.length := by
  induction l generalizing best with
  | nil =>
    obtain rfl : best = some x := h
    exact ⟨Or.inr rfl, by simp, by rintro _ ⟨⟩; exact Nat.le_refl _⟩
  | cons a l ih =>
    obtain ⟨hx, hl, hb⟩ := ih h
    obtain ⟨y, hy, hor, ha, hbest⟩ := longer_eq best a
    have hyx : y.1.length ≤ x.1.length := hb y hy
    refine ⟨?_, ?_, fun z hz => Nat.le_trans (hbest z hz) hyx⟩
    · rcases hx with hx | hx
      · exact Or.inl (List.mem_cons_of_mem a hx)
      · obtain rfl : y = x := Option.some.inj (hy.symm.trans hx)
        rcases hor with rfl | hbest
        · exact Or.inl List.mem_cons_self
        · exact Or.inr hbest
    · intro z hz
      rcases List.mem_cons.1 hz with rfl | hz
      · exact Nat.le_trans ha hyx
      · exact hl z hz

/-- The longest symbol is one that opens the text, and no other that does is longer. -/
theorem longestSymbol?_eq_some {cs : Text} {x : Text × Kind} (h : longestSymbol? cs = some x) :
    x ∈ symbols ∧ x.1 <+: cs ∧ ∀ y ∈ symbols, y.1 <+: cs → y.1.length ≤ x.1.length := by
  obtain ⟨hx, hmax, -⟩ := foldl_longer h
  simp only [List.mem_filter, List.isPrefixOf_iff_prefix, reduceCtorEq, or_false, and_imp,
    Prod.forall] at hx hmax ⊢
  exact ⟨hx.1, hx.2, fun s k hs hp => hmax s k hs hp⟩

theorem longestSymbol?_of_mem {x : Text × Kind} {cs : Text} (hx : x ∈ symbols) (hp : x.1 <+: cs) :
    ∃ y, longestSymbol? cs = some y := by
  have hmem : x ∈ symbols.filter fun s => s.1.isPrefixOf cs :=
    List.mem_filter.2 ⟨hx, List.isPrefixOf_iff_prefix.2 hp⟩
  have hsome : ∀ (l : List (Text × Kind)) (best : Option (Text × Kind)), l ≠ [] →
      ∃ y, l.foldl longer best = some y := by
    intro l
    induction l with
    | nil => simp
    | cons a l ih =>
      intro best _
      obtain ⟨y, hy, -⟩ := longer_eq best a
      cases l with
      | nil => exact ⟨y, hy⟩
      | cons b l => exact ih _ (by simp)
  exact hsome _ none (List.ne_nil_of_mem hmem)

theorem symbol_ne_nil {x : Text × Kind} (h : x ∈ symbols) : x.1 ≠ [] := by
  have hall : symbols.all (fun x => x.1 ≠ []) = true := by decide
  simpa using List.all_eq_true.1 hall x h

theorem symbol_unique {x y : Text × Kind} (hx : x ∈ symbols) (hy : y ∈ symbols) (h : x.1 = y.1) :
    x = y := by
  have hall : symbols.all (fun x => symbols.all fun y => x.1 = y.1 → x = y) = true := by
    decide +kernel
  have hxy := List.all_eq_true.1 (List.all_eq_true.1 hall x hx) y hy
  simp only [decide_eq_true_eq] at hxy
  exact hxy h

/-- No symbol goes on from `s` into `rest`. -/
def EndsSymbol (s rest : Text) : Prop := ∀ d ∈ rest.head?, ∀ x ∈ symbols, ¬s ++ [d] <+: x.1

/-- A symbol is the longest one where nothing goes on with it. -/
theorem longestSymbol?_append {s rest : Text} {kind : Kind} (hx : (s, kind) ∈ symbols)
    (hr : EndsSymbol s rest) : longestSymbol? (s ++ rest) = some (s, kind) := by
  obtain ⟨y, hy⟩ := longestSymbol?_of_mem hx (List.prefix_append s rest)
  obtain ⟨hmem, hpre, hmax⟩ := longestSymbol?_eq_some hy
  have hle := hmax _ hx (List.prefix_append s rest)
  obtain ⟨t, ht⟩ := List.prefix_of_prefix_length_le (List.prefix_append s rest) hpre hle
  cases t with
  | nil =>
    rw [List.append_nil] at ht
    rw [hy, symbol_unique hx hmem ht]
  | cons c t =>
    have hc : c ∈ rest.head? := by
      rw [← ht, List.prefix_append_right_inj] at hpre
      obtain ⟨u, rfl⟩ := hpre
      rfl
    exact absurd ⟨t, by rw [← ht, List.append_assoc]; rfl⟩ (hr c hc y hmem)

/-- Two dots that no third follows open with the symbol of one dot. -/
theorem longestSymbol?_twoDots {rest : Text} (h : rest.head? ≠ some '.') :
    longestSymbol? ('.' :: '.' :: rest) = some (['.'], .delimiter .dot) := by
  obtain ⟨y, hy⟩ : ∃ y, longestSymbol? ('.' :: '.' :: rest) = some y :=
    longestSymbol?_of_mem (x := (['.'], .delimiter .dot)) (by decide) ⟨'.' :: rest, rfl⟩
  obtain ⟨hmem, hpre, -⟩ := longestSymbol?_eq_some hy
  have hall : symbols.all (fun x => x.1.head? = some '.' →
      x.1 = ['.'] ∨ x.1 = ['.', '.', '.']) = true := by decide
  have hdot : y.1 = ['.'] := by
    obtain ⟨c, cs, hc⟩ := List.exists_cons_of_ne_nil (symbol_ne_nil hmem)
    rw [hc] at hpre
    obtain ⟨rfl, -⟩ := List.cons_prefix_cons.1 hpre
    rcases of_decide_eq_true (List.all_eq_true.1 hall _ hmem) (by rw [hc]; rfl) with hs | hs
    · exact hs
    · rw [← hc, hs] at hpre
      obtain ⟨more, hmore⟩ := hpre
      cases hmore
      exact absurd rfl h
  rw [hy, symbol_unique hmem (y := (['.'], .delimiter .dot)) (by decide) hdot]

namespace Ending

/-- What has been taken is the symbol that `m` stands for, or two dots. -/
def Spells (s : Text) (m : Meaning) : Prop :=
  (∃ kind, (s, kind) ∈ symbols ∧ m = .token kind none) ∨ s = ['.', '.'] ∧ m = .twoDots

/-- Behind `s` the ending takes all that a symbol can go on with, `tried` being what was tried in
vain. -/
def fits (s tried : Text) : Ending → Bool
  | stop m =>
    (m == .twoDots && s == ['.', '.'] || symbols.any fun x => x.1 == s && m == .token x.2 none) &&
      symbols.all fun x =>
        !s.isPrefixOf x.1 || (x.1.drop s.length).head?.all fun d => tried.contains d
  | eat c more other => fits (s ++ [c]) [] more && fits s (c :: tried) other

variable {s tried cs : Text} {e : Ending} {m : Meaning}

theorem spells_of_fits (h : fits s tried (stop m) = true) : Spells s m := by
  simp only [fits, Bool.and_eq_true, Bool.or_eq_true, beq_iff_eq, List.any_eq_true] at h
  rcases h.1 with ⟨rfl, rfl⟩ | ⟨x, hx, rfl, rfl⟩
  · exact Or.inr ⟨rfl, rfl⟩
  · exact Or.inl ⟨x.2, hx, rfl⟩

theorem endsSymbol_of_fits (h : fits s tried (stop m) = true) (hcs : ∀ d ∈ cs.head?, d ∉ tried) :
    EndsSymbol s cs := by
  intro d hd x hx hpre
  simp only [fits, Bool.and_eq_true, List.all_eq_true] at h
  have hgoes := h.2 x hx
  obtain ⟨t, ht⟩ := hpre
  have hs : s.isPrefixOf x.1 = true :=
    List.isPrefixOf_iff_prefix.2 ⟨d :: t, by rw [← ht, List.append_assoc]; rfl⟩
  have hdrop : x.1.drop s.length = d :: t := by
    rw [← ht, List.append_assoc, List.drop_left]
    rfl
  rw [hs, hdrop] at hgoes
  exact hcs d hd (by simpa using hgoes)

/-- What an ending takes makes a symbol of what was taken before, and the longest one. -/
theorem read_spells (h : fits s tried e = true) (hcs : ∀ d ∈ cs.head?, d ∉ tried) :
    ∃ a rest m, cs = a ++ rest ∧ e.read cs = .done a.length m ∧ Spells (s ++ a) m ∧
      EndsSymbol (s ++ a) rest := by
  induction e generalizing s tried cs with
  | stop m =>
    refine ⟨[], cs, m, rfl, rfl, ?_, ?_⟩
    · rw [List.append_nil]
      exact spells_of_fits h
    · rw [List.append_nil]
      exact endsSymbol_of_fits h hcs
  | eat c more other ihMore ihOther =>
    simp only [fits, Bool.and_eq_true] at h
    cases cs with
    | nil => exact ihOther h.2 (by simp)
    | cons d cs =>
      by_cases hd : d = c
      · subst hd
        have huntried : ∀ d ∈ cs.head?, d ∉ ([] : Text) := by simp
        obtain ⟨a, rest, m, rfl, hread, hspells, hends⟩ := ihMore h.1 huntried
        rw [List.append_assoc] at hspells hends
        refine ⟨d :: a, rest, m, rfl, ?_, hspells, hends⟩
        rw [read, if_pos rfl, hread, List.length_cons, Nat.add_comm]
        rfl
      · rw [read, if_neg hd]
        refine ihOther h.2 ?_
        intro b hb
        obtain rfl : d = b := Option.some.inj hb
        have hne := hcs d rfl
        simp [hd, hne]

theorem fits_of_ofFirst? {c : Char} (h : ofFirst? c = some e) : fits [c] [] e = true := by
  unfold ofFirst? at h
  split at h <;> cases h <;> decide +kernel

theorem ofFirst?_of_mem {x : Text × Kind} {c : Char} {s : Text} (h : x ∈ symbols)
    (hs : x.1 = c :: s) : (ofFirst? c).isSome = true := by
  have hall : symbols.all (fun x => x.1.head?.all fun c => (ofFirst? c).isSome) = true := by decide
  have hx := List.all_eq_true.1 hall x h
  rwa [hs] at hx

end Ending

/-- Reading a symbol gives the longest one that opens the text. Two dots are the exception: the first
of them alone is a symbol, and both are taken. -/
theorem symbol_eq_longest (c : Char) (cs : Text) :
    symbol c cs =
      match longestSymbol? (c :: cs) with
      | none => .fail 1 (.atStart (.invalidCharacter c))
      | some (s, kind) =>
        if kind = .delimiter .dot ∧ cs.head? = some '.' then .done 2 .twoDots
        else .done s.length (.token kind none) := by
  cases he : Ending.ofFirst? c with
  | none =>
    have hlong : longestSymbol? (c :: cs) = none := by
      cases hl : longestSymbol? (c :: cs) with
      | none => rfl
      | some y =>
        obtain ⟨hmem, hpre, -⟩ := longestSymbol?_eq_some hl
        obtain ⟨d, s, hs⟩ := List.exists_cons_of_ne_nil (symbol_ne_nil hmem)
        rw [hs] at hpre
        obtain ⟨rfl, -⟩ := List.cons_prefix_cons.1 hpre
        have hsome := Ending.ofFirst?_of_mem hmem hs
        rw [he] at hsome
        cases hsome
    rw [symbol, he, hlong]
  | some e =>
    obtain ⟨a, rest, m, rfl, hread, hspells, hends⟩ :=
      Ending.read_spells (Ending.fits_of_ofFirst? he) (show ∀ d ∈ cs.head?, d ∉ ([] : Text) by simp)
    have hsymbol : symbol c (a ++ rest) = .done (a.length + 1) m := by
      rw [symbol, he, Nat.add_comm]
      simp only [hread]
      rfl
    rw [hsymbol]
    rcases hspells with ⟨kind, hmem, rfl⟩ | ⟨hs, rfl⟩
    · have hlong : longestSymbol? (c :: (a ++ rest)) = some (c :: a, kind) :=
        longestSymbol?_append hmem hends
      have hone : ¬(kind = .delimiter .dot ∧ (a ++ rest).head? = some '.') := by
        rintro ⟨rfl, hhead⟩
        have hdot : (c :: a, Kind.delimiter .dot) = (['.'], .delimiter .dot) := by
          have hall : symbols.all (fun x => x.2 = .delimiter .dot → x.1 = ['.']) = true := by decide
          exact Prod.ext (of_decide_eq_true (List.all_eq_true.1 hall _ hmem) rfl) rfl
        obtain ⟨rfl, rfl⟩ := List.cons.inj (congrArg Prod.fst hdot)
        exact hends '.' hhead (['.', '.', '.'], .operator .ellipsis) (by decide) ⟨['.'], rfl⟩
      simp only [hlong, if_neg hone]
      rfl
    · obtain ⟨rfl, rfl⟩ := List.cons.inj hs
      have hthird : rest.head? ≠ some '.' := by
        intro hhead
        exact hends '.' hhead (['.', '.', '.'], .operator .ellipsis) (by decide) ⟨[], rfl⟩
      simp only [List.singleton_append, longestSymbol?_twoDots hthird, List.head?_cons]
      rfl

end Lexeme
end GoSyntax
