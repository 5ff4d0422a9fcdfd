import GoSyntax.Lexeme.Number

/-! The parts of a literal without base letter: what is found in a text, and the text they make up. -/
namespace GoSyntax

/-- Digits spell a number. -/
theorem exists_numberIn {base : Nat} {s : List Char} (h : ∀ c ∈ s, isDigitIn base c) :
    ∃ n, numberIn? base s = some n := by
  unfold numberIn?
  generalize 0 = init
  induction s generalizing init with
  | nil => exact ⟨init, rfl⟩
  | cons c s ih =>
    obtain ⟨d, hd⟩ := Option.isSome_iff_exists.1 (h c List.mem_cons_self)
    obtain ⟨n, hn⟩ := ih (fun c hc => h c (List.mem_cons_of_mem _ hc)) (init * base + d)
    exact ⟨n, by simpa [List.foldlM_cons, hd] using hn⟩

namespace Lexeme

theorem takeWhile_append {p : Char → Bool} {s rest : Text} (hs : ∀ c ∈ s, p c)
    (hr : ∀ c ∈ rest.head?, p c = false) : (s ++ rest).takeWhile p = s := by
  rw [List.takeWhile_append_of_pos hs]
  have hnil : rest.takeWhile p = [] := by
    cases rest with
    | nil => rfl
    | cons c rest => simp [hr c rfl]
  rw [hnil, List.append_nil]

theorem digit_range {base : Nat} {c : Char} (h : isDigitIn base c) :
    48 ≤ c.toNat ∧ c.toNat ≤ 57 ∨ 97 ≤ c.toNat ∧ c.toNat ≤ 102 ∨ 65 ≤ c.toNat ∧ c.toNat ≤ 70 := by
  by_cases h₁ : '0' ≤ c ∧ c ≤ '9'
  · exact Or.inl ⟨UInt32.le_iff_toNat_le.1 h₁.1, UInt32.le_iff_toNat_le.1 h₁.2⟩
  by_cases h₂ : 'a' ≤ c ∧ c ≤ 'f'
  · exact Or.inr (Or.inl ⟨UInt32.le_iff_toNat_le.1 h₂.1, UInt32.le_iff_toNat_le.1 h₂.2⟩)
  by_cases h₃ : 'A' ≤ c ∧ c ≤ 'F'
  · exact Or.inr (Or.inr ⟨UInt32.le_iff_toNat_le.1 h₃.1, UInt32.le_iff_toNat_le.1 h₃.2⟩)
  · simp [isDigitIn, digitIn?, digitValue?, h₁, h₂, h₃] at h

namespace Number

open Number.Decimal (splitFraction exponentOf)

theorem mem_withoutSeparators {s : Text} {base : Nat} (h : ∀ c ∈ s, isDigitOrSeparator base c) :
    ∀ c ∈ withoutSeparators s, isDigitIn base c := by
  intro c hc
  obtain ⟨hmem, hne⟩ := List.mem_filter.1 hc
  have hor := h c hmem
  simp only [isDigitOrSeparator, Bool.or_eq_true, beq_iff_eq] at hor
  rcases hor with hd | rfl
  · exact hd
  · simp at hne

theorem mem_digitRun {base : Nat} {cs : Text} : ∀ c ∈ digitRun base cs, isDigitOrSeparator base c :=
  List.all_eq_true.1 List.all_takeWhile

theorem digits_of_digitRun {base : Nat} {cs : Text} :
    ∀ c ∈ withoutSeparators (digitRun base cs), isDigitIn base c :=
  mem_withoutSeparators mem_digitRun

theorem splitFraction_digits (cs : Text) :
    ∀ c ∈ (splitFraction cs).1.getD [], isDigitOrSeparator 10 c := by
  unfold splitFraction
  split
  · exact mem_digitRun
  · simp

theorem ofText_eq (cs : Text) :
    Decimal.ofText cs =
      ⟨digitRun 10 cs, (splitFraction (cs.drop (digitRun 10 cs).length)).1,
        exponentOf (splitFraction (cs.drop (digitRun 10 cs).length)).2⟩ := rfl

/-- A point with the digits behind it, as written. -/
def fractionText : Option Text → Text
  | none => []
  | some digits => '.' :: digits

/-- An exponent that opens with the letter `e`, as written. -/
def exponentText (e : Char) : Option (Option Char × Text) → Text
  | none => []
  | some (sign, digits) => e :: (sign.toList ++ digits)

/-- A literal's parts, the letter of its exponent left open. -/
def Decimal.text (d : Decimal) (e : Char) : Text :=
  d.whole ++ (fractionText d.fraction ++ exponentText e d.exponent)

/-- The parts hold what a literal can hold, an exponent digits among them. -/
structure Decimal.WellFormed (d : Decimal) (e : Char) : Prop where
  letter : e = 'e' ∨ e = 'E'
  whole : ∀ c ∈ d.whole, isDigitOrSeparator 10 c
  fraction : ∀ f, d.fraction = some f → ∀ c ∈ f, isDigitOrSeparator 10 c
  exponent : ∀ x, d.exponent = some x →
    (∀ s ∈ x.1, s = '+' ∨ s = '-') ∧ (∀ c ∈ x.2, isDigitOrSeparator 10 c) ∧ x.2 ≠ []

theorem length_text (d : Decimal) (e : Char) : (d.text e).length = d.size := by
  simp only [Decimal.text, Decimal.size, List.length_append]
  cases d.fraction <;> cases d.exponent <;> simp [fractionText, exponentText]
  omega

/-- The text holds digits, separators, a point, a letter and a sign. -/
theorem mem_text {d : Decimal} {l : Char} (h : d.WellFormed l) :
    ∀ c ∈ d.text l, isDigitOrSeparator 10 c = true ∨ c ∈ ['.', 'e', 'E', '+', '-'] := by
  intro c hc
  rw [Decimal.text, List.mem_append, List.mem_append] at hc
  rcases hc with hc | hc | hc
  · exact Or.inl (h.whole c hc)
  · cases hf : d.fraction with
    | none => simp [hf, fractionText] at hc
    | some f =>
      rw [hf, fractionText, List.mem_cons] at hc
      rcases hc with rfl | hc
      · exact Or.inr (by decide)
      · exact Or.inl (h.fraction f hf c hc)
  · cases hx : d.exponent with
    | none => simp [hx, exponentText] at hc
    | some x =>
      obtain ⟨hsign, hdigits, -⟩ := h.exponent x hx
      rw [hx, exponentText, List.mem_cons, List.mem_append, Option.mem_toList] at hc
      rcases hc with rfl | hc | hc
      · rcases h.letter with rfl | rfl <;> exact Or.inr (by decide)
      · rcases hsign c hc with rfl | rfl <;> exact Or.inr (by decide)
      · exact Or.inl (hdigits c hc)

theorem digitRun_drop (base : Nat) (cs : Text) :
    digitRun base cs ++ cs.drop (digitRun base cs).length = cs :=
  List.prefix_iff_eq_append.1 (List.takeWhile_prefix _)

theorem splitFraction_eq (cs : Text) :
    fractionText (splitFraction cs).1 ++ (splitFraction cs).2 = cs := by
  unfold splitFraction
  split
  · rename_i more
    simp only [fractionText, List.cons_append]
    rw [digitRun_drop]
  · rfl

/-- An exponent as it is found, with the letter that opens it. -/
theorem exponentOf_eq {cs : Text} {x : Option Char × Text} (h : exponentOf cs = some x) :
    ∃ e rest, (e = 'e' ∨ e = 'E') ∧ cs = exponentText e (some x) ++ rest ∧
      (∀ s ∈ x.1, s = '+' ∨ s = '-') ∧ ∀ c ∈ x.2, isDigitOrSeparator 10 c := by
  unfold exponentOf at h
  split at h
  · cases h
  rename_i c more
  split at h
  · rename_i hc
    split at h
    · rename_i digits
      cases h
      refine ⟨c, digits.drop (digitRun 10 digits).length, hc, ?_, by simp, mem_digitRun⟩
      simp [exponentText, digitRun_drop]
    · rename_i digits
      cases h
      refine ⟨c, digits.drop (digitRun 10 digits).length, hc, ?_, by simp, mem_digitRun⟩
      simp [exponentText, digitRun_drop]
    · cases h
      refine ⟨c, more.drop (digitRun 10 more).length, hc, ?_, by simp, mem_digitRun⟩
      simp [exponentText, digitRun_drop]
  · cases h

/-- A text without flaw in its exponent opens with the parts that are found in it. -/
theorem ofText_text {cs : Text}
    (h : ∀ x, (Decimal.ofText cs).exponent = some x → x.2 ≠ []) :
    ∃ e rest, (Decimal.ofText cs).WellFormed e ∧ cs = (Decimal.ofText cs).text e ++ rest := by
  have h₁ := digitRun_drop 10 cs
  have h₂ := splitFraction_eq (cs.drop (digitRun 10 cs).length)
  have hfrac := splitFraction_digits (cs.drop (digitRun 10 cs).length)
  rw [ofText_eq] at h ⊢
  generalize splitFraction (cs.drop (digitRun 10 cs).length) = f at h h₂ hfrac ⊢
  have hf : ∀ g, f.1 = some g → ∀ c ∈ g, isDigitOrSeparator 10 c := by
    intro g hg
    simpa [hg] using hfrac
  cases hx : exponentOf f.2 with
  | none =>
    refine ⟨'e', f.2, ⟨Or.inl rfl, mem_digitRun, hf, by simp⟩, ?_⟩
    simp only [Decimal.text, exponentText, List.append_nil, List.append_assoc]
    rw [h₂, h₁]
  | some x =>
    obtain ⟨e, rest, he, hrest, hsign, hdigits⟩ := exponentOf_eq hx
    refine ⟨e, rest, ⟨he, mem_digitRun, hf, ?_⟩, ?_⟩
    · rintro y ⟨⟩
      exact ⟨hsign, hdigits, h x hx⟩
    · simp only [Decimal.text, List.append_assoc]
      rw [← hrest, h₂, h₁]

/-- Text that is cut off where a suffix starts is that suffix and what follows. -/
theorem suffix_split (cs : Text) :
    ∃ s rest, cs = s ++ rest ∧ s.length = suffix cs ∧ (s = [] ∨ s = ['i']) := by
  cases cs with
  | nil => exact ⟨[], [], rfl, rfl, Or.inl rfl⟩
  | cons c cs =>
    by_cases hc : c = 'i'
    · subst hc
      exact ⟨['i'], cs, rfl, rfl, Or.inr rfl⟩
    · exact ⟨[], c :: cs, rfl, by simp [suffix, hc], Or.inl rfl⟩

end Number
end Lexeme
end GoSyntax
