import Mathlib.Data.List.Forall2
import Mathlib.Data.Nat.Digits.Defs
import Mathlib.Algebra.Order.Field.Rat
import Mathlib.Tactic.IntervalCases
import Mathlib.Tactic.Ring
import GoSyntax.Proofs.Lexeme.Locality

/-! The grammar of numeric literals, with the number that each of them stands for. What is read as a
literal is in the grammar, and what is in the grammar is read as a literal. -/
namespace GoSyntax
namespace Numeral

/-- `c` is the digit of value `d` in base `base`. -/
def DigitOf (base : Nat) (c : Char) (d : Nat) : Prop :=
  d < base ∧ ("0123456789abcdef".toList[d]? = some c ∨ "0123456789ABCDEF".toList[d]? = some c)

/-- The number with the digits `ds`, the first of which weighs most. -/
def valueIn (base : Nat) (ds : List Nat) : Nat := Nat.ofDigits base ds.reverse

/-- Any number of digits, each with or without a separator before it. -/
inductive Tail (base : Nat) : Text → List Nat → Prop
  | nil : Tail base [] []
  | digit {c : Char} {d : Nat} {s : Text} {ds : List Nat} (hd : DigitOf base c d)
    (hs : Tail base s ds) : Tail base (c :: s) (d :: ds)
  | separated {c : Char} {d : Nat} {s : Text} {ds : List Nat} (hd : DigitOf base c d)
    (hs : Tail base s ds) : Tail base ('_' :: c :: s) (d :: ds)

/-- A digit, and more of them with or without separators between. -/
inductive Digits (base : Nat) : Text → List Nat → Prop
  | cons {c : Char} {d : Nat} {s : Text} {ds : List Nat} (hd : DigitOf base c d)
    (hs : Tail base s ds) : Digits base (c :: s) (d :: ds)

/-- A part that may be left out, and then counts as `a`. -/
inductive Optional {α : Type} (P : Text → α → Prop) (a : α) : Text → α → Prop
  | absent : Optional P a [] a
  | present {s : Text} {b : α} (h : P s b) : Optional P a s b

/-- A sign, if there is one, and what it makes of a number. -/
inductive Sign : Option Char → (Nat → Int) → Prop
  | none : Sign none (fun n => n)
  | plus : Sign (some '+') (fun n => n)
  | minus : Sign (some '-') (fun n => -n)

inductive Exponent : Text → Int → Prop
  | mk {l : Char} {sign : Option Char} {s : Text} {f : Nat → Int} {ds : List Nat}
    (hl : l = 'e' ∨ l = 'E') (hf : Sign sign f) (hs : Digits 10 s ds) :
    Exponent (l :: (sign.toList ++ s)) (f (valueIn 10 ds))

/-- A literal with a point or an exponent, its digits before and behind the point, and its exponent. -/
inductive Floating : Text → List Nat → List Nat → Int → Prop
  | whole {w f x : Text} {ws fs : List Nat} {e : Int} (hw : Digits 10 w ws)
    (hf : Optional (Digits 10) [] f fs) (hx : Optional Exponent 0 x e) :
    Floating (w ++ '.' :: (f ++ x)) ws fs e
  | scaled {w x : Text} {ws : List Nat} {e : Int} (hw : Digits 10 w ws) (hx : Exponent x e) :
    Floating (w ++ x) ws [] e
  | fraction {f x : Text} {fs : List Nat} {e : Int} (hf : Digits 10 f fs)
    (hx : Optional Exponent 0 x e) : Floating ('.' :: (f ++ x)) [] fs e

/-- Digits before and behind a point, times a power of ten. -/
def decimalValue (ws fs : List Nat) (e : Int) : Rat :=
  (valueIn 10 (ws ++ fs) : Rat) * 10 ^ (e - fs.length)

/-- The letters that name a base behind a zero. -/
inductive BaseLetter : Char → LiteralForm → Nat → Prop
  | hex {c : Char} (h : c = 'x' ∨ c = 'X') : BaseLetter c .hexInteger 16
  | binary {c : Char} (h : c = 'b' ∨ c = 'B') : BaseLetter c .binaryInteger 2
  | octal {c : Char} (h : c = 'o' ∨ c = 'O') : BaseLetter c .octalInteger 8

inductive Prefixed : LiteralForm → Text → Nat → Prop
  | mk {c : Char} {form : LiteralForm} {base : Nat} {s : Text} {ds : List Nat}
    (hc : BaseLetter c form base) (hs : Tail base s ds) (hne : s ≠ []) :
    Prefixed form ('0' :: c :: s) (valueIn base ds)

end Numeral

open Numeral in
/-- The literals: their form, text, value and exponent, which is zero where there is none. -/
inductive Numeral : LiteralForm → Text → Value → Int → Prop
  | decimal {c : Char} {d : Nat} {s : Text} {ds : List Nat} (hd : DigitOf 10 c d) (hne : d ≠ 0)
    (hs : Tail 10 s ds) : Numeral .decimalInteger (c :: s) (.int (valueIn 10 (d :: ds))) 0
  | octal {s : Text} {ds : List Nat} (hs : Tail 8 s ds) :
    Numeral .octalInteger ('0' :: s) (.int (valueIn 8 ds)) 0
  | based {form : LiteralForm} {s : Text} {n : Nat} (h : Prefixed form s n) :
    Numeral form s (.int n) 0
  | float {s : Text} {ws fs : List Nat} {e : Int} (h : Floating s ws fs e) :
    Numeral .float s (.float (decimalValue ws fs e)) e
  | imaginary {s : Text} {ds : List Nat} (h : Digits 10 s ds) :
    Numeral .imaginary (s ++ ['i']) (.imaginary (valueIn 10 ds)) 0
  | imaginaryBased {form : LiteralForm} {s : Text} {n : Nat} (h : Prefixed form s n) :
    Numeral .imaginary (s ++ ['i']) (.imaginary n) 0
  | imaginaryFloat {s : Text} {ws fs : List Nat} {e : Int} (h : Floating s ws fs e) :
    Numeral .imaginary (s ++ ['i']) (.imaginary (decimalValue ws fs e)) e

namespace Numeral

open Lexeme.Number

theorem digitValue?_ascii : ∀ n < 128, ∀ d ∈ digitValue? (Char.ofNat n),
    "0123456789abcdef".toList[d]? = some (Char.ofNat n) ∨
      "0123456789ABCDEF".toList[d]? = some (Char.ofNat n) := by
  decide

theorem digitValue?_table : ∀ d < 16, ∀ c,
    "0123456789abcdef".toList[d]? = some c ∨ "0123456789ABCDEF".toList[d]? = some c →
      digitValue? c = some d := by
  intro d hd c h
  interval_cases d <;> rcases h with h | h <;> obtain rfl := Option.some.inj h <;> decide

theorem DigitOf.lt {base : Nat} {c : Char} {d : Nat} (h : DigitOf base c d) : d < 16 := by
  rcases h.2 with h | h
  · exact (List.getElem?_eq_some_iff.1 h).1
  · exact (List.getElem?_eq_some_iff.1 h).1

theorem digitIn?_eq_some_iff {base : Nat} {c : Char} {d : Nat} :
    digitIn? base c = some d ↔ DigitOf base c d := by
  constructor
  · intro h
    have hc : c.toNat < 128 := by
      have hr := @Lexeme.digit_range base c (by simp [isDigitIn, h])
      omega
    rw [digitIn?, Option.filter_eq_some_iff, decide_eq_true_eq] at h
    have htable := digitValue?_ascii c.toNat hc d
    rw [Char.ofNat_toNat] at htable
    exact ⟨h.2, htable h.1⟩
  · intro h
    rw [digitIn?, Option.filter_eq_some_iff, decide_eq_true_eq]
    exact ⟨digitValue?_table d h.lt c h.2, h.1⟩

section Runs

variable {base base' : Nat} {c : Char} {d : Nat} {s t : Text} {ds es : List Nat}

theorem DigitOf.isDigitIn (h : DigitOf base c d) : isDigitIn base c = true := by
  simp [GoSyntax.isDigitIn, digitIn?_eq_some_iff.2 h]

theorem exists_digitOf (h : isDigitIn base c = true) : ∃ d, DigitOf base c d := by
  obtain ⟨d, hd⟩ := Option.isSome_iff_exists.1 h
  exact ⟨d, digitIn?_eq_some_iff.1 hd⟩

theorem DigitOf.mono (h : DigitOf base c d) (hb : base ≤ base') : DigitOf base' c d :=
  ⟨Nat.lt_of_lt_of_le h.1 hb, h.2⟩

theorem DigitOf.ne_separator (h : DigitOf base c d) : c ≠ '_' := by
  rintro rfl
  have hr := Lexeme.digit_range h.isDigitIn
  revert hr
  decide

theorem valueIn_cons (base d : Nat) (ds : List Nat) :
    valueIn base (d :: ds) = base ^ ds.length * d + valueIn base ds := by
  rw [valueIn, List.reverse_cons, Nat.ofDigits_append, Nat.ofDigits_singleton, List.length_reverse,
    Nat.add_comm, valueIn]

/-- Digits without separators spell the number that they have as digits. -/
theorem numberIn?_eq (h : List.Forall₂ (DigitOf base) s ds) :
    numberIn? base s = some (valueIn base ds) := by
  have hfrom : ∀ n, s.foldlM (fun n c => (digitIn? base c).map (n * base + ·)) n =
      some (base ^ ds.length * n + valueIn base ds) := by
    induction h with
    | nil =>
      intro n
      simp [valueIn]
    | @cons c d s ds hd _ ih =>
      intro n
      rw [List.foldlM_cons, digitIn?_eq_some_iff.2 hd, Option.map_some, Option.bind_eq_bind,
        Option.bind_some, ih, valueIn_cons, List.length_cons]
      congr 1
      ring
  rw [numberIn?, hfrom 0, Nat.mul_zero, Nat.zero_add]

theorem withoutSeparators_cons (hc : c ≠ '_') :
    withoutSeparators (c :: s) = c :: withoutSeparators s := by
  simp [withoutSeparators, hc]

theorem Tail.digits (h : Tail base s ds) :
    List.Forall₂ (DigitOf base) (withoutSeparators s) ds := by
  induction h with
  | nil => exact .nil
  | digit hd _ ih =>
    rw [withoutSeparators_cons hd.ne_separator]
    exact .cons hd ih
  | @separated c d s ds hd _ ih =>
    have hsep : withoutSeparators ('_' :: c :: s) = withoutSeparators (c :: s) := rfl
    rw [hsep, withoutSeparators_cons hd.ne_separator]
    exact .cons hd ih

theorem Tail.mem (h : Tail base s ds) : ∀ c ∈ s, isDigitOrSeparator base c = true := by
  induction h with
  | nil => simp
  | digit hd _ ih => simpa [isDigitOrSeparator, hd.isDigitIn] using ih
  | separated hd _ ih => simpa [isDigitOrSeparator, hd.isDigitIn] using ih

theorem Tail.mono (h : Tail base s ds) (hb : base ≤ base') : Tail base' s ds := by
  induction h with
  | nil => exact .nil
  | digit hd _ ih => exact .digit (hd.mono hb) ih
  | separated hd _ ih => exact .separated (hd.mono hb) ih

theorem wellSeparated_digit (hd : DigitOf base c d) (behind : Bool) :
    wellSeparated base behind (c :: s) = wellSeparated base true s := by
  rw [wellSeparated, if_neg hd.ne_separator, hd.isDigitIn]

theorem Tail.wellSeparated (h : Tail base s ds) : wellSeparated base true s = true := by
  induction h with
  | nil => rfl
  | digit hd _ ih => rw [wellSeparated_digit hd, ih]
  | @separated c d s ds hd _ ih =>
    rw [Lexeme.Number.wellSeparated, if_pos rfl, wellSeparated_digit hd, ih]
    simp [hd.isDigitIn]

theorem Digits.tail (h : Digits base s ds) : Tail base s ds := by
  cases h with
  | cons hd hs => exact .digit hd hs

theorem Digits.ne_nil (h : Digits base s ds) : s ≠ [] := by
  cases h with
  | cons => simp

theorem Digits.wellSeparated (h : Digits base s ds) : wellSeparated base false s = true := by
  cases h with
  | cons hd hs => rw [wellSeparated_digit hd, hs.wellSeparated]

/-- Separators that stand where they may leave digits behind. -/
theorem exists_digits {behind : Bool} (hmem : ∀ c ∈ s, isDigitOrSeparator base c = true)
    (hs : wellSeparated base' behind s = true) :
    ∃ ds, Tail base s ds ∧ (behind = false → Optional (Digits base) [] s ds) := by
  induction s generalizing behind with
  | nil => exact ⟨[], .nil, fun _ => .absent⟩
  | cons c s ih =>
    have hmem' : ∀ c ∈ s, isDigitOrSeparator base c = true :=
      fun c hc => hmem c (List.mem_cons_of_mem _ hc)
    rw [wellSeparated] at hs
    by_cases hc : c = '_'
    · subst hc
      simp only [if_pos, Bool.and_eq_true] at hs
      obtain ⟨⟨rfl, hhead⟩, hs⟩ := hs
      obtain ⟨ds, -, hds⟩ := ih hmem' hs
      cases hds rfl with
      | absent => simp at hhead
      | present hds =>
        cases hds with
        | cons hd htail => exact ⟨_, .separated hd htail, by simp⟩
    · rw [if_neg hc] at hs
      obtain ⟨ds, hds, -⟩ := ih hmem' hs
      have hdigit : isDigitIn base c = true := by
        simpa [isDigitOrSeparator, hc] using hmem c List.mem_cons_self
      obtain ⟨d, hd⟩ := exists_digitOf hdigit
      exact ⟨d :: ds, .digit hd hds, fun _ => .present (.cons hd hds)⟩

end Runs

section Parts

open Lexeme.Number (Decimal fractionText exponentText)

variable {d : Decimal} {l : Char} {ws fs : List Nat} {e : Int}

/-- The exponent that is found behind its letter counts `e`. -/
def Counts : Option (Option Char × Text) → Int → Prop
  | none, e => e = 0
  | some (sign, s), e => ∃ f ds, Sign sign f ∧ Digits 10 s ds ∧ e = f (valueIn 10 ds)

theorem Counts.exponent {x : Option (Option Char × Text)} (h : Counts x e) (hl : l = 'e' ∨ l = 'E') :
    Optional Exponent 0 (exponentText l x) e := by
  cases x with
  | none =>
    obtain rfl : e = 0 := h
    exact .absent
  | some x =>
    obtain ⟨f, ds, hf, hs, rfl⟩ := h
    exact .present (.mk hl hf hs)

theorem Exponent.counts {s : Text} (h : Exponent s e) :
    ∃ l x, (l = 'e' ∨ l = 'E') ∧ s = exponentText l (some x) ∧ Counts (some x) e := by
  cases h with
  | @mk l sign s f ds hl hf hs => exact ⟨l, (sign, s), hl, rfl, f, ds, hf, hs, rfl⟩

theorem Optional.counts {s : Text} (h : Optional Exponent 0 s e) :
    ∃ l x, (l = 'e' ∨ l = 'E') ∧ s = exponentText l x ∧ Counts x e := by
  cases h with
  | absent => exact ⟨'e', none, Or.inl rfl, rfl, rfl⟩
  | present h =>
    obtain ⟨l, x, hl, hs, hx⟩ := h.counts
    exact ⟨l, some x, hl, hs, hx⟩

/-- The parts of a literal are digits, those of its exponent behind the letter `l`. -/
structure Parts (d : Decimal) (l : Char) (ws fs : List Nat) (e : Int) : Prop where
  letter : l = 'e' ∨ l = 'E'
  whole : Optional (Digits 10) [] d.whole ws
  fraction : Optional (Digits 10) [] (d.fraction.getD []) fs
  exponent : Counts d.exponent e

theorem Optional.tail {base : Nat} {s : Text} {ds : List Nat}
    (h : Optional (Digits base) [] s ds) : Tail base s ds := by
  cases h with
  | absent => exact .nil
  | present h => exact h.tail

theorem Optional.wellSeparated {base : Nat} {s : Text} {ds : List Nat}
    (h : Optional (Digits base) [] s ds) : wellSeparated base false s = true := by
  cases h with
  | absent => rfl
  | present h => exact h.wellSeparated

theorem Sign.mem {sign : Option Char} {f : Nat → Int} (h : Sign sign f) :
    ∀ s ∈ sign, s = '+' ∨ s = '-' := by
  cases h <;> simp

theorem Parts.wellFormed (h : Parts d l ws fs e) : d.WellFormed l := by
  refine ⟨h.letter, h.whole.tail.mem, ?_, ?_⟩
  · intro f hf
    have hmem := h.fraction.tail.mem
    rwa [hf] at hmem
  · intro x hx
    have hc := h.exponent
    rw [hx] at hc
    obtain ⟨f, ds, hf, hs, -⟩ := hc
    exact ⟨hf.mem, hs.tail.mem, hs.ne_nil⟩

/-- Letters and signs part the digits of a literal. -/
theorem wellSeparated_text (h : d.WellFormed l) :
    wellSeparated 10 false (d.text l) = (wellSeparated 10 false d.whole &&
      wellSeparated 10 false (d.fraction.getD []) &&
        wellSeparated 10 false ((d.exponent.map Prod.snd).getD [])) := by
  have hletter : isDigitOrSeparator 10 l = false := by
    rcases h.letter with rfl | rfl <;> decide
  have hexp : ∀ behind s, wellSeparated 10 behind (s ++ exponentText l d.exponent) =
      (wellSeparated 10 behind s &&
        wellSeparated 10 false ((d.exponent.map Prod.snd).getD [])) := by
    intro behind s
    cases hx : d.exponent with
    | none => simp [exponentText, wellSeparated]
    | some x =>
      obtain ⟨sign, digits⟩ := x
      rw [exponentText, wellSeparated_append_cons hletter]
      cases sign with
      | none => rfl
      | some c =>
        have hsign : isDigitOrSeparator 10 c = false := by
          rcases (h.exponent _ hx).1 c rfl with rfl | rfl <;> decide
        have hdigits := wellSeparated_append_cons hsign false [] digits
        simp only [List.nil_append] at hdigits
        simp [hdigits, wellSeparated]
  cases hf : d.fraction with
  | none =>
    rw [Decimal.text, hf, fractionText, List.nil_append, hexp]
    simp [wellSeparated]
  | some f =>
    rw [Decimal.text, hf, fractionText, List.cons_append, wellSeparated_append_cons (by decide),
      hexp, Option.getD_some, Bool.and_assoc]

theorem Parts.wellSeparated (h : Parts d l ws fs e) : wellSeparated 10 false (d.text l) = true := by
  rw [wellSeparated_text h.wellFormed, h.whole.wellSeparated, h.fraction.wellSeparated]
  cases hx : d.exponent with
  | none => rfl
  | some x =>
    have hc := h.exponent
    rw [hx] at hc
    obtain ⟨f, ds, -, hs, -⟩ := hc
    exact hs.wellSeparated

theorem Digits.hasDigit {s : Text} {ds : List Nat} (h : Digits 10 s ds) : hasDigit s = true := by
  cases h with
  | cons hd hs => simp [Lexeme.Number.hasDigit, hd.ne_separator]

theorem Parts.hasDigit (h : Parts d l ws fs e) :
    (d.exponent.any fun e => !hasDigit e.2) = false := by
  cases hx : d.exponent with
  | none => rfl
  | some x =>
    have hc := h.exponent
    rw [hx] at hc
    obtain ⟨f, ds, -, hs, -⟩ := hc
    simp [hs.hasDigit]

/-- With separators only where they may stand, the parts are digits. -/
theorem exists_parts (h : d.WellFormed l) (hs : wellSeparated 10 false (d.text l) = true) :
    ∃ ws fs e, Parts d l ws fs e := by
  rw [wellSeparated_text h, Bool.and_eq_true, Bool.and_eq_true] at hs
  obtain ⟨⟨hwhole, hfraction⟩, hexponent⟩ := hs
  obtain ⟨ws, -, hws⟩ := exists_digits h.whole hwhole
  have hmem : ∀ c ∈ d.fraction.getD [], isDigitOrSeparator 10 c = true := by
    cases hf : d.fraction with
    | none => simp
    | some f => exact h.fraction f hf
  obtain ⟨fs, -, hfs⟩ := exists_digits hmem hfraction
  have hcounts : ∃ e, Counts d.exponent e := by
    cases hd : d.exponent with
    | none => exact ⟨0, rfl⟩
    | some x =>
      obtain ⟨sign, digits⟩ := x
      obtain ⟨hsign, hdigits, hne⟩ := h.exponent _ hd
      rw [hd] at hexponent
      obtain ⟨ds, -, hds⟩ := exists_digits hdigits hexponent
      have hf : ∃ f, Sign sign f := by
        cases sign with
        | none => exact ⟨_, .none⟩
        | some c =>
          rcases hsign c rfl with rfl | rfl
          · exact ⟨_, .plus⟩
          · exact ⟨_, .minus⟩
      obtain ⟨f, hf⟩ := hf
      cases hds rfl with
      | absent => exact absurd rfl hne
      | present hds => exact ⟨_, f, ds, hf, hds, rfl⟩
  obtain ⟨e, he⟩ := hcounts
  exact ⟨ws, fs, e, h.letter, hws rfl, hfs rfl, he⟩

theorem Sign.apply {sign : Option Char} {f : Nat → Int} (h : Sign sign f) (n : Nat) :
    (if sign = some '-' then -(n : Int) else n) = f n := by
  cases h <;> simp

theorem Parts.exponentValue (h : Parts d l ws fs e) : d.exponentValue? = some e := by
  have hc := h.exponent
  unfold Decimal.exponentValue?
  split
  · rename_i hx
    rw [hx] at hc
    exact congrArg some (Eq.symm hc)
  · rename_i sign digits hx
    rw [hx] at hc
    obtain ⟨f, ds, hf, hs, rfl⟩ := hc
    simp [numberIn?_eq hs.tail.digits, hf.apply]

theorem Parts.mantissa (h : Parts d l ws fs e) :
    numberIn? 10 d.mantissa = some (valueIn 10 (ws ++ fs)) := by
  apply numberIn?_eq
  rw [Decimal.mantissa, withoutSeparators, List.filter_append]
  exact List.rel_append h.whole.tail.digits h.fraction.tail.digits

theorem scaled_eq (m places : Nat) (e : Int) :
    scaled m places e = (m : Rat) * 10 ^ (e - places) := by
  unfold scaled
  by_cases h : 0 ≤ e - places
  · obtain ⟨n, hn⟩ := Int.eq_ofNat_of_zero_le h
    simp only [if_pos h]
    rw [hn]
    simp [zpow_natCast]
  · obtain ⟨n, hn⟩ : ∃ n : Nat, e - places = -(n : Int) := ⟨(-(e - places)).toNat, by omega⟩
    simp only [if_neg h]
    rw [hn]
    simp [zpow_neg, Rat.mkRat_eq_div, div_eq_mul_inv]

/-- Only an exponent beyond the limit keeps a literal from having its value. -/
theorem Parts.value (h : Parts d l ws fs e) :
    d.value? = if e.natAbs ≤ exponentLimit then .ok (decimalValue ws fs e)
      else .error (refusal e) := by
  have hplaces := h.fraction.tail.digits.length_eq
  simp only [Decimal.value?, h.exponentValue, h.mantissa, scaled_eq, hplaces]
  rfl

end Parts

section Forms

open Lexeme.Number (Decimal fractionText exponentText)

variable {d : Decimal} {l : Char} {ws fs : List Nat} {e : Int}

theorem Optional.eq_nil {ds : List Nat} (h : Optional (Digits 10) [] [] ds) : ds = [] := by
  cases h with
  | absent => rfl
  | present h => exact absurd rfl h.ne_nil

theorem Optional.of_ne_nil {s : Text} {ds : List Nat} (h : Optional (Digits 10) [] s ds)
    (hs : s ≠ []) : Digits 10 s ds := by
  cases h with
  | absent => exact absurd rfl hs
  | present h => exact h

/-- Parts with a point or an exponent are a literal of one of three shapes. -/
theorem Parts.floating (h : Parts d l ws fs e) (hf : d.isFloat = true)
    (hne : d.whole ≠ [] ∨ d.fraction.getD [] ≠ []) : Floating (d.text l) ws fs e := by
  obtain ⟨w, f, x⟩ := d
  have hx : Optional Exponent 0 (exponentText l x) e := h.exponent.exponent h.letter
  have hwhole : Optional (Digits 10) [] w ws := h.whole
  have hfraction : Optional (Digits 10) [] (f.getD []) fs := h.fraction
  cases f with
  | some f =>
    by_cases hw : w = []
    · subst hw
      obtain rfl := hwhole.eq_nil
      exact .fraction (hfraction.of_ne_nil (by simpa using hne)) hx
    · exact .whole (hwhole.of_ne_nil hw) hfraction hx
  | none =>
    obtain rfl := hfraction.eq_nil
    cases x with
    | none => simp [Decimal.isFloat] at hf
    | some x =>
      cases hx with
      | present hx => exact .scaled (hwhole.of_ne_nil (by simpa using hne)) hx

theorem Floating.parts {s : Text} (h : Floating s ws fs e) :
    ∃ d l, Parts d l ws fs e ∧ d.isFloat = true ∧ s = d.text l := by
  cases h with
  | @whole w f _ _ _ _ hw hf hx =>
    obtain ⟨l, x, hl, rfl, hc⟩ := hx.counts
    exact ⟨⟨w, some f, x⟩, l, ⟨hl, .present hw, hf, hc⟩, rfl, rfl⟩
  | @scaled w _ _ _ hw hx =>
    obtain ⟨l, x, hl, rfl, hc⟩ := hx.counts
    exact ⟨⟨w, none, some x⟩, l, ⟨hl, .present hw, .absent, hc⟩, rfl, rfl⟩
  | @fraction f _ _ _ hf hx =>
    obtain ⟨l, x, hl, rfl, hc⟩ := hx.counts
    exact ⟨⟨[], some f, x⟩, l, ⟨hl, .absent, .present hf, hc⟩, rfl, rfl⟩

theorem Digits.parts {s : Text} (h : Digits 10 s ws) : Parts ⟨s, none, none⟩ 'e' ws [] 0 :=
  ⟨Or.inl rfl, .present h, .absent, rfl⟩

/-- A literal without point and exponent is its digits. -/
theorem Parts.integer (h : Parts d l ws fs e) (hf : d.isFloat = false)
    (hne : d.whole ≠ [] ∨ d.fraction.getD [] ≠ []) :
    ∃ w, d = ⟨w, none, none⟩ ∧ Digits 10 w ws := by
  obtain ⟨w, f, x⟩ := d
  cases f with
  | some f => cases hf
  | none =>
    cases x with
    | some x => cases hf
    | none => exact ⟨w, rfl, h.whole.of_ne_nil (by simpa using hne)⟩

theorem baseLetter_iff {c : Char} {form : LiteralForm} {base : Nat} :
    BaseLetter c form base ↔ baseOf? c = some (form, base) := by
  constructor
  · intro h
    cases h with
    | hex h => rcases h with rfl | rfl <;> rfl
    | binary h => rcases h with rfl | rfl <;> rfl
    | octal h => rcases h with rfl | rfl <;> rfl
  · intro h
    unfold baseOf? at h
    split at h
    · cases h
      exact .hex ‹_›
    split at h
    · cases h
      exact .binary ‹_›
    split at h
    · cases h
      exact .octal ‹_›
    · cases h

end Forms

end Numeral
end GoSyntax
