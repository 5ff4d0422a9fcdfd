import GoSyntax.Proofs.Numerals

/-! The exponents of literals. A literal is read just if its exponent is within the limit, however
the exponent is written. The least signed word escapes the refusal of the others, as its magnitude
overflows before it is compared. -/
namespace GoSyntax

namespace Lexeme.Number

/-- A literal with a point or an exponent opens the text, and all that is left to find is its value:
there is no letter of a base, the exponent has digits, and the separators are in place. -/
structure Scales (cs : Text) : Prop where
  opens : Numeral.Opens cs
  letter : ∀ c rest, cs = '0' :: c :: rest → baseOf? c = none
  isFloat : (Decimal.ofText cs).isFloat = true
  exponent : ∀ x, (Decimal.ofText cs).exponent = some x → hasDigit x.2 = true
  separated : wellSeparated 10 false (cs.take (Decimal.ofText cs).size) = true

variable {cs : Text}

theorem Scales.read_eq_plain (h : Scales cs) : read cs = plain cs := by
  rw [Number.read_eq]
  split
  · rw [h.letter _ _ rfl]
  · rfl

open Numeral in
/-- The literal that opens the text is one of the grammar, and its exponent decides what is read. -/
theorem Scales.read_eq (h : Scales cs) :
    ∃ w s rest ws fs e, cs = w ++ s ++ rest ∧ (s = [] ∨ s = ['i']) ∧ Floating w ws fs e ∧
      read cs =
        if e.natAbs ≤ exponentLimit then
          if s = [] then
            .done w.length (.token (.literal .float) (some (.float (decimalValue ws fs e))))
          else .done (w.length + s.length)
            (.token (.literal .imaginary) (some (.imaginary (decimalValue ws fs e))))
        else .fail (w.length + s.length) ⟨.start, refusal e⟩ := by
  obtain ⟨c, cs, rfl, ho⟩ := h.opens.exists_cons
  have hdigits : ∀ x, (Decimal.ofText (c :: cs)).exponent = some x → x.2 ≠ [] := by
    intro x hx hnil
    have hdigit := h.exponent x hx
    rw [hnil] at hdigit
    cases hdigit
  obtain ⟨l, tail, hwf, htext⟩ := ofText_text hdigits
  obtain ⟨s, rest, rfl, hlen, hs⟩ := suffix_split tail
  have hsep := h.separated
  have hfloat := h.isFloat
  have hne := whole_or_fraction ho
  generalize hd : Decimal.ofText (c :: cs) = d at hwf htext hsep hfloat hne
  rw [htext, ← length_text d l, List.take_left] at hsep
  obtain ⟨ws, fs, e, hp⟩ := exists_parts hwf hsep
  refine ⟨d.text l, s, rest, ws, fs, e, by rw [htext, List.append_assoc], hs,
    hp.floating hfloat hne, ?_⟩
  rw [h.read_eq_plain, htext, hp.plain_eq (htext ▸ hd), outcome_float hfloat, hp.value, ← hlen,
    length_text]
  by_cases he : e.natAbs ≤ exponentLimit
  · rw [if_pos he, if_pos he]
    rcases hs with rfl | rfl <;> rfl
  · rw [if_neg he, if_neg he]
    rcases hs with rfl | rfl <;> rfl

theorem wordLimit_eq : (wordLimit : Int) = 2 ^ 63 := by
  norm_num [wordLimit]

/-- Of the signed words only the least has a magnitude that is none. -/
theorem isWord_natAbs {e : Int} (h : isWord e = true) :
    isWord e.natAbs = true ↔ e ≠ -wordLimit := by
  have hword := isWord_iff.1 h
  rw [isWord_iff]
  omega

/-- Behind fewer digits than a word can count, a small exponent leaves a word. -/
theorem isWord_scale {e : Int} {places : Nat} (he : e.natAbs ≤ exponentLimit)
    (hp : places + exponentLimit ≤ wordLimit) : isWord (e - places) = true := by
  have hlimit : exponentLimit < wordLimit := by decide
  rw [isWord_iff]
  omega

end Lexeme.Number

namespace Lexer

variable {x : Lexer}

/-- Where no flaw of the source is in the way, what is read of the text decides the step. -/
theorem outcome_of_clear (hq : x.queued = none) (hc : x.Clear) :
    x.next.outcome =
      match x.reading.result with
      | .ok m => (x.filled.produce (x.text ++ x.blanks) x.lexeme x.start.mark m).outcome
      | .error flaw => .error ⟨x.flawPos flaw.place, flaw.cause⟩ := by
  have hscan : x.next = x.scan := by
    unfold next
    rw [hq]
  rw [hscan, scan_eq hc.1, readLexeme_eq hc.2]
  cases x.reading.result with
  | ok m => rfl
  | error flaw => rfl

open Lexeme.Number Numeral in
/-- A literal with a point or an exponent is handed out with its value if the exponent is within the
limit, and is refused otherwise. -/
theorem exists_exponent (hq : x.queued = none) (h : Scales x.cursor.ahead)
    (hend : x.cursor.breaks = [] ∨ x.reading.size < x.cursor.ahead.length) :
    ∃ w s ws fs e, x.lexeme = w ++ s ∧ (s = [] ∨ s = ['i']) ∧ Floating w ws fs e ∧
      (e.natAbs ≤ exponentLimit → ∃ t, x.next.outcome = .ok t ∧ t.text = w ++ s ∧
        t.value = some (if s = [] then .float (decimalValue ws fs e)
          else .imaginary (decimalValue ws fs e))) ∧
      (¬e.natAbs ≤ exponentLimit →
        x.next.outcome = .error ⟨x.cursor.pos, refusal e⟩) := by
  obtain ⟨w, s, rest, ws, fs, e, hahead, hs, hfloat, hread⟩ := h.read_eq
  obtain ⟨hstart, hreading⟩ := reading_of_opens h.opens
  have hout := outcome_of_clear hq (clear_of_opens h.opens hend)
  rw [← hreading] at hread
  have hsize : x.reading.size = (w ++ s).length := by
    rw [hread, List.length_append]
    by_cases he : e.natAbs ≤ exponentLimit
    · rw [if_pos he]
      rcases hs with rfl | rfl <;> rfl
    · rw [if_neg he]
      rfl
  have hlexeme : x.lexeme = w ++ s := by
    rw [lexeme, hstart, hsize, hahead, List.take_left]
  refine ⟨w, s, ws, fs, e, hlexeme, hs, hfloat, fun he => ?_, fun he => ?_⟩
  · rw [hout, hread, if_pos he]
    rcases hs with rfl | rfl <;> exact ⟨_, rfl, hlexeme, rfl⟩
  · rw [hout, hread, if_neg he, ← hstart]
    rfl

end Lexer

open Lexeme.Number Numeral in
/-- A literal with a point or an exponent is read just if the exponent that it spells is within the
limit, and then has its exact value. Any other exponent is refused as too large, but for the least
signed word: its magnitude is computed first, and overflows. No other step in signed words
overflows, if there are no more digits behind the point than a word can count. -/
theorem exponents_bounded {x : Lexer} (hq : x.queued = none) (h : Scales x.cursor.ahead)
    (hend : x.cursor.breaks = [] ∨ x.reading.size < x.cursor.ahead.length) :
    ∃ w s ws fs e, x.lexeme = w ++ s ∧ (s = [] ∨ s = ['i']) ∧ Floating w ws fs e ∧
      ((∃ t, x.next.outcome = .ok t) ↔ e.natAbs ≤ 100000) ∧
      (∀ t, x.next.outcome = .ok t → t.text = w ++ s ∧
        t.value = some (if s = [] then .float (decimalValue ws fs e)
          else .imaginary (decimalValue ws fs e))) ∧
      (100000 < e.natAbs → e ≠ -2 ^ 63 →
        x.next.outcome =
          .error ⟨x.cursor.pos, .lexical (.invalidNumber .exponentTooLarge)⟩) ∧
      (e = -2 ^ 63 →
        x.next.outcome = .error ⟨x.cursor.pos, .crash .overflow⟩) ∧
      (isWord e = true → (isWord e.natAbs = true ↔ e ≠ -2 ^ 63)) ∧
      (e.natAbs ≤ 100000 → fs.length + 100000 ≤ 2 ^ 63 → isWord (e - fs.length) = true) := by
  obtain ⟨w, s, ws, fs, e, hlexeme, hs, hfloat, haccept, hrefuse⟩ := Lexer.exists_exponent hq h hend
  have hlimit : exponentLimit = 100000 := rfl
  have hword := wordLimit_eq
  rw [hlimit] at haccept hrefuse
  refine ⟨w, s, ws, fs, e, hlexeme, hs, hfloat, ⟨?_, ?_⟩, ?_, ?_, ?_, ?_, ?_⟩
  · rintro ⟨t, ht⟩
    by_contra he
    rw [hrefuse he] at ht
    cases ht
  · intro he
    obtain ⟨t, ht, -⟩ := haccept he
    exact ⟨t, ht⟩
  · intro t ht
    by_cases he : e.natAbs ≤ 100000
    · obtain ⟨u, hu, htext⟩ := haccept he
      rw [hu] at ht
      cases ht
      exact htext
    · rw [hrefuse he] at ht
      cases ht
  · intro he hne
    rw [hrefuse (Nat.not_le.2 he), refusal, if_neg (by omega)]
  · intro he
    rw [hrefuse (by omega), refusal, if_pos (by omega)]
  · intro h
    rw [isWord_natAbs h, hword]
  · intro he hp
    exact isWord_scale he (by omega)

open Lexeme.Number in
/-- Zeros before its digits and a separator leave an exponent as small as it is. -/
theorem exponents_bounded_zeros :
    let x : Lexer := ⟨⟨".5e-0000000000000000000001_00000i".toList, [], .origin "t.go"⟩, false, none,
      [], 0, false⟩
    Scales x.cursor.ahead ∧ ∃ t w s ws fs e, x.next.outcome = .ok t ∧ t.text = w ++ s ∧
      Numeral.Floating w ws fs e ∧ e.natAbs ≤ 100000 := by
  intro x
  have hfive : Numeral.DigitOf 10 '5' 5 := ⟨by decide, Or.inl rfl⟩
  have hscales : Scales x.cursor.ahead := by
    refine ⟨.point hfive, ?_, by rfl, ?_, by rfl⟩
    · rintro c rest ⟨⟩
    · rintro _ ⟨⟩
      rfl
  obtain ⟨t, ht⟩ : ∃ t, x.next.outcome = .ok t := ⟨_, rfl⟩
  obtain ⟨w, s, ws, fs, e, -, -, hfloat, haccept, htext, -⟩ :=
    exponents_bounded (x := x) rfl hscales (Or.inl rfl)
  exact ⟨hscales, t, w, s, ws, fs, e, ht, (htext t ht).1, hfloat, haccept.1 ⟨t, ht⟩⟩

namespace Numeral

theorem digitOf_digitChar {d : Nat} (h : d < 10) : DigitOf 10 (Nat.digitChar d) d := by
  interval_cases d <;> exact ⟨by decide, Or.inl rfl⟩

theorem tail_digitChar {ds : List Nat} (h : ∀ d ∈ ds, d < 10) :
    Tail 10 (ds.map Nat.digitChar) ds := by
  induction ds with
  | nil => exact .nil
  | cons d ds ih =>
    obtain ⟨hd, hds⟩ := List.forall_mem_cons.1 h
    exact .digit (digitOf_digitChar hd) (ih hds)

theorem floating_least : Floating "1e-9223372036854775808".toList [1] [] (-2 ^ 63) := by
  have hone : DigitOf 10 '1' 1 := ⟨by decide, Or.inl rfl⟩
  have hnine : DigitOf 10 '9' 9 := ⟨by decide, Or.inl rfl⟩
  have hdigits : Digits 10 _ (9 :: [2, 2, 3, 3, 7, 2, 0, 3, 6, 8, 5, 4, 7, 7, 5, 8, 0, 8]) :=
    .cons hnine (tail_digitChar (by decide))
  have hvalue : (valueIn 10 [9, 2, 2, 3, 3, 7, 2, 0, 3, 6, 8, 5, 4, 7, 7, 5, 8, 0, 8] : Int) =
      2 ^ 63 := by
    norm_num [valueIn, Nat.ofDigits]
  have hx := Exponent.mk (Or.inl rfl) .minus hdigits
  rw [hvalue] at hx
  exact .scaled (.cons hone .nil) hx

end Numeral

/-- The least signed word is an exponent beyond the limit, and is not refused as too large. -/
theorem exponents_bounded_fails :
    ∃ x w ws fs e, Lexer.ofText "t.go" w = .ok x ∧ Numeral.Floating w ws fs e ∧
      100000 < e.natAbs ∧ x.next.outcome ≠
        .error ⟨x.cursor.pos, .lexical (.invalidNumber .exponentTooLarge)⟩ := by
  obtain ⟨x, hx, hout⟩ : ∃ x, Lexer.ofText "t.go" "1e-9223372036854775808".toList = .ok x ∧
      x.next.outcome = .error ⟨x.cursor.pos, .crash .overflow⟩ :=
    ⟨_, rfl, rfl⟩
  refine ⟨x, _, [1], [], -2 ^ 63, hx, Numeral.floating_least, by decide, ?_⟩
  rw [hout]
  simp

end GoSyntax
