import Mathlib.Tactic.NormNum
import GoSyntax.Proofs.Lexeme.Numeral
import GoSyntax.Proofs.Lexer.Run

/-! Numeric literals are read exactly: what is read is a literal of the grammar with its own form and
value, and every literal whose exponent is within the limit is read. -/
namespace GoSyntax
namespace Numeral

section Sound

open Lexeme Lexeme.Number

variable {d : Decimal} {l : Char} {ws fs : List Nat} {e : Int} {m : Meaning}

theorem integer?_of_tail {base : Nat} {s : Text} {ds : List Nat} (h : Tail base s ds)
    (hb : 0 < base) : integer? base (withoutSeparators s) = .ok (valueIn base ds) := by
  obtain ⟨n, hn, hint⟩ := integer?_of_digits (mem_withoutSeparators h.mem) hb
  rw [numberIn?_eq h.digits] at hn
  rw [hint, ← Option.some.inj hn]

theorem BaseLetter.pos {c : Char} {form : LiteralForm} {base : Nat} (h : BaseLetter c form base) :
    0 < base := by
  cases h <;> decide

/-- What the parts of a literal give once its separators are known to be in place: `i` is the size
of its suffix and `first` its first character. -/
def outcome (d : Decimal) (i : Nat) (first : Option Char) : Reading Meaning :=
  let digits := withoutSeparators d.whole
  if d.isFloat then
    if i = 0 then close d.size .float (d.value?.map .float)
    else close (d.size + i) .imaginary (d.value?.map .imaginary)
  else if i ≠ 0 then
    close (d.size + i) .imaginary ((integer? 10 digits).map fun n : Nat => .imaginary (.ofInt n))
  else if first = some '0' then
    if digits.all (isDigitIn 8) then close d.size .octalInteger ((integer? 8 digits).map .int)
    else flawed d.size (.invalidDigit 8)
  else close d.size .decimalInteger ((integer? 10 digits).map .int)

theorem Parts.plain_eq {rest : Text} (h : Parts d l ws fs e)
    (hd : Decimal.ofText (d.text l ++ rest) = d) :
    plain (d.text l ++ rest) = outcome d (suffix rest) (d.text l ++ rest).head? := by
  have hlen := length_text d l
  have htake : (d.text l ++ rest).take d.size = d.text l := by rw [← hlen, List.take_left]
  have hdrop : (d.text l ++ rest).drop d.size = rest := by rw [← hlen, List.drop_left]
  simp only [Number.plain, hd, h.hasDigit, htake, hdrop, h.wellSeparated]
  rfl

theorem outcome_float (hf : d.isFloat = true) (i : Nat) (first : Option Char) :
    outcome d i first = if i = 0 then close d.size .float (d.value?.map .float)
      else close (d.size + i) .imaginary (d.value?.map .imaginary) := by
  simp only [outcome, if_pos hf]

/-- Without point and exponent, the first digit and the suffix tell the base. -/
theorem outcome_integer {w : Text} (h : Digits 10 w ws) (i : Nat) :
    outcome ⟨w, none, none⟩ i w.head? =
      if i ≠ 0 then
        .done (w.length + i) (.token (.literal .imaginary) (some (.imaginary (valueIn 10 ws))))
      else if w.head? = some '0' then
        if (withoutSeparators w).all (isDigitIn 8) then
          close w.length .octalInteger ((integer? 8 (withoutSeparators w)).map .int)
        else flawed w.length (.invalidDigit 8)
      else .done w.length (.token (.literal .decimalInteger) (some (.int (valueIn 10 ws)))) := by
  simp only [outcome, Decimal.isFloat, integer?_of_tail h.tail (by decide)]
  rfl

theorem wellSeparated_of_plain {cs : Text} (h : (Number.plain cs).result = .ok m) :
    wellSeparated 10 false (cs.take (Decimal.ofText cs).size) = true := by
  simp only [Number.plain] at h
  split at h
  · cases h
  split at h
  · cases h
  · rename_i hs
    simpa using hs

theorem whole_or_fraction {c : Char} {cs : Text} (h : opens c cs) :
    (Decimal.ofText (c :: cs)).whole ≠ [] ∨ (Decimal.ofText (c :: cs)).fraction.getD [] ≠ [] := by
  rw [ofText_eq]
  rcases h with h | ⟨rfl, h⟩
  · refine Or.inl ?_
    simp [digitRun, isDigitOrSeparator, h]
  · refine Or.inr ?_
    obtain ⟨a, ha, hdigit⟩ := (Option.any_eq_true _ _).1 h
    obtain ⟨cs, rfl⟩ := List.head?_eq_some_iff.1 ha
    have hrun : digitRun 10 ('.' :: a :: cs) = [] := by
      rw [digitRun, List.takeWhile_cons_of_neg (by decide)]
    simp only [hrun, List.length_nil, List.drop_zero, Decimal.splitFraction, Option.getD_some]
    simp [digitRun, isDigitOrSeparator, hdigit]

/-- Digits that open with a zero and are all octal. -/
theorem Digits.octal {s : Text} {ds : List Nat} (h : Digits 10 s ds) (h₀ : s.head? = some '0')
    (h₈ : (withoutSeparators s).all (isDigitIn 8) = true) :
    ∃ t es, s = '0' :: t ∧ Tail 8 t es ∧ integer? 8 (withoutSeparators s) = .ok (valueIn 8 es) := by
  cases h with
  | @cons c d t ds hd ht =>
    obtain rfl : c = '0' := Option.some.inj h₀
    have hmem : ∀ a ∈ t, isDigitOrSeparator 8 a = true := by
      intro a ha
      by_cases hsep : a = '_'
      · simp [isDigitOrSeparator, hsep]
      · have hin : a ∈ withoutSeparators ('0' :: t) :=
          List.mem_filter.2 ⟨List.mem_cons_of_mem _ ha, by simpa using hsep⟩
        simp [isDigitOrSeparator, List.all_eq_true.1 h₈ a hin]
    obtain ⟨es, hes, -⟩ := exists_digits hmem ht.wellSeparated
    have hzero : DigitOf 8 '0' 0 := ⟨by decide, Or.inl rfl⟩
    refine ⟨t, es, rfl, hes, ?_⟩
    rw [integer?_of_tail (.digit hzero hes) (by decide), valueIn_cons, Nat.mul_zero, Nat.zero_add]

theorem Digits.decimal {s : Text} {ds : List Nat} (h : Digits 10 s ds) (h₀ : s.head? ≠ some '0') :
    Numeral .decimalInteger s (.int (valueIn 10 ds)) 0 := by
  cases h with
  | cons hd hs =>
    refine .decimal hd ?_ hs
    rintro rfl
    rcases hd.2 with hc | hc
    · exact h₀ hc.symm
    · exact h₀ hc.symm

theorem close_ok {n : Nat} {form : LiteralForm} {v : Except Cause Value}
    (h : (close n form v).result = .ok m) :
    ∃ w, v = .ok w ∧ m = .token (.literal form) (some w) := by
  cases v with
  | ok w => exact ⟨w, rfl, (Except.ok.inj h).symm⟩
  | error cause => cases h

/-- The text is a literal of an exponent within the limit, and this is what it means. -/
def Denotes (s : Text) (m : Meaning) : Prop :=
  ∃ form v e, Numeral form s v e ∧ e.natAbs ≤ exponentLimit ∧ m = .token (.literal form) (some v)

theorem map_ok {α β : Type} {x : Except Cause α} {f : α → β} {b : β} (h : x.map f = .ok b) :
    ∃ a, x = .ok a ∧ f a = b := by
  cases x with
  | ok a => exact ⟨a, rfl, Except.ok.inj h⟩
  | error cause => cases h

theorem Parts.value_ok {q : Rat} (h : Parts d l ws fs e) (hq : d.value? = .ok q) :
    e.natAbs ≤ exponentLimit ∧ q = decimalValue ws fs e := by
  rw [h.value] at hq
  split at hq
  · exact ⟨‹_›, (Except.ok.inj hq).symm⟩
  · cases hq

theorem Parts.denotes_float {s : Text} (h : Parts d l ws fs e) (hf : d.isFloat = true)
    (hne : d.whole ≠ [] ∨ d.fraction.getD [] ≠ []) (hs : s = [] ∨ s = ['i'])
    (hm : (outcome d s.length (d.text l).head?).result = .ok m) : Denotes (d.text l ++ s) m := by
  have hfloat := h.floating hf hne
  rw [outcome_float hf] at hm
  rcases hs with rfl | rfl
  · obtain ⟨w, hw, rfl⟩ := close_ok hm
    obtain ⟨q, hq, rfl⟩ := map_ok hw
    obtain ⟨he, rfl⟩ := h.value_ok hq
    rw [List.append_nil]
    exact ⟨_, _, e, .float hfloat, he, rfl⟩
  · obtain ⟨w, hw, rfl⟩ := close_ok hm
    obtain ⟨q, hq, rfl⟩ := map_ok hw
    obtain ⟨he, rfl⟩ := h.value_ok hq
    exact ⟨_, _, e, .imaginaryFloat hfloat, he, rfl⟩

theorem Digits.denotes {w s : Text} (h : Digits 10 w ws) (hs : s = [] ∨ s = ['i'])
    (hm : (outcome ⟨w, none, none⟩ s.length w.head?).result = .ok m) : Denotes (w ++ s) m := by
  rw [outcome_integer h] at hm
  rcases hs with rfl | rfl
  · rw [if_neg (by simp)] at hm
    rw [List.append_nil]
    split at hm
    · rename_i h₀
      split at hm
      · rename_i h₈
        obtain ⟨t, es, rfl, hes, hint⟩ := h.octal h₀ h₈
        rw [hint] at hm
        obtain rfl := Except.ok.inj hm
        exact ⟨_, _, 0, .octal hes, by decide, rfl⟩
      · cases hm
    · rename_i h₀
      obtain rfl := Except.ok.inj hm
      exact ⟨_, _, 0, h.decimal h₀, by decide, rfl⟩
  · rw [if_pos (by simp)] at hm
    obtain rfl := Except.ok.inj hm
    exact ⟨_, _, 0, .imaginary h, by decide, rfl⟩

theorem head?_text (h : d.text l ≠ []) (t : Text) : (d.text l ++ t).head? = (d.text l).head? := by
  obtain ⟨a, u, hu⟩ := List.exists_cons_of_ne_nil h
  rw [hu]
  rfl

theorem denotes_plain {c : Char} {cs : Text} (ho : opens c cs)
    (h : (Number.plain (c :: cs)).result = .ok m) :
    Denotes ((c :: cs).take (Number.plain (c :: cs)).size) m := by
  obtain ⟨l, tail, hwf, htext⟩ := ofText_text (exponent_ne_nil h)
  have hsize := size_plain_eq h
  have hsep := wellSeparated_of_plain h
  have hne := whole_or_fraction ho
  generalize hd : Decimal.ofText (c :: cs) = d at hwf htext hsize hsep hne
  obtain ⟨s, rest, rfl, hslen, hs⟩ := suffix_split tail
  rw [htext] at hd h hsize hsep ⊢
  rw [← length_text d l, List.take_left] at hsep
  rw [← length_text d l, List.drop_left, ← hslen, ← List.length_append] at hsize
  rw [hsize, ← List.append_assoc, List.take_left]
  obtain ⟨ws, fs, e, hp⟩ := exists_parts hwf hsep
  have hnil : d.text l ≠ [] := by
    rw [← List.length_pos_iff, length_text, ← hd, ← htext]
    exact size_ofText_pos ho
  rw [hp.plain_eq hd, ← hslen, head?_text hnil] at h
  by_cases hf : d.isFloat = true
  · exact hp.denotes_float hf hne hs h
  · obtain ⟨w, rfl, hw⟩ := hp.integer (by simpa using hf) hne
    rw [text_integer] at h ⊢
    exact hw.denotes hs h

theorem denotes_prefixed {c : Char} {form : LiteralForm} {base : Nat} {cs : Text}
    (hc : BaseLetter c form base) (h : (prefixed form base cs).result = .ok m) :
    Denotes (('0' :: c :: cs).take (prefixed form base cs).size) m := by
  have hsize := size_prefixed_eq h
  have hsplit := digitRun_drop (max base 10) cs
  generalize hdr : digitRun (max base 10) cs = digits at hsize hsplit
  obtain ⟨s, rest, hrest, hslen, hs⟩ := suffix_split (cs.drop digits.length)
  have htake : ('0' :: c :: cs).take (prefixed form base cs).size = '0' :: c :: digits ++ s := by
    have hcs : '0' :: c :: cs = ('0' :: c :: digits ++ s) ++ rest := by
      rw [← hsplit, hrest]
      simp
    have hlen : 2 + digits.length + s.length = ('0' :: c :: digits ++ s).length := by
      simp
      omega
    rw [hsize, ← hslen, hcs, hlen, List.take_left]
  rw [htake]
  simp only [prefixed, hdr, ← hslen] at h
  split at h
  · cases h
  split at h
  · cases h
  split at h
  · cases h
  rename_i hhas hall hsep
  have hmem : ∀ a ∈ digits, isDigitOrSeparator base a = true := by simpa using hall
  obtain ⟨ds, hds, -⟩ := exists_digits hmem (by simpa using hsep)
  have hne : digits ≠ [] := by
    rintro rfl
    simp [hasDigit] at hhas
  rw [integer?_of_tail hds hc.pos] at h
  rcases hs with rfl | rfl
  · obtain ⟨w, hw, rfl⟩ := close_ok h
    obtain rfl : Value.int (valueIn base ds) = w := Except.ok.inj hw
    rw [List.append_nil]
    exact ⟨_, _, 0, .based (.mk hc hds hne), by decide, rfl⟩
  · obtain ⟨w, hw, rfl⟩ := close_ok h
    obtain rfl : Value.imaginary (Rat.ofInt (valueIn base ds)) = w := Except.ok.inj hw
    exact ⟨_, _, 0, .imaginaryBased (.mk hc hds hne), by decide, rfl⟩

/-- What is read as a literal is one, with its own form and value. -/
theorem denotes_read {c : Char} {cs : Text} (ho : opens c cs)
    (h : (Number.read (c :: cs)).result = .ok m) :
    Denotes ((c :: cs).take (Number.read (c :: cs)).size) m := by
  by_cases hc : c = '0'
  · subst hc
    cases cs with
    | nil => exact denotes_plain ho h
    | cons a cs =>
      simp only [Number.read_eq] at h ⊢
      cases hb : baseOf? a with
      | some fb =>
        simp only [hb] at h ⊢
        exact denotes_prefixed (baseLetter_iff.2 hb) h
      | none =>
        simp only [hb] at h ⊢
        exact denotes_plain ho h
  · rw [read_of_ne_zero hc] at h ⊢
    exact denotes_plain ho h

end Sound

section Complete

open Lexeme Lexeme.Number

variable {d : Decimal} {l : Char} {ws fs : List Nat} {e : Int} {s rest : Text}

/-- The character is neither letter nor digit of ASCII, nor separator, nor point. -/
def Follows (c : Char) : Prop := c.isAlphanum = false ∧ c ≠ '_' ∧ c ≠ '.'

theorem Follows.not_digit {c : Char} (h : Follows c) (base : Nat) :
    isDigitOrSeparator base c = false := by
  rw [isDigitOrSeparator, Bool.or_eq_false_iff, beq_eq_false_iff_ne]
  refine ⟨?_, h.2.1⟩
  cases hd : isDigitIn base c with
  | false => rfl
  | true =>
    have hr := digit_range hd
    have halpha : c.isAlphanum = true := isAlphanum_of_range (by omega)
    rw [h.1] at halpha
    cases halpha

theorem Follows.ne {c a : Char} (h : Follows c) (ha : a.isAlphanum = true) : c ≠ a := by
  rintro rfl
  rw [h.1] at ha
  cases ha

theorem Follows.ends {c : Char} (h : Follows c) : Ends c :=
  ⟨h.not_digit 10, h.2.2, h.ne (by decide), h.ne (by decide)⟩

theorem Follows.baseOf?_eq {c : Char} (h : Follows c) : baseOf? c = none := by
  simp [Number.baseOf?, h.ne (a := 'x') (by decide), h.ne (a := 'X') (by decide),
    h.ne (a := 'b') (by decide), h.ne (a := 'B') (by decide), h.ne (a := 'o') (by decide),
    h.ne (a := 'O') (by decide)]

/-- No letter of a base stands in the parts of a literal without one. -/
theorem baseOf?_of_mem (h : d.WellFormed l) : ∀ c ∈ d.text l, Number.baseOf? c = none := by
  intro c hc
  rcases mem_text h c hc with hc | hc
  · have hne : ∀ a, isDigitOrSeparator 10 a = false → c ≠ a := by
      rintro a ha rfl
      rw [hc] at ha
      cases ha
    simp [Number.baseOf?, hne 'x' (by decide), hne 'X' (by decide), hne 'b' (by decide),
      hne 'B' (by decide), hne 'o' (by decide), hne 'O' (by decide)]
  · simp only [List.mem_cons, List.not_mem_nil, or_false] at hc
    rcases hc with rfl | rfl | rfl | rfl | rfl <;> rfl

/-- Parts that are all digits are read as such. -/
theorem Parts.read_eq (h : Parts d l ws fs e) (hne : d.text l ≠ []) (hs : s = [] ∨ s = ['i'])
    (hr : ∀ c ∈ rest.head?, Follows c) :
    Number.read (d.text l ++ s ++ rest) = outcome d s.length (d.text l).head? := by
  have hof := ofText_append h.wellFormed (ends_suffix hs fun c hc => (hr c hc).ends)
  have hplain := h.plain_eq hof
  have hsuffix : suffix (s ++ rest) = s.length :=
    suffix_append hs fun hi => (hr 'i' hi).ne (by decide) rfl
  obtain ⟨a, t, ht⟩ := List.exists_cons_of_ne_nil hne
  have hbase : ∀ b ∈ (t ++ (s ++ rest)).head?, Number.baseOf? b = none := by
    intro b hb
    cases t with
    | cons b' t =>
      obtain rfl : b' = b := Option.some.inj hb
      exact baseOf?_of_mem h.wellFormed b' (by simp [ht])
    | nil =>
      rcases hs with rfl | rfl
      · exact (hr b hb).baseOf?_eq
      · obtain rfl : 'i' = b := Option.some.inj hb
        rfl
  rw [hsuffix, head?_text hne, ht, List.cons_append] at hplain
  rw [ht, List.append_assoc, List.cons_append, read_eq_plain hbase, hplain]

theorem Prefixed.read_eq {form : LiteralForm} {w : Text} {n : Nat} (h : Prefixed form w n)
    (hs : s = [] ∨ s = ['i']) (hr : ∀ c ∈ rest.head?, Follows c) :
    Number.read (w ++ s ++ rest) =
      if s.length = 0 then .done w.length (.token (.literal form) (some (.int n)))
      else .done (w.length + s.length) (.token (.literal .imaginary) (some (.imaginary n))) := by
  cases h with
  | @mk c _ base digits ds hc hds hne =>
    have hmono := hds.mono (Nat.le_max_left base 10)
    have hhead : ∀ a ∈ (s ++ rest).head?, isDigitOrSeparator (max base 10) a = false := by
      rcases hs with rfl | rfl
      · exact fun a ha => (hr a ha).not_digit _
      · rintro _ ⟨⟩
        cases hc <;> decide
    have hrun : digitRun (max base 10) (digits ++ (s ++ rest)) = digits :=
      digitRun_append hmono.mem hhead
    have hhas : hasDigit digits = true := by
      cases hds with
      | nil => exact absurd rfl hne
      | digit hd _ => simp [hasDigit, hd.ne_separator]
      | separated hd _ => simp [hasDigit, hd.ne_separator]
    have hall : digits.all (isDigitOrSeparator base) = true := List.all_eq_true.2 hds.mem
    have hsuffix : suffix (s ++ rest) = s.length :=
      suffix_append hs fun hi => (hr 'i' hi).ne (by decide) rfl
    have hread : Number.read ('0' :: c :: digits ++ s ++ rest) =
        prefixed form base (digits ++ (s ++ rest)) := by
      simp only [List.cons_append, List.append_assoc, Number.read_eq, baseLetter_iff.1 hc]
    rw [hread]
    simp only [prefixed, hrun, hhas, hall, List.drop_left, hsuffix, hmono.wellSeparated,
      integer?_of_tail hds hc.pos]
    rcases hs with rfl | rfl
    · simp [close, settle, Except.map, Except.mapError, Reading.done]
      omega
    · simp [close, settle, Except.map, Except.mapError, Reading.done]
      omega

theorem Digits.read_eq {w : Text} (h : Digits 10 w ws) (hs : s = [] ∨ s = ['i'])
    (hr : ∀ c ∈ rest.head?, Follows c) :
    Number.read (w ++ s ++ rest) = outcome ⟨w, none, none⟩ s.length w.head? := by
  have hread := h.parts.read_eq ((text_integer w 'e').symm ▸ h.ne_nil) hs hr
  rwa [text_integer] at hread

theorem Tail.octal {ds : List Nat} (h : Tail 8 s ds) :
    Digits 10 ('0' :: s) (0 :: ds) ∧ (withoutSeparators ('0' :: s)).all (isDigitIn 8) = true ∧
      integer? 8 (withoutSeparators ('0' :: s)) = .ok (valueIn 8 ds) := by
  have hzero : DigitOf 8 '0' 0 := ⟨by decide, Or.inl rfl⟩
  have htail : Tail 8 ('0' :: s) (0 :: ds) := .digit hzero h
  refine ⟨.cons (hzero.mono (by decide)) (h.mono (by decide)), ?_, ?_⟩
  · exact List.all_eq_true.2 (mem_withoutSeparators htail.mem)
  · rw [integer?_of_tail htail (by decide), valueIn_cons, Nat.mul_zero, Nat.zero_add]

theorem Floating.read_eq {w : Text} (h : Floating w ws fs e) (he : e.natAbs ≤ exponentLimit)
    (hs : s = [] ∨ s = ['i']) (hr : ∀ c ∈ rest.head?, Follows c) :
    Number.read (w ++ s ++ rest) =
      if s.length = 0 then
        .done w.length (.token (.literal .float) (some (.float (decimalValue ws fs e))))
      else .done (w.length + s.length)
        (.token (.literal .imaginary) (some (.imaginary (decimalValue ws fs e)))) := by
  obtain ⟨d, l, hp, hf, rfl⟩ := h.parts
  have hne : d.text l ≠ [] := by
    intro hnil
    have hlen := congrArg List.length hnil
    rw [length_text] at hlen
    cases hfr : d.fraction <;> cases hx : d.exponent <;>
      simp [Decimal.isFloat, Decimal.size, hfr, hx] at hf hlen
  rw [hp.read_eq hne hs hr, outcome_float hf, hp.value, if_pos he, length_text]
  rfl

/-- A literal within the limit is read where nothing follows that could go on with it. -/
theorem read_eq {form : LiteralForm} {w : Text} {v : Value} (h : Numeral form w v e)
    (he : e.natAbs ≤ exponentLimit) (hr : ∀ c ∈ rest.head?, Follows c) :
    Number.read (w ++ rest) = .done w.length (.token (.literal form) (some v)) := by
  cases h with
  | @decimal c d s ds hd hne hs =>
    have hc : c ≠ '0' := by
      rintro rfl
      have hzero := digitIn?_eq_some_iff.2 hd
      exact hne (Option.some.inj hzero).symm
    have hdigits := Digits.cons hd hs
    have hread := hdigits.read_eq (Or.inl rfl) hr
    rw [outcome_integer hdigits, if_neg (by simp), if_neg (by simpa using hc)] at hread
    rwa [List.append_nil] at hread
  | @octal s ds hs =>
    obtain ⟨hdigits, hall, hint⟩ := hs.octal
    have hread := hdigits.read_eq (Or.inl rfl) hr
    rw [outcome_integer hdigits, if_neg (by simp), if_pos (by rfl), if_pos hall, hint] at hread
    rwa [List.append_nil] at hread
  | based h =>
    have hread := h.read_eq (Or.inl rfl) hr
    rwa [List.append_nil, if_pos (by rfl)] at hread
  | float h =>
    have hread := h.read_eq he (Or.inl rfl) hr
    rwa [List.append_nil, if_pos (by rfl)] at hread
  | imaginary h =>
    rw [h.read_eq (Or.inr rfl) hr, outcome_integer h, if_pos (by simp), List.length_append]
  | imaginaryBased h =>
    rw [h.read_eq (Or.inr rfl) hr, if_neg (by simp), List.length_append]
  | imaginaryFloat h =>
    rw [h.read_eq he (Or.inr rfl) hr, if_neg (by simp), List.length_append]

end Complete

/-- A digit opens the text, or a point and a digit. -/
inductive Opens : Text → Prop
  | digit {c : Char} {d : Nat} {s : Text} (h : DigitOf 10 c d) : Opens (c :: s)
  | point {c : Char} {d : Nat} {s : Text} (h : DigitOf 10 c d) : Opens ('.' :: c :: s)

theorem Opens.exists_cons {s : Text} (h : Opens s) :
    ∃ c cs, s = c :: cs ∧ Lexeme.Number.opens c cs := by
  cases h with
  | @digit c d s h => exact ⟨c, s, rfl, Or.inl h.isDigitIn⟩
  | @point c d s h => exact ⟨'.', c :: s, rfl, Or.inr ⟨rfl, by simp [h.isDigitIn]⟩⟩

theorem Digits.opens {s : Text} {ds : List Nat} (h : Digits 10 s ds) (t : Text) : Opens (s ++ t) := by
  cases h with
  | cons hd _ => exact .digit hd

theorem Floating.opens {s : Text} {ws fs : List Nat} {e : Int} (h : Floating s ws fs e) (t : Text) :
    Opens (s ++ t) := by
  cases h with
  | whole hw =>
    rw [List.append_assoc]
    exact hw.opens _
  | scaled hw =>
    rw [List.append_assoc]
    exact hw.opens _
  | fraction hf =>
    cases hf with
    | cons hd _ => exact .point hd

theorem opens {form : LiteralForm} {w : Text} {v : Value} {e : Int} (h : Numeral form w v e)
    (t : Text) : Opens (w ++ t) := by
  have hzero : DigitOf 10 '0' 0 := ⟨by decide, Or.inl rfl⟩
  cases h with
  | decimal hd _ _ => exact .digit hd
  | octal _ => exact .digit hzero
  | based h =>
    cases h with
    | mk _ _ _ => exact .digit hzero
  | float h => exact h.opens t
  | imaginary h =>
    rw [List.append_assoc]
    exact h.opens _
  | imaginaryBased h =>
    cases h with
    | mk _ _ _ => exact .digit hzero
  | imaginaryFloat h =>
    rw [List.append_assoc]
    exact h.opens _

end Numeral

namespace Lexer

variable {x : Lexer}

/-- No blank stands before a literal. -/
theorem blankCount_of_opens (h : Numeral.Opens x.cursor.ahead) : blankCount x.cursor = 0 := by
  obtain ⟨c, cs, hcs, ho⟩ := h.exists_cons
  have hne : ∀ a, isDigitIn 10 a = false → a ≠ '.' → c ≠ a := by
    rintro a ha hdot rfl
    rcases ho with ho | ho
    · rw [ha] at ho
      cases ho
    · exact hdot ho.1
  have hblank : isBlank c = false := by
    simp [isBlank, hne ' ' (by decide) (by decide), hne '\t' (by decide) (by decide),
      hne '\r' (by decide) (by decide)]
  have hbom : ¬(c = Mark.bom ∧ x.cursor.offset = 0) :=
    fun hb => hne Mark.bom (by decide) (by decide) hb.1
  simp [blankCount, hcs, hbom, hblank]

theorem reading_of_opens (h : Numeral.Opens x.cursor.ahead) :
    x.start = x.cursor ∧ x.reading = Lexeme.Number.read x.cursor.ahead := by
  have hstart : x.start = x.cursor := by
    rw [start, blankCount_of_opens h]
    rfl
  refine ⟨hstart, ?_⟩
  obtain ⟨c, cs, hcs, ho⟩ := h.exists_cons
  rw [reading, hstart, hcs, Lexeme.read_number ho]

theorem clear_of_opens (h : Numeral.Opens x.cursor.ahead)
    (hend : x.cursor.breaks = [] ∨ x.reading.size < x.cursor.ahead.length) : x.Clear := by
  obtain ⟨hstart, -⟩ := reading_of_opens h
  obtain ⟨c, cs, hcs, -⟩ := h.exists_cons
  rw [Clear, blankCount_of_opens h, hstart]
  unfold Cursor.take
  cases hb : x.cursor.breaks with
  | nil => exact ⟨rfl, rfl⟩
  | cons b bs =>
    have hlt : x.reading.size < x.cursor.ahead.length := by simpa [hb] using hend
    have hpos : ¬x.cursor.ahead.length ≤ 0 := by simp [hcs]
    simp only [if_neg hpos, if_neg (Nat.not_le.2 hlt), and_self]

end Lexer

open Lexeme (Reading) in
/-- Where a digit, or a point and a digit, comes next, a token that is handed out is a literal with
the form and the exact value of its text. Conversely a literal whose exponent is within the limit is
handed out as one token, unless a letter, a digit, a separator or a point goes on with it. -/
theorem numerals_exact (x : Lexer) (hq : x.queued = none) :
    (∀ t, Numeral.Opens x.cursor.ahead → x.next.outcome = .ok t →
      ∃ form v e, Numeral form t.text v e ∧ t.kind = .literal form ∧ t.value = some v ∧
        t.text <+: x.cursor.ahead) ∧
    ∀ form w v e rest, Numeral form w v e → e.natAbs ≤ 100000 → x.cursor.ahead = w ++ rest →
      (rest = [] → x.cursor.breaks = []) → (∀ c ∈ rest.head?, Numeral.Follows c) →
      ∃ t, x.next.outcome = .ok t ∧ t.text = w ∧ t.kind = .literal form ∧ t.value = some v ∧
        x.next.after.cursor.ahead = rest ∧ x.next.after.queued = none := by
  constructor
  · intro t ho ht
    obtain ⟨hstart, hread⟩ := Lexer.reading_of_opens ho
    obtain ⟨c, cs, hcs, hopens⟩ := ho.exists_cons
    have hm := Lexer.next_move x
    generalize x.next = s at hm ht
    cases hm with
    | queued h => simp [hq] at h
    | blankFault => cases ht
    | lexemeFault => cases ht
    | flaw => cases ht
    | lexeme _ _ hr =>
      rw [hread, hcs] at hr
      obtain ⟨form, v, e, hn, he, rfl⟩ := Numeral.denotes_read hopens hr
      obtain rfl := Except.ok.inj ht
      refine ⟨form, v, e, ?_, rfl, rfl, ?_⟩
      · simpa [Lexer.lexeme, hstart, hread, hcs] using hn
      · rw [← hstart]
        exact List.take_prefix _ _
  · intro form w v e rest hn he hahead hend hr
    have ho : Numeral.Opens x.cursor.ahead := hahead ▸ hn.opens rest
    obtain ⟨hstart, hread⟩ := Lexer.reading_of_opens ho
    rw [hahead, hn.read_eq he hr] at hread
    have hclear : x.Clear := by
      apply Lexer.clear_of_opens ho
      by_cases hnil : rest = []
      · exact Or.inl (hend hnil)
      · refine Or.inr ?_
        rw [hread, hahead, List.length_append, Reading.size_done]
        have := List.length_pos_iff.2 hnil
        omega
    have hnext : x.next = x.filled.produce (x.text ++ x.blanks) x.lexeme x.start.mark
        (.token (.literal form) (some v)) := by
      rw [Lexer.next, hq]
      simp only [Lexer.scan_eq hclear.1, Lexer.readLexeme_eq hclear.2, hread, Reading.done]
    have hlexeme : x.lexeme = w := by
      rw [Lexer.lexeme, hread, hstart, hahead]
      exact List.take_left
    have hstop : x.stop.ahead = rest := by
      rw [Lexer.stop, hread, hstart, Cursor.skip_ahead, hahead]
      exact List.drop_left
    rw [hnext]
    refine ⟨_, rfl, hlexeme, rfl, rfl, hstop, ?_⟩
    simp [Lexer.produce, Lexer.queuedBehind]

open Numeral in
theorem numeral_twentyOneTwentieths :
    Numeral .imaginary "01_0.5E-1i".toList (.imaginary (21 / 20)) (-1) := by
  have hzero : DigitOf 10 '0' 0 := ⟨by decide, Or.inl rfl⟩
  have hone : DigitOf 10 '1' 1 := ⟨by decide, Or.inl rfl⟩
  have hfive : DigitOf 10 '5' 5 := ⟨by decide, Or.inl rfl⟩
  have hw : Digits 10 ['0', '1', '_', '0'] [0, 1, 0] :=
    .cons hzero (.digit hone (.separated hzero .nil))
  have hx : Exponent ['E', '-', '1'] (-1) := .mk (Or.inr rfl) .minus (.cons hone .nil)
  have hvalue : decimalValue [0, 1, 0] [5] (-1) = 21 / 20 := by
    norm_num [decimalValue, valueIn, Nat.ofDigits]
  have hf := Floating.whole hw (.present (.cons hfive .nil)) (.present hx)
  have hn := Numeral.imaginaryFloat hf
  rw [hvalue] at hn
  exact hn

/-- A literal that opens with a zero, with a separator, a point, a negative exponent and a suffix. -/
theorem numerals_exact_imaginary :
    let x : Lexer := ⟨⟨"01_0.5E-1i;".toList, [], .origin "f"⟩, false, none, [], 0, false⟩
    ∃ t, x.next.outcome = .ok t ∧ t.text = "01_0.5E-1i".toList ∧ t.kind = .literal .imaginary ∧
      t.value = some (.imaginary (21 / 20)) ∧
        ∃ form v e, Numeral form t.text v e ∧ t.kind = .literal form ∧ t.value = some v := by
  intro x
  have hr : ∀ c ∈ [';'].head?, Numeral.Follows c := by
    rintro _ ⟨⟩
    exact ⟨by decide, by decide, by decide⟩
  obtain ⟨t, ht, htext, hkind, hvalue, -⟩ :=
    (numerals_exact x rfl).2 _ _ _ _ [';'] numeral_twentyOneTwentieths (by decide) rfl (by simp) hr
  have ho : Numeral.Opens x.cursor.ahead := numeral_twentyOneTwentieths.opens [';']
  obtain ⟨form, v, e, hn, hk, hv, -⟩ := (numerals_exact x rfl).1 t ho ht
  exact ⟨t, ht, htext, hkind, hvalue, form, v, e, hn, hk, hv⟩

end GoSyntax
