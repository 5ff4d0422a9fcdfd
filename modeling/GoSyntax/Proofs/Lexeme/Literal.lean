import GoSyntax.Proofs.Lexeme.Parts

/-! Numeric literals read from their parts. A literal is read off its own text: the separators among
its bytes, the digits between cuts. What comes of it is told by the parts alone, and no cut misses. -/
namespace GoSyntax
namespace Lexeme
namespace Number

/-- Each separator stands before a digit, and behind one or, at the front, where `behind` allows. -/
def wellSeparated (base : Nat) : (behind : Bool) → Text → Bool
  | _, [] => true
  | behind, c :: cs =>
    if c = '_' then behind && cs.head?.any (isDigitIn base) && wellSeparated base false cs
    else wellSeparated base (isDigitIn base c) cs

/-- What an exponent beyond the limit leads to. The least word is compared with the limit in vain: it
has no magnitude. -/
def refusal (e : Int) : Cause :=
  if e = -wordLimit then .crash .overflow else .lexical (.invalidNumber .exponentTooLarge)

namespace Decimal

/-- The number the exponent spells, zero if there is none. -/
def exponentValue? (d : Decimal) : Option Int :=
  match d.exponent with
  | none => some 0
  | some (sign, digits) =>
    (numberIn? 10 (withoutSeparators digits)).map fun n : Nat =>
      if sign = some '-' then -(n : Int) else n

/-- The digits before the exponent, point and separators left out. -/
def mantissa (d : Decimal) : Text := withoutSeparators (d.whole ++ d.fraction.getD [])

/-- The value of the parts, if the exponent is within the limit. -/
def value? (d : Decimal) : Except Cause Rat :=
  match d.exponentValue?, numberIn? 10 d.mantissa with
  | some e, some m =>
    if e.natAbs ≤ exponentLimit then
      .ok (scaled m (withoutSeparators (d.fraction.getD [])).length e)
    else .error (refusal e)
  | _, _ => .error (.defect (.decimal d.mantissa))

end Decimal

/-- Closes a literal of `size` characters with the value of a computation. -/
def close (size : Nat) (form : LiteralForm) (value : Except Cause Value) : Reading Meaning :=
  settle size (value.map fun v => .token (.literal form) (some v))

/-- A literal behind its base letter, by its digits. -/
def prefixed (form : LiteralForm) (base : Nat) (cs : Text) : Reading Meaning :=
  let digits := digitRun (max base 10) cs
  let size := 2 + digits.length
  if !hasDigit digits then flawed size (.noDigits base)
  else if !digits.all (isDigitOrSeparator base) then flawed size (.invalidDigit base)
  else
    let i := suffix (cs.drop digits.length)
    if !wellSeparated (max base 10) true digits then flawed (size + i) .misplacedSeparator
    else
      let value := integer? base (withoutSeparators digits)
      if i = 0 then close size form (value.map .int)
      else close (size + i) .imaginary (value.map fun n : Nat => .imaginary (.ofInt n))

/-- A literal without base letter, by its parts. One that opens with a zero is octal, unless a point,
an exponent or an `i` makes it decimal. -/
def plain (cs : Text) : Reading Meaning :=
  let d := Decimal.ofText cs
  let size := d.size
  if d.exponent.any fun e => !hasDigit e.2 then flawed size .noExponent
  else
    let i := suffix (cs.drop size)
    if !wellSeparated 10 false (cs.take size) then flawed (size + i) .misplacedSeparator
    else if d.isFloat then
      if i = 0 then close size .float (d.value?.map .float)
      else close (size + i) .imaginary (d.value?.map .imaginary)
    else
      let digits := withoutSeparators d.whole
      if i ≠ 0 then
        close (size + i) .imaginary ((integer? 10 digits).map fun n : Nat => .imaginary (.ofInt n))
      else if cs.head? = some '0' then
        if digits.all (isDigitIn 8) then close size .octalInteger ((integer? 8 digits).map .int)
        else flawed size (.invalidDigit 8)
      else close size .decimalInteger ((integer? 10 digits).map .int)

theorem text_integer (w : Text) (l : Char) : Decimal.text ⟨w, none, none⟩ l = w := by
  simp [Decimal.text, fractionText, exponentText]

section Separators

variable {base : Nat} {c : Char} {s t : Text}

theorem bytes_of_ascii (h : ∀ c ∈ s, c.toNat < 128) :
    s.flatMap String.utf8EncodeChar = s.map Char.toUInt8 := by
  induction s with
  | nil => rfl
  | cons c s ih =>
    obtain ⟨hc, hs⟩ := List.forall_mem_cons.1 h
    have hsize : c.utf8Size = 1 := by
      rw [Char.utf8Size_eq_one_iff, UInt32.le_iff_toNat_le]
      exact Nat.le_of_lt_succ hc
    rw [List.flatMap_cons, String.utf8EncodeChar_eq_singleton hsize, ih hs]
    rfl

theorem ofNat_toUInt8 (h : c.toNat < 128) : Char.ofNat c.toUInt8.toNat = c := by
  have hn : c.toUInt8.toNat = c.toNat := by
    simp only [Char.toUInt8, UInt32.toNat_toUInt8]
    exact Nat.mod_eq_of_lt (by change c.toNat < 2 ^ 8; omega)
  rw [hn, Char.ofNat_toNat]

theorem isDigitByte_toUInt8 (h : c.toNat < 128) : isDigitByte base c.toUInt8 = isDigitIn base c := by
  rw [isDigitByte, ofNat_toUInt8 h]

theorem toUInt8_eq_separator (h : c.toNat < 128) : c.toUInt8 = '_'.toUInt8 ↔ c = '_' := by
  constructor
  · intro hc
    rw [← ofNat_toUInt8 h, hc]
    rfl
  · rintro rfl
    rfl

/-- The text ends in a digit, or in a base letter that one character precedes. -/
def endsFit (base : Nat) (s : Text) : Bool :=
  s.getLast?.any fun c => isDigitIn base c || s.length == 2 && (baseOf? c).isSome

theorem endsFit_concat (s : Text) (c : Char) :
    endsFit base (s ++ [c]) = (isDigitIn base c || s.length == 1 && (baseOf? c).isSome) := by
  simp [endsFit]

theorem fitsBehind_eq (h : ∀ c ∈ s, c.toNat < 128) :
    fitsBehind base ((s ++ t).map Char.toUInt8) s.length = .ok (endsFit base s) := by
  rcases List.eq_nil_or_concat s with rfl | ⟨s, c, rfl⟩
  · rfl
  rw [List.concat_eq_append] at h ⊢
  have hc : c.toNat < 128 := h c (by simp)
  have hbyte : byteAt ((s ++ [c] ++ t).map Char.toUInt8) s.length = .ok c.toUInt8 := by
    simp [byteAt]
  have hlen : (s ++ [c]).length = s.length + 1 := by simp
  rw [fitsBehind, hlen, if_neg (Nat.succ_ne_zero _), Nat.add_sub_cancel, hbyte, endsFit_concat]
  simp only [bind, Except.bind, isDigitByte_toUInt8 hc]
  split
  · rename_i hd
    simp [hd, pure, Except.pure]
  · rename_i hd
    split
    · rename_i hs
      obtain hs : s.length = 1 := by omega
      rw [hs] at hbyte
      rw [hbyte]
      simp [hd, hs, ofNat_toUInt8 hc, pure, Except.pure]
    · rename_i hs
      have : s.length ≠ 1 := by omega
      simp [hd, this, pure, Except.pure]

theorem separatorFits_eq (h : ∀ a ∈ s ++ c :: t, a.toNat < 128) :
    separatorFits base ((s ++ c :: t).map Char.toUInt8) (c.toUInt8, s.length) =
      .ok (c != '_' || endsFit base s && t.head?.any (isDigitIn base)) := by
  have hc : c.toNat < 128 := h c (by simp)
  have hnext : ((s ++ c :: t).map Char.toUInt8)[s.length + 1]?.any (isDigitByte base) =
      t.head?.any (isDigitIn base) := by
    cases t with
    | nil => simp
    | cons a t => simp [isDigitByte_toUInt8 (h a (by simp))]
  rw [separatorFits]
  by_cases hsep : c = '_'
  · subst hsep
    rw [if_neg (by simp), fitsBehind_eq fun a ha => h a (List.mem_append_left _ ha)]
    simp only [bind, Except.bind, hnext]
    rfl
  · rw [if_pos fun hb => hsep ((toUInt8_eq_separator hc).1 hb)]
    simp [hsep, pure, Except.pure]

/-- Byte by byte, the separators of `t` are found where they may stand behind `s`, if no character of
`t` could be taken for a base letter. -/
theorem allM_separatorFits (h : ∀ c ∈ s ++ t, c.toNat < 128)
    (hb : ∀ c ∈ t, 2 ≤ s.length ∨ baseOf? c = none) :
    ((t.map Char.toUInt8).zipIdx s.length).allM (separatorFits base ((s ++ t).map Char.toUInt8)) =
      .ok (wellSeparated base (endsFit base s) t) := by
  induction t generalizing s with
  | nil => rfl
  | cons c t ih =>
    have hsplit : s ++ c :: t = s ++ [c] ++ t := by simp
    have hlen : (s ++ [c]).length = s.length + 1 := by simp
    have hends : endsFit base (s ++ [c]) = isDigitIn base c := by
      rw [endsFit_concat]
      rcases hb c List.mem_cons_self with hs | hc
      · have : s.length ≠ 1 := by omega
        simp [this]
      · simp [hc]
    have hrest := ih (s := s ++ [c]) (hsplit ▸ h) fun a ha =>
      (hb a (List.mem_cons_of_mem c ha)).imp_left fun hs => by omega
    rw [hends, hlen, ← hsplit] at hrest
    rw [List.map_cons, List.zipIdx_cons, List.allM, separatorFits_eq h]
    simp only [bind, Except.bind, wellSeparated]
    by_cases hc : c = '_'
    · subst hc
      have hdigit : isDigitIn base '_' = false := by
        simp [isDigitIn, digitIn?, show digitValue? '_' = none by decide]
      rw [hdigit] at hrest
      cases hfit : endsFit base s && t.head?.any (isDigitIn base) with
      | true => simpa [hfit] using hrest
      | false => rfl
    · have hne : (c != '_') = true := bne_iff_ne.2 hc
      simpa [hc, hne] using hrest

theorem separatorsFit_eq (h : ∀ c ∈ s, c.toNat < 128) (hb : ∀ c ∈ s, baseOf? c = none) :
    separatorsFit base s = .ok (wellSeparated (max base 10) false s) := by
  rw [separatorsFit, bytes_of_ascii h]
  exact allM_separatorFits (s := []) h fun c hc => Or.inr (hb c hc)

/-- Apart from the letters that name a base, no character does. -/
theorem baseOf?_eq_none (h : c ∉ ['x', 'X', 'b', 'B', 'o', 'O']) : baseOf? c = none := by
  simp only [List.mem_cons, List.not_mem_nil, or_false, not_or] at h
  simp [baseOf?, h]

theorem mem_of_baseOf? {x : LiteralForm × Nat} (h : baseOf? c = some x) :
    c ∈ ['x', 'X', 'b', 'B', 'o', 'O'] := by
  apply Decidable.byContradiction
  intro hc
  rw [baseOf?_eq_none hc] at h
  cases h

/-- A letter that names a base is an ASCII letter, and it names no form with a point. -/
theorem letter_of_baseOf? {x : LiteralForm × Nat} (h : baseOf? c = some x) :
    c.toNat < 128 ∧ c.utf8Size = 1 ∧ c ≠ '_' ∧ c ≠ 'i' ∧ x.1 ≠ .float := by
  have hall : ∀ a ∈ ['x', 'X', 'b', 'B', 'o', 'O'], ∀ y ∈ baseOf? a,
      a.toNat < 128 ∧ a.utf8Size = 1 ∧ a ≠ '_' ∧ a ≠ 'i' ∧ y.1 ≠ .float := by
    simp [baseOf?, Char.utf8Size]
  exact hall c (mem_of_baseOf? h) x h

theorem separatorsFit_based {x : LiteralForm × Nat} (hc : baseOf? c = some x)
    (h : ∀ a ∈ s, a.toNat < 128) :
    separatorsFit base ('0' :: c :: s) = .ok (wellSeparated (max base 10) true s) := by
  obtain ⟨hletter, -, hsep, -⟩ := letter_of_baseOf? hc
  have hall : ∀ a ∈ '0' :: c :: s, a.toNat < 128 := by
    simpa [hletter] using h
  have hends : endsFit (max base 10) ['0', c] = true := by
    simp [endsFit, hc]
  have hzero := @separatorFits_eq (max base 10) '0' [] (c :: s) hall
  have hfirst := @separatorFits_eq (max base 10) c ['0'] s hall
  have hrest := @allM_separatorFits (max base 10) ['0', c] s hall fun _ _ => Or.inl (Nat.le_refl 2)
  simp only [List.nil_append, List.cons_append, List.length_nil, List.length_cons, hends,
    Nat.zero_add, Nat.reduceAdd] at hzero hfirst hrest
  rw [separatorsFit, bytes_of_ascii hall]
  simp only [List.map_cons, List.zipIdx_cons, List.allM] at hzero hfirst hrest ⊢
  rw [show ('0' != '_') = true from rfl, Bool.true_or] at hzero
  rw [bne_iff_ne.2 hsep, Bool.true_or] at hfirst
  simp only [hzero, hfirst, bind, Except.bind]
  exact hrest

/-- A character that is neither digit nor separator parts what stands on both sides of it. -/
theorem wellSeparated_append_cons (hc : isDigitOrSeparator base c = false) (behind : Bool)
    (s t : Text) :
    wellSeparated base behind (s ++ c :: t) =
      (wellSeparated base behind s && wellSeparated base false t) := by
  rw [isDigitOrSeparator, Bool.or_eq_false_iff, beq_eq_false_iff_ne] at hc
  induction s generalizing behind with
  | nil => simp [wellSeparated, hc.1, hc.2]
  | cons a s ih =>
    have hhead : (s ++ c :: t).head?.any (isDigitIn base) = s.head?.any (isDigitIn base) := by
      cases s with
      | nil => simp [hc.1]
      | cons => rfl
    by_cases ha : a = '_'
    · simp only [List.cons_append, wellSeparated, if_pos ha, hhead, ih, Bool.and_assoc]
    · simp only [List.cons_append, wellSeparated, if_neg ha, ih]

end Separators

section Values

variable {d : Decimal} {l : Char} {s t : Text} {e : Int}

theorem isWord_iff {n : Int} : isWord n = true ↔ -wordLimit ≤ n ∧ n < wordLimit := by
  rw [isWord, Bool.and_eq_true, decide_eq_true_iff, decide_eq_true_iff]

theorem not_isWord_iff {n : Int} : isWord n = false ↔ n < -wordLimit ∨ wordLimit ≤ n := by
  rw [← Bool.not_eq_true, isWord_iff]
  omega

theorem splitExponent_of_none (h : ∀ c ∈ s, isExponentLetter c = false) :
    splitExponent s = .ok (s, []) := by
  have htake := @takeWhile_append (fun c => !isExponentLetter c) s [] (by simpa using h) (by simp)
  rw [List.append_nil] at htake
  simp only [splitExponent, htake, if_true]

theorem splitExponent_of_some (h : ∀ c ∈ s, isExponentLetter c = false) (hl : l = 'e' ∨ l = 'E') :
    splitExponent (s ++ l :: t) = .ok (s, t) := by
  have hletter : isExponentLetter l = true ∧ l.utf8Size = 1 := by
    rcases hl with rfl | rfl <;> decide
  have htake : (s ++ l :: t).takeWhile (fun c => !isExponentLetter c) = s :=
    takeWhile_append (by simpa using h) (by simp [hletter.1])
  have hbehind : Text.behind? (Text.byteLength s + 1) (s ++ l :: t) = some t := by
    have hcut := Text.behind?_append (s ++ [l]) t
    simpa [hletter.2] using hcut
  have hlen : s.length ≠ (s ++ l :: t).length := by simp
  simp only [splitExponent, htake, if_neg hlen, Text.before?_append, hbehind]

/-- A signed number is read as a word if it is one. -/
theorem word?_eq {sign : Option Char} {n : Nat} (hsign : ∀ c ∈ sign, c = '+' ∨ c = '-')
    (hd : ∀ c ∈ s, isDigitIn 10 c) (hne : s ≠ []) (hn : numberIn? 10 s = some n) :
    word? (sign.toList ++ s) = (some (if sign = some '-' then -(n : Int) else n)).filter isWord := by
  obtain ⟨c, s, rfl⟩ := List.exists_cons_of_ne_nil hne
  cases sign with
  | some a =>
    rcases hsign a rfl with rfl | rfl
    · simp [word?, hn]
    · simp [word?, hn]
  | none =>
    have hc := hd c List.mem_cons_self
    have hplus : c ≠ '+' := by
      rintro rfl
      exact absurd hc (by decide)
    have hminus : c ≠ '-' := by
      rintro rfl
      exact absurd hc (by decide)
    simp [word?, hn, hplus, hminus]

/-- Of the exponents beyond the limit only the least word is not refused. -/
theorem smallExponent_eq (hne : s ≠ []) (hw : word? s = (some e).filter isWord) :
    smallExponent s = if e.natAbs ≤ exponentLimit then .ok e else .error (refusal e) := by
  have hlimit : exponentLimit < wordLimit := by decide
  have hempty : ¬s.isEmpty := by simpa using hne
  rw [smallExponent, if_neg hempty, hw, refusal]
  cases hword : isWord e with
  | false =>
    have := not_isWord_iff.1 hword
    rw [if_neg (show ¬e.natAbs ≤ exponentLimit by omega), if_neg (show e ≠ -wordLimit by omega)]
    simp [Option.filter, hword]
  | true =>
    have := isWord_iff.1 hword
    simp only [Option.filter, hword, if_true, magnitude]
    cases hmagnitude : isWord e.natAbs with
    | false =>
      have := not_isWord_iff.1 hmagnitude
      rw [if_neg (show ¬e.natAbs ≤ exponentLimit by omega), if_pos (show e = -wordLimit by omega)]
      rfl
    | true =>
      have := isWord_iff.1 hmagnitude
      rw [if_neg (show e ≠ -wordLimit by omega)]
      rfl

theorem integer?_of_digits {base : Nat} (h : ∀ c ∈ s, isDigitIn base c) (hb : 0 < base) :
    ∃ n, numberIn? base s = some n ∧ integer? base s = .ok n := by
  obtain ⟨n, hn⟩ := exists_numberIn h
  refine ⟨n, hn, ?_⟩
  cases s with
  | nil =>
    obtain rfl : 0 = n := Option.some.inj hn
    have hzero : numberIn? base ['0'] = some 0 := by
      simp [numberIn?, digitIn?, show digitValue? '0' = some 0 by decide, hb]
    simp [integer?, hzero]
  | cons c s => simp [integer?, hn]

/-- Sign and digits of the exponent, separators left out. -/
def Decimal.exponentDigits (d : Decimal) : Text :=
  (d.exponent.map fun x => x.1.toList ++ withoutSeparators x.2).getD []

theorem digit_ne_letter {c : Char} (h : isDigitIn 10 c) : isExponentLetter c = false ∧ c ≠ '.' := by
  refine ⟨?_, ?_⟩
  · rw [isExponentLetter, Bool.or_eq_false_iff, beq_eq_false_iff_ne, beq_eq_false_iff_ne]
    constructor <;>
    · rintro rfl
      exact absurd h (by decide)
  · rintro rfl
    exact absurd h (by decide)

theorem withoutSeparators_append (s t : Text) :
    withoutSeparators (s ++ t) = withoutSeparators s ++ withoutSeparators t := List.filter_append ..

/-- The text of well-formed parts comes apart at the exponent. -/
theorem splitExponent_text (h : d.WellFormed l) :
    splitExponent (withoutSeparators (d.text l)) =
      .ok (withoutSeparators (d.whole ++ fractionText d.fraction), d.exponentDigits) := by
  have hmem : ∀ c ∈ withoutSeparators (d.whole ++ fractionText d.fraction),
      isExponentLetter c = false := by
    intro c hc
    rw [withoutSeparators_append, List.mem_append] at hc
    rcases hc with hc | hc
    · exact (digit_ne_letter (mem_withoutSeparators h.whole c hc)).1
    · cases hf : d.fraction with
      | none => simp [hf, fractionText, withoutSeparators] at hc
      | some f =>
        rw [hf, fractionText, withoutSeparators, List.filter_cons_of_pos (by decide),
          List.mem_cons] at hc
        rcases hc with rfl | hc
        · rfl
        · exact (digit_ne_letter (mem_withoutSeparators (h.fraction f hf) c hc)).1
  rw [Decimal.text, ← List.append_assoc, withoutSeparators_append, Decimal.exponentDigits]
  cases hx : d.exponent with
  | none => simpa [exponentText, withoutSeparators] using splitExponent_of_none hmem
  | some x =>
    have hletter : l ≠ '_' := by
      rcases h.letter with rfl | rfl <;> decide
    have hsign : withoutSeparators x.1.toList = x.1.toList := by
      rw [withoutSeparators, List.filter_eq_self]
      intro c hc
      rcases (h.exponent x hx).1 c (Option.mem_toList.1 hc) with rfl | rfl <;> decide
    have hexp : withoutSeparators (exponentText l (some x)) =
        l :: (x.1.toList ++ withoutSeparators x.2) := by
      rw [exponentText, withoutSeparators, List.filter_cons_of_pos (by simpa using hletter)]
      exact congrArg _ ((withoutSeparators_append _ _).trans (by rw [hsign]))
    rw [hexp]
    exact splitExponent_of_some hmem h.letter

theorem exists_exponentValue (h : d.WellFormed l)
    (hx : ∀ x, d.exponent = some x → hasDigit x.2 = true) :
    ∃ e, d.exponentValue? = some e ∧ smallExponent d.exponentDigits =
      if e.natAbs ≤ exponentLimit then .ok e else .error (refusal e) := by
  rw [Decimal.exponentValue?, Decimal.exponentDigits]
  cases hd : d.exponent with
  | none => exact ⟨0, rfl, rfl⟩
  | some x =>
    obtain ⟨hsign, hdigits, -⟩ := h.exponent x hd
    have hmem := mem_withoutSeparators hdigits
    obtain ⟨n, hn⟩ := exists_numberIn hmem
    have hne : withoutSeparators x.2 ≠ [] := by
      obtain ⟨c, hc, hsep⟩ := List.any_eq_true.1 (hx x hd)
      exact List.ne_nil_of_mem (List.mem_filter.2 ⟨hc, hsep⟩)
    refine ⟨if x.1 = some '-' then -(n : Int) else n, by simp [hn], ?_⟩
    exact smallExponent_eq (by simp [hne]) (word?_eq hsign hmem hne hn)

theorem exists_mantissa (h : d.WellFormed l) : ∃ m, numberIn? 10 d.mantissa = some m := by
  apply exists_numberIn
  apply mem_withoutSeparators
  intro c hc
  rcases List.mem_append.1 hc with hc | hc
  · exact h.whole c hc
  · cases hf : d.fraction with
    | none => simp [hf] at hc
    | some f => exact h.fraction f hf c (by simpa [hf] using hc)

/-- What the text of well-formed parts is worth, the parts are. -/
theorem fraction?_eq (h : d.WellFormed l) (hx : ∀ x, d.exponent = some x → hasDigit x.2 = true) :
    fraction? (withoutSeparators (d.text l)) = d.value? := by
  obtain ⟨e, he, hsmall⟩ := exists_exponentValue h hx
  obtain ⟨m, hm⟩ := exists_mantissa h
  have hwhole : (withoutSeparators (d.whole ++ fractionText d.fraction)).takeWhile (· != '.') =
      withoutSeparators d.whole := by
    rw [withoutSeparators_append]
    refine takeWhile_append ?_ ?_
    · intro c hc
      exact bne_iff_ne.2 (digit_ne_letter (mem_withoutSeparators h.whole c hc)).2
    · cases d.fraction with
      | none => simp [fractionText, withoutSeparators]
      | some f => simp [fractionText, withoutSeparators]
  have hplaces : (withoutSeparators (d.whole ++ fractionText d.fraction)).drop
      ((withoutSeparators d.whole).length + 1) = withoutSeparators (d.fraction.getD []) := by
    rw [withoutSeparators_append, ← List.drop_drop, List.drop_left]
    cases d.fraction with
    | none => rfl
    | some f => rfl
  have hall : numberIn? 10 (if (withoutSeparators d.whole ++
      withoutSeparators (d.fraction.getD [])).isEmpty then ['0']
      else withoutSeparators d.whole ++ withoutSeparators (d.fraction.getD [])) = some m := by
    rw [← hm, Decimal.mantissa, withoutSeparators_append]
    split
    · rename_i hempty
      rw [List.isEmpty_iff.1 hempty]
      rfl
    · rfl
  simp only [fraction?, splitExponent_text h, bind, Except.bind, hwhole, hplaces, hsmall, hall,
    Decimal.value?, he, hm]
  by_cases hle : e.natAbs ≤ exponentLimit
  · simp only [if_pos hle]
    rfl
  · simp only [if_neg hle]

end Values

section Forms

variable {d : Decimal} {form : LiteralForm} {base : Nat} {l : Char} {s t : Text}

theorem isDigitIn_suffix (base : Nat) : isDigitIn base 'i' = false := by
  simp [isDigitIn, digitIn?, show digitValue? 'i' = none by decide]

theorem ascii_of_digit {c : Char} (h : isDigitOrSeparator base c) : c.toNat < 128 ∧ c ≠ 'i' := by
  rw [isDigitOrSeparator, Bool.or_eq_true, beq_iff_eq] at h
  rcases h with h | rfl
  · have hr := digit_range h
    refine ⟨by omega, ?_⟩
    rintro rfl
    rw [isDigitIn_suffix] at h
    cases h
  · decide

theorem ascii_of_text (h : d.WellFormed l) :
    ∀ c ∈ d.text l, c.toNat < 128 ∧ c ≠ 'i' ∧ baseOf? c = none := by
  intro c hc
  rcases mem_text h c hc with hc | hc
  · refine ⟨(ascii_of_digit hc).1, (ascii_of_digit hc).2, baseOf?_eq_none ?_⟩
    intro hletter
    have hnot : ∀ a ∈ ['x', 'X', 'b', 'B', 'o', 'O'], isDigitOrSeparator 10 a = false := by
      simp [isDigitOrSeparator, isDigitIn, digitIn?, digitValue?]
    rw [hnot c hletter] at hc
    cases hc
  · have hall : ∀ a ∈ ['.', 'e', 'E', '+', '-'], a.toNat < 128 ∧ a ≠ 'i' ∧ baseOf? a = none := by
      simp [baseOf?]
    exact hall c hc

/-- A suffix can be told from the digits before it. -/
theorem body_eq (hs : s = [] ∨ s = ['i']) (ht : 'i' ∉ t) :
    (if (t ++ s).getLast? = some 'i' then (t ++ s).dropLast else t ++ s) = t := by
  rcases hs with rfl | rfl
  · rw [List.append_nil, if_neg]
    intro hlast
    exact ht (List.mem_of_getLast? hlast)
  · rw [if_pos (by simp), List.dropLast_concat]

theorem wellSeparated_suffix (hs : s = [] ∨ s = ['i']) (behind : Bool) :
    wellSeparated base behind (t ++ s) = wellSeparated base behind t := by
  rcases hs with rfl | rfl
  · rw [List.append_nil]
  · rw [wellSeparated_append_cons (by simp [isDigitOrSeparator, isDigitIn_suffix])]
    simp [wellSeparated]

/-- What literals mean of which the separators and the digits are known. -/
theorem meaning_eq {fits isBased : Bool} {digits : Text} (hs : s = [] ∨ s = ['i']) (ht : 'i' ∉ t)
    (hfits : separatorsFit base (t ++ s) = .ok fits)
    (hdigits : Text.behind? (if isBased then 2 else 0) t = some digits) :
    meaning form base isBased (s.length != 0) (t ++ s) =
      if !fits then .error (.lexical (.invalidNumber .misplacedSeparator))
      else if form = .octalInteger ∧ !isBased ∧ s.length = 0 ∧
          (withoutSeparators digits).any (!isDigitIn 8 ·) then
        .error (.lexical (.invalidNumber (.invalidDigit 8)))
      else if s.length = 0 then
        if form = .float then
          (fraction? (withoutSeparators digits)).map fun q =>
            .token (.literal .float) (some (.float q))
        else (integer? base (withoutSeparators digits)).map fun n : Nat =>
          .token (.literal form) (some (.int n))
      else
        (if form = .float then fraction? (withoutSeparators digits)
        else (integer? (if isBased then base else 10) (withoutSeparators digits)).map fun n : Nat =>
          .ofInt n).map fun q => .token (.literal .imaginary) (some (.imaginary q)) := by
  simp only [meaning, hfits, body_eq hs ht, hdigits, Option.getD_some, bind, Except.bind]
  cases fits with
  | false => rfl
  | true =>
    rcases hs with rfl | rfl
    · by_cases hf : form = .float
      · simp [hf]
        cases fraction? (withoutSeparators digits) <;> rfl
      · simp [hf]
        cases integer? base (withoutSeparators digits) <;> rfl
    · by_cases hf : form = .float
      · simp [hf]
        cases fraction? (withoutSeparators digits) <;> rfl
      · simp [hf]
        cases integer? (if isBased then base else 10) (withoutSeparators digits) <;> rfl

theorem meaning_text (h : d.WellFormed l) (hs : s = [] ∨ s = ['i']) (hb : base ≤ 10) :
    meaning form base false (s.length != 0) (d.text l ++ s) =
      if !wellSeparated 10 false (d.text l) then
        .error (.lexical (.invalidNumber .misplacedSeparator))
      else if form = .octalInteger ∧ s.length = 0 ∧
          (withoutSeparators (d.text l)).any (!isDigitIn 8 ·) then
        .error (.lexical (.invalidNumber (.invalidDigit 8)))
      else if s.length = 0 then
        if form = .float then
          (fraction? (withoutSeparators (d.text l))).map fun q =>
            .token (.literal .float) (some (.float q))
        else (integer? base (withoutSeparators (d.text l))).map fun n : Nat =>
          .token (.literal form) (some (.int n))
      else
        (if form = .float then fraction? (withoutSeparators (d.text l))
        else (integer? 10 (withoutSeparators (d.text l))).map fun n : Nat =>
          .ofInt n).map fun q => .token (.literal .imaginary) (some (.imaginary q)) := by
  have hascii : ∀ c ∈ d.text l ++ s, c.toNat < 128 ∧ baseOf? c = none := by
    intro c hc
    rcases List.mem_append.1 hc with hc | hc
    · exact ⟨(ascii_of_text h c hc).1, (ascii_of_text h c hc).2.2⟩
    · rcases hs with rfl | rfl
      · cases hc
      · obtain rfl := List.mem_singleton.1 hc
        decide
  have hfits : separatorsFit base (d.text l ++ s) = .ok (wellSeparated 10 false (d.text l)) := by
    rw [separatorsFit_eq (fun c hc => (hascii c hc).1) fun c hc => (hascii c hc).2,
      Nat.max_eq_right hb, wellSeparated_suffix hs]
  have hmeaning := @meaning_eq form base s (d.text l) _ false (d.text l) hs
    (fun hi => (ascii_of_text h _ hi).2.1 rfl) hfits (Text.behind?_append [] _)
  simpa using hmeaning

theorem readDecimal_eq (cs : Text) : readDecimal cs = plain cs := by
  by_cases hexp : (Decimal.ofText cs).exponent.any fun e => !hasDigit e.2
  · simp only [readDecimal, plain, if_pos hexp]
  have hx : ∀ x, (Decimal.ofText cs).exponent = some x → hasDigit x.2 = true := by
    intro x hx
    simpa [hx] using hexp
  obtain ⟨l, rest, hwf, hcs⟩ := ofText_text fun x h hnil => by
    have hdigit := hx x h
    rw [hnil] at hdigit
    cases hdigit
  obtain ⟨s, rest, rfl, hlen, hs⟩ := suffix_split rest
  simp only [readDecimal, plain, if_neg hexp]
  generalize Decimal.ofText cs = d at hwf hcs hx
  have hi : suffix (cs.drop d.size) = s.length := by
    rw [hcs, ← length_text d l, List.drop_left, hlen]
  have htake : cs.take d.size = d.text l := by
    rw [hcs, ← length_text d l, List.take_left]
  have hall : cs.take (d.size + s.length) = d.text l ++ s := by
    rw [hcs, ← length_text d l, ← List.length_append, ← List.append_assoc, List.take_left]
  rw [hi, hall, htake]
  by_cases hf : d.isFloat
  · simp only [if_pos hf, meaning_text hwf hs (Nat.le_refl 10), fraction?_eq hwf hx]
    cases wellSeparated 10 false (d.text l) with
    | false => rfl
    | true => rcases hs with rfl | rfl <;> cases d.value? <;> rfl
  · obtain ⟨w, rfl⟩ : ∃ w, d = ⟨w, none, none⟩ := by
      obtain ⟨w, f, x⟩ := d
      simp only [Decimal.isFloat, Bool.or_eq_true, not_or, Option.not_isSome_iff_eq_none] at hf
      exact ⟨w, by rw [hf.1, hf.2]⟩
    have hmeaning := fun form base hb => @meaning_text ⟨w, none, none⟩ form base l s hwf hs hb
    simp only [text_integer] at hmeaning
    by_cases hzero : cs.head? = some '0'
    · simp only [if_neg hf, if_pos hzero, text_integer, hmeaning _ 8 (by decide)]
      cases wellSeparated 10 false w with
      | false => rfl
      | true =>
        rcases hs with rfl | rfl
        · rw [← List.not_all_eq_any_not]
          cases (withoutSeparators w).all (isDigitIn 8) with
          | false => rfl
          | true => cases integer? 8 (withoutSeparators w) <;> rfl
        · cases integer? 10 (withoutSeparators w) <;> rfl
    · simp only [if_neg hf, if_neg hzero, text_integer, hmeaning _ 10 (by decide)]
      cases wellSeparated 10 false w with
      | false => rfl
      | true => rcases hs with rfl | rfl <;> cases integer? 10 (withoutSeparators w) <;> rfl

theorem readBased_eq {c : Char} (hc : baseOf? c = some (form, base)) (cs : Text) :
    readBased form base c cs = prefixed form base cs := by
  obtain ⟨s, rest, hrest, hlen, hs⟩ := suffix_split (cs.drop (digitRun (max base 10) cs).length)
  have hmem : ∀ a ∈ digitRun (max base 10) cs, isDigitOrSeparator (max base 10) a := mem_digitRun
  have hcs := digitRun_drop (max base 10) cs
  simp only [readBased, prefixed]
  generalize digitRun (max base 10) cs = digits at hrest hlen hmem hcs ⊢
  obtain ⟨-, hsize, -, hi, (hform : form ≠ .float)⟩ := letter_of_baseOf? hc
  have hbehind : Text.behind? 2 ('0' :: c :: digits) = some digits := by
    have hcut := Text.behind?_append ['0', c] digits
    have htwo : Text.byteLength ['0', c] = 2 := by
      simp [hsize, show '0'.utf8Size = 1 by decide]
    rwa [htwo] at hcut
  have htake : '0' :: c :: cs.take (digits.length + s.length) = '0' :: c :: digits ++ s := by
    rw [← hcs, hrest, ← List.length_append, ← List.append_assoc, List.take_left]
    rfl
  have hascii : ∀ a ∈ digits ++ s, a.toNat < 128 := by
    intro a ha
    rcases List.mem_append.1 ha with ha | ha
    · exact (ascii_of_digit (hmem a ha)).1
    · rcases hs with rfl | rfl
      · cases ha
      · obtain rfl := List.mem_singleton.1 ha
        decide
  have hfits : separatorsFit base ('0' :: c :: digits ++ s) =
      .ok (wellSeparated (max base 10) true digits) := by
    rw [← wellSeparated_suffix hs]
    exact separatorsFit_based hc hascii
  have hnot : 'i' ∉ '0' :: c :: digits := by
    intro hmem'
    rcases List.mem_cons.1 hmem' with h | hmem'
    · cases h
    rcases List.mem_cons.1 hmem' with h | hmem'
    · exact hi h.symm
    · exact (ascii_of_digit (hmem _ hmem')).2 rfl
  have hmeaning := @meaning_eq form base s ('0' :: c :: digits) _ true digits hs hnot hfits hbehind
  simp only [hbehind, ← hlen, htake, hmeaning, if_neg hform, if_true]
  split
  · rfl
  split
  · rfl
  cases wellSeparated (max base 10) true digits with
  | false => rfl
  | true =>
    rcases hs with rfl | rfl
    · simp only [Bool.not_true, Bool.false_eq_true, false_and, and_false, if_false, List.length_nil,
        if_true]
      cases integer? base (withoutSeparators digits) <;> rfl
    · simp only [Bool.not_true, Bool.false_eq_true, false_and, and_false, if_false]
      cases integer? base (withoutSeparators digits) <;> rfl

/-- What is read off a text is told by the parts of the literal that opens it. -/
theorem read_eq (cs : Text) :
    read cs =
      match cs with
      | '0' :: c :: rest =>
        match baseOf? c with
        | some (form, base) => prefixed form base rest
        | none => plain cs
      | _ => plain cs := by
  split
  · rename_i c rest
    simp only [read, readDecimal_eq]
    cases hc : baseOf? c with
    | none => rfl
    | some x => exact readBased_eq hc rest
  · rename_i h
    unfold read
    split
    · exact absurd rfl (h _ _)
    · exact readDecimal_eq cs

end Forms

end Number
end Lexeme
end GoSyntax
