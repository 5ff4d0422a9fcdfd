import GoSyntax.Source.Utf8

/-! The octet machine of UTF-8 against the standard encoding: what is encoded is decoded again, and
octets that decode without a fault are the encoding of what they decode to. -/
namespace GoSyntax

/-- The bytes of a text. -/
def Text.encode (s : Text) : List UInt8 := s.flatMap String.utf8EncodeChar

@[simp] theorem Text.encode_nil : Text.encode [] = [] := rfl

@[simp] theorem Text.encode_cons (c : Char) (s : Text) :
    Text.encode (c :: s) = String.utf8EncodeChar c ++ Text.encode s := rfl

@[simp] theorem Text.encode_append (s t : Text) :
    Text.encode (s ++ t) = Text.encode s ++ Text.encode t := List.flatMap_append

@[simp] theorem Text.length_encode (s : Text) : (Text.encode s).length = Text.byteLength s := by
  induction s with
  | nil => rfl
  | cons c s ih => simp [ih]

namespace Utf8

theorem toNat_ofNat {n : Nat} (h : n.isValidChar) : (Char.ofNat n).toNat = n := by
  rw [Char.ofNat, dif_pos h]
  rfl

section Lead

variable {b : UInt8}

theorem lead_one (h₀ : b.toNat ≠ 0) (h : b.toNat < 0x80) :
    lead b = .glyph (.ok (Char.ofNat b.toNat)) := by
  have hz : b ≠ 0 := by
    intro hb
    exact h₀ (by simp [hb])
  have hb : b < 0x80 := UInt8.lt_iff_toNat_lt.2 h
  simp [lead, hz, hb]

theorem lead_two (h : 0xC2 ≤ b.toNat) (h' : b.toNat < 0xE0) :
    lead b = .sequence { bits := b.toNat % 32, missing := 0 } := by
  have h₀ : b ≠ 0 := by
    intro hb
    simp [hb] at h
  simp only [lead, h₀, UInt8.lt_iff_toNat_lt, UInt8.reduceToNat, if_false]
  rw [if_neg (by omega), if_neg (by omega), if_pos h']

theorem lead_three (h : 0xE0 ≤ b.toNat) (h' : b.toNat < 0xF0) :
    lead b = .sequence
      { bits := b.toNat % 16, missing := 1,
        low := if b = 0xE0 then 0xA0 else 0x80,
        high := if b = 0xED then 0x9F else 0xBF } := by
  have h₀ : b ≠ 0 := by
    intro hb
    simp [hb] at h
  simp only [lead, h₀, UInt8.lt_iff_toNat_lt, UInt8.reduceToNat, if_false]
  rw [if_neg (by omega), if_neg (by omega), if_neg (by omega), if_pos h']

theorem lead_four (h : 0xF0 ≤ b.toNat) (h' : b.toNat < 0xF5) :
    lead b = .sequence
      { bits := b.toNat % 8, missing := 2,
        low := if b = 0xF0 then 0x90 else 0x80,
        high := if b = 0xF4 then 0x8F else 0xBF } := by
  have h₀ : b ≠ 0 := by
    intro hb
    simp [hb] at h
  simp only [lead, h₀, UInt8.lt_iff_toNat_lt, UInt8.reduceToNat, if_false]
  rw [if_neg (by omega), if_neg (by omega), if_neg (by omega), if_neg (by omega), if_pos h']

theorem lead_stray (h : 0x80 ≤ b.toNat ∧ b.toNat < 0xC2 ∨ 0xF5 ≤ b.toNat) :
    lead b = .glyph (.error .invalidUtf8) := by
  have h₀ : b ≠ 0 := by
    intro hb
    simp [hb] at h
  simp only [lead, h₀, UInt8.lt_iff_toNat_lt, UInt8.reduceToNat, if_false]
  rw [if_neg (by omega)]
  by_cases h₂ : b.toNat < 0xC2
  · rw [if_pos h₂]
  · rw [if_neg h₂, if_neg (by omega), if_neg (by omega), if_neg (by omega)]

end Lead

section Sequence

variable {b₀ b₁ b₂ b₃ : UInt8}

/-- Bytes that may follow a first byte. -/
def IsContinuation (b : UInt8) : Prop := 0x80 ≤ b.toNat ∧ b.toNat ≤ 0xBF

theorem byte_ofNat {n : Nat} {b : UInt8} (h : n % 256 = b.toNat) : UInt8.ofNat n = b := by
  apply UInt8.toNat_inj.1
  simpa using h

theorem encode_one (h₀ : b₀.toNat < 0x80) :
    String.utf8EncodeChar (Char.ofNat b₀.toNat) = [b₀] := by
  have hc : (Char.ofNat b₀.toNat).val.toNat = b₀.toNat := toNat_ofNat (Or.inl (by omega))
  simp only [String.utf8EncodeChar, hc]
  rw [if_pos (by omega), UInt8.ofNat_toNat]

theorem encode_two (h₀ : 0xC2 ≤ b₀.toNat ∧ b₀.toNat < 0xE0) (h₁ : IsContinuation b₁) :
    String.utf8EncodeChar (Char.ofNat (b₀.toNat % 32 * 64 + b₁.toNat % 64)) = [b₀, b₁] := by
  obtain ⟨h₁, h₁'⟩ := h₁
  have hc : (Char.ofNat (b₀.toNat % 32 * 64 + b₁.toNat % 64)).val.toNat =
      b₀.toNat % 32 * 64 + b₁.toNat % 64 := toNat_ofNat (Or.inl (by omega))
  simp only [String.utf8EncodeChar, hc]
  rw [if_neg (by omega), if_pos (by omega), byte_ofNat (b := b₀) (by omega),
    byte_ofNat (b := b₁) (by omega)]

theorem encode_three (h₀ : 0xE0 ≤ b₀.toNat ∧ b₀.toNat < 0xF0) (h₁ : IsContinuation b₁)
    (low : b₀.toNat = 0xE0 → 0xA0 ≤ b₁.toNat) (high : b₀.toNat = 0xED → b₁.toNat ≤ 0x9F)
    (h₂ : IsContinuation b₂) :
    String.utf8EncodeChar
      (Char.ofNat ((b₀.toNat % 16 * 64 + b₁.toNat % 64) * 64 + b₂.toNat % 64)) = [b₀, b₁, b₂] := by
  obtain ⟨h₁, h₁'⟩ := h₁
  obtain ⟨h₂, h₂'⟩ := h₂
  generalize hn : (b₀.toNat % 16 * 64 + b₁.toNat % 64) * 64 + b₂.toNat % 64 = n
  have hv : n.isValidChar := by
    by_cases h : b₀.toNat < 0xEE
    · exact Or.inl (by omega)
    · exact Or.inr (by omega)
  have hc : (Char.ofNat n).val.toNat = n := toNat_ofNat hv
  simp only [String.utf8EncodeChar, hc]
  rw [if_neg (by omega), if_neg (by omega), if_pos (by omega), byte_ofNat (b := b₀) (by omega),
    byte_ofNat (b := b₁) (by omega), byte_ofNat (b := b₂) (by omega)]

theorem encode_four (h₀ : 0xF0 ≤ b₀.toNat ∧ b₀.toNat < 0xF5) (h₁ : IsContinuation b₁)
    (low : b₀.toNat = 0xF0 → 0x90 ≤ b₁.toNat) (high : b₀.toNat = 0xF4 → b₁.toNat ≤ 0x8F)
    (h₂ : IsContinuation b₂) (h₃ : IsContinuation b₃) :
    String.utf8EncodeChar (Char.ofNat
      (((b₀.toNat % 8 * 64 + b₁.toNat % 64) * 64 + b₂.toNat % 64) * 64 + b₃.toNat % 64)) =
      [b₀, b₁, b₂, b₃] := by
  obtain ⟨h₁, h₁'⟩ := h₁
  obtain ⟨h₂, h₂'⟩ := h₂
  obtain ⟨h₃, h₃'⟩ := h₃
  generalize hn :
    ((b₀.toNat % 8 * 64 + b₁.toNat % 64) * 64 + b₂.toNat % 64) * 64 + b₃.toNat % 64 = n
  have hv : n.isValidChar := Or.inr (by omega)
  have hc : (Char.ofNat n).val.toNat = n := toNat_ofNat hv
  simp only [String.utf8EncodeChar, hc]
  rw [if_neg (by omega), if_neg (by omega), if_neg (by omega), byte_ofNat (b := b₀) (by omega),
    byte_ofNat (b := b₁) (by omega), byte_ofNat (b := b₂) (by omega),
    byte_ofNat (b := b₃) (by omega)]

end Sequence

section Machine

variable {s : Sequence} {b : UInt8} {c : Char}

theorem decodeFrom_last (hm : s.missing = 0) (h : s.low ≤ b ∧ b ≤ s.high) (rest : List Octet) :
    decodeFrom (some s) (.ok b :: rest) =
      .ok (Char.ofNat (s.bits * 64 + b.toNat % 64)) :: decodeFrom none rest := by
  simp only [decodeFrom, h, hm, and_self, if_true]

theorem decodeFrom_more {n : Nat} (hm : s.missing = n + 1) (h : s.low ≤ b ∧ b ≤ s.high)
    (rest : List Octet) :
    decodeFrom (some s) (.ok b :: rest) =
      decodeFrom (some { bits := s.bits * 64 + b.toNat % 64, missing := n }) rest := by
  simp only [decodeFrom, h, hm, and_self, if_true]

theorem decodeFrom_stray (h : ¬(s.low ≤ b ∧ b ≤ s.high)) (rest : List Octet) :
    decodeFrom (some s) (.ok b :: rest) = .error .invalidUtf8 :: decodeFrom none rest := by
  simp only [decodeFrom, h, if_false]

theorem decodeFrom_glyph {g : Glyph} (h : lead b = .glyph g) (rest : List Octet) :
    decodeFrom none (.ok b :: rest) = g :: decodeFrom none rest := by
  simp only [decodeFrom, h]

theorem decodeFrom_sequence (h : lead b = .sequence s) (rest : List Octet) :
    decodeFrom none (.ok b :: rest) = decodeFrom (some s) rest := by
  simp only [decodeFrom, h]

theorem within_iff {low high : UInt8} :
    low ≤ b ∧ b ≤ high ↔ low.toNat ≤ b.toNat ∧ b.toNat ≤ high.toNat := Iff.rfl

theorem IsContinuation.within (h : IsContinuation b) : 0x80 ≤ b ∧ b ≤ 0xBF := within_iff.2 h

theorem decodeFrom_two {b₀ b₁ : UInt8} (h₀ : 0xC2 ≤ b₀.toNat ∧ b₀.toNat < 0xE0)
    (h₁ : IsContinuation b₁) (rest : List Octet) :
    decodeFrom none (.ok b₀ :: .ok b₁ :: rest) =
      .ok (Char.ofNat (b₀.toNat % 32 * 64 + b₁.toNat % 64)) :: decodeFrom none rest := by
  rw [decodeFrom_sequence (lead_two h₀.1 h₀.2), decodeFrom_last rfl h₁.within]

theorem decodeFrom_three {b₀ b₁ b₂ : UInt8} (h₀ : 0xE0 ≤ b₀.toNat ∧ b₀.toNat < 0xF0)
    (h₁ : (if b₀ = 0xE0 then (0xA0 : UInt8) else 0x80) ≤ b₁ ∧
      b₁ ≤ if b₀ = 0xED then (0x9F : UInt8) else 0xBF)
    (h₂ : IsContinuation b₂) (rest : List Octet) :
    decodeFrom none (.ok b₀ :: .ok b₁ :: .ok b₂ :: rest) =
      .ok (Char.ofNat ((b₀.toNat % 16 * 64 + b₁.toNat % 64) * 64 + b₂.toNat % 64)) ::
        decodeFrom none rest := by
  rw [decodeFrom_sequence (lead_three h₀.1 h₀.2), decodeFrom_more rfl h₁,
    decodeFrom_last rfl h₂.within]

theorem decodeFrom_four {b₀ b₁ b₂ b₃ : UInt8} (h₀ : 0xF0 ≤ b₀.toNat ∧ b₀.toNat < 0xF5)
    (h₁ : (if b₀ = 0xF0 then (0x90 : UInt8) else 0x80) ≤ b₁ ∧
      b₁ ≤ if b₀ = 0xF4 then (0x8F : UInt8) else 0xBF)
    (h₂ : IsContinuation b₂) (h₃ : IsContinuation b₃) (rest : List Octet) :
    decodeFrom none (.ok b₀ :: .ok b₁ :: .ok b₂ :: .ok b₃ :: rest) =
      .ok (Char.ofNat
        (((b₀.toNat % 8 * 64 + b₁.toNat % 64) * 64 + b₂.toNat % 64) * 64 + b₃.toNat % 64)) ::
        decodeFrom none rest := by
  rw [decodeFrom_sequence (lead_four h₀.1 h₀.2), decodeFrom_more rfl h₁,
    decodeFrom_more rfl h₂.within, decodeFrom_last rfl h₃.within]

/-- The bounds on a second byte, where one first byte raises the lower and another lowers the
upper. -/
theorem bounds_iff {b₀ b₁ x y low high : UInt8} :
    ((if b₀ = x then low else 0x80) ≤ b₁ ∧ b₁ ≤ if b₀ = y then high else 0xBF) ↔
      ((b₀.toNat = x.toNat → low.toNat ≤ b₁.toNat) ∧ (b₀.toNat ≠ x.toNat → 0x80 ≤ b₁.toNat)) ∧
        (b₀.toNat = y.toNat → b₁.toNat ≤ high.toNat) ∧ (b₀.toNat ≠ y.toNat → b₁.toNat ≤ 0xBF) := by
  simp only [ne_eq, UInt8.toNat_inj, UInt8.le_iff_toNat_le]
  refine and_congr ?_ ?_
  · by_cases hx : b₀ = x <;> simp [hx]
  · by_cases hy : b₀ = y <;> simp [hy]

theorem toNat_byte {n : Nat} (h : n < 256) : (UInt8.ofNat n).toNat = n := by
  simpa using h

/-- What is encoded is decoded again. Only the NUL character has no place in a source. -/
theorem decodeFrom_encode (hc : c ≠ '\x00') (rest : List Octet) :
    decodeFrom none ((String.utf8EncodeChar c).map .ok ++ rest) =
      .ok c :: decodeFrom none rest := by
  have hv : c.val.toNat < 0xD800 ∨ 0xDFFF < c.val.toNat ∧ c.val.toNat < 0x110000 := c.valid
  have h₀ : c.val.toNat ≠ 0 := by
    intro h
    exact hc (Char.ext (UInt32.toNat_inj.1 h))
  have hback : Char.ofNat c.val.toNat = c := Char.ofNat_toNat c
  simp only [String.utf8EncodeChar]
  generalize c.val.toNat = v at hv h₀ hback
  by_cases h₁ : v ≤ 0x7F
  · have hb := toNat_byte (n := v) (by omega)
    rw [if_pos h₁, ← hback]
    have hl := lead_one (b := UInt8.ofNat v) (by omega) (by omega)
    rw [hb] at hl
    exact decodeFrom_glyph hl rest
  rw [if_neg h₁]
  by_cases h₂ : v ≤ 0x7FF
  · have hb₀ := toNat_byte (n := v / 64 % 32 + 0xC0) (by omega)
    have hb₁ := toNat_byte (n := v % 64 + 0x80) (by omega)
    rw [if_pos h₂]
    refine (decodeFrom_two (by omega) ⟨by omega, by omega⟩ rest).trans ?_
    rw [hb₀, hb₁, ← hback]
    congr 3
    omega
  rw [if_neg h₂]
  by_cases h₃ : v ≤ 0xFFFF
  · have hb₀ := toNat_byte (n := v / 4096 % 16 + 0xE0) (by omega)
    have hb₁ := toNat_byte (n := v / 64 % 64 + 0x80) (by omega)
    have hb₂ := toNat_byte (n := v % 64 + 0x80) (by omega)
    rw [if_pos h₃]
    refine (decodeFrom_three (by omega) ?_ ⟨by omega, by omega⟩ rest).trans ?_
    · rw [bounds_iff, hb₀, hb₁]
      simp only [UInt8.reduceToNat]
      omega
    · rw [hb₀, hb₁, hb₂, ← hback]
      congr 3
      omega
  · have hb₀ := toNat_byte (n := v / 262144 % 8 + 0xF0) (by omega)
    have hb₁ := toNat_byte (n := v / 4096 % 64 + 0x80) (by omega)
    have hb₂ := toNat_byte (n := v / 64 % 64 + 0x80) (by omega)
    have hb₃ := toNat_byte (n := v % 64 + 0x80) (by omega)
    rw [if_neg h₃]
    refine (decodeFrom_four (by omega) ?_ ⟨by omega, by omega⟩ ⟨by omega, by omega⟩ rest).trans ?_
    · rw [bounds_iff, hb₀, hb₁]
      simp only [UInt8.reduceToNat]
      omega
    · rw [hb₀, hb₁, hb₂, hb₃, ← hback]
      congr 3
      omega

theorem decode_encode {s : Text} (hs : '\x00' ∉ s) :
    decode ((Text.encode s).map .ok) = s.map .ok := by
  induction s with
  | nil => rfl
  | cons c s ih =>
    rw [List.mem_cons, not_or] at hs
    have hc := decodeFrom_encode (Ne.symm hs.1) ((Text.encode s).map .ok)
    simp only [Text.encode_cons, List.map_append, List.map_cons]
    exact hc.trans (congrArg (List.cons _) (ih hs.2))

/-- Within an open sequence there is a fault next, or a byte within the bounds. -/
theorem open_cases (s : Sequence) (bytes : List UInt8) :
    (∃ fault gs, decodeFrom (some s) (bytes.map .ok) = .error fault :: gs) ∨
      ∃ b rest, bytes = b :: rest ∧ s.low ≤ b ∧ b ≤ s.high := by
  cases bytes with
  | nil => exact Or.inl ⟨_, _, rfl⟩
  | cons b rest =>
    by_cases h : s.low ≤ b ∧ b ≤ s.high
    · exact Or.inr ⟨b, rest, rfl, h⟩
    · exact Or.inl ⟨_, _, decodeFrom_stray h _⟩

/-- The octets of one character at the front of `bytes`, and what is behind them. -/
def Opens (bytes : List UInt8) (c : Char) (rest : List UInt8) : Prop :=
  bytes = String.utf8EncodeChar c ++ rest ∧
    decode (bytes.map .ok) = .ok c :: decode (rest.map .ok)

theorem opens_two {b₀ : UInt8} (h₀ : 0xC2 ≤ b₀.toNat ∧ b₀.toNat < 0xE0) (bytes : List UInt8) :
    (∃ fault gs, decode ((b₀ :: bytes).map .ok) = .error fault :: gs) ∨
      ∃ c rest, Opens (b₀ :: bytes) c rest := by
  rw [List.map_cons, decode, decodeFrom_sequence (lead_two h₀.1 h₀.2)]
  rcases open_cases _ bytes with h | ⟨b₁, rest, rfl, h₁⟩
  · exact Or.inl h
  · refine Or.inr ⟨_, rest, ?_, decodeFrom_two h₀ h₁ _⟩
    rw [encode_two h₀ h₁]
    rfl

theorem opens_three {b₀ : UInt8} (h₀ : 0xE0 ≤ b₀.toNat ∧ b₀.toNat < 0xF0) (bytes : List UInt8) :
    (∃ fault gs, decode ((b₀ :: bytes).map .ok) = .error fault :: gs) ∨
      ∃ c rest, Opens (b₀ :: bytes) c rest := by
  rw [List.map_cons, decode, decodeFrom_sequence (lead_three h₀.1 h₀.2)]
  rcases open_cases _ bytes with h | ⟨b₁, rest, rfl, h₁⟩
  · exact Or.inl h
  rw [List.map_cons, decodeFrom_more rfl h₁]
  rcases open_cases _ rest with h | ⟨b₂, rest, rfl, h₂⟩
  · exact Or.inl h
  · refine Or.inr ⟨_, rest, ?_, decodeFrom_three h₀ h₁ h₂ _⟩
    have hb := bounds_iff.1 h₁
    simp only [UInt8.reduceToNat] at hb
    rw [encode_three h₀ ⟨by omega, by omega⟩ hb.1.1 hb.2.1 h₂]
    rfl

theorem opens_four {b₀ : UInt8} (h₀ : 0xF0 ≤ b₀.toNat ∧ b₀.toNat < 0xF5) (bytes : List UInt8) :
    (∃ fault gs, decode ((b₀ :: bytes).map .ok) = .error fault :: gs) ∨
      ∃ c rest, Opens (b₀ :: bytes) c rest := by
  rw [List.map_cons, decode, decodeFrom_sequence (lead_four h₀.1 h₀.2)]
  rcases open_cases _ bytes with h | ⟨b₁, rest, rfl, h₁⟩
  · exact Or.inl h
  rw [List.map_cons, decodeFrom_more rfl h₁]
  rcases open_cases _ rest with h | ⟨b₂, rest, rfl, h₂⟩
  · exact Or.inl h
  rw [List.map_cons, decodeFrom_more rfl h₂]
  rcases open_cases _ rest with h | ⟨b₃, rest, rfl, h₃⟩
  · exact Or.inl h
  · refine Or.inr ⟨_, rest, ?_, decodeFrom_four h₀ h₁ h₂ h₃ _⟩
    have hb := bounds_iff.1 h₁
    simp only [UInt8.reduceToNat] at hb
    rw [encode_four h₀ ⟨by omega, by omega⟩ hb.1.1 hb.2.1 h₂ h₃]
    rfl

/-- Octets open with a fault or with the encoding of a character. -/
theorem opens_cases (b₀ : UInt8) (bytes : List UInt8) :
    (∃ fault gs, decode ((b₀ :: bytes).map .ok) = .error fault :: gs) ∨
      ∃ c rest, Opens (b₀ :: bytes) c rest := by
  by_cases hz : b₀.toNat = 0
  · obtain rfl : b₀ = 0 := UInt8.toNat_inj.1 hz
    exact Or.inl ⟨_, _, rfl⟩
  by_cases h₁ : b₀.toNat < 0x80
  · refine Or.inr ⟨_, bytes, ?_, decodeFrom_glyph (lead_one hz h₁) _⟩
    rw [encode_one h₁]
    rfl
  by_cases h₂ : b₀.toNat < 0xC2
  · exact Or.inl ⟨_, _, decodeFrom_glyph (lead_stray (Or.inl ⟨by omega, h₂⟩)) _⟩
  by_cases h₃ : b₀.toNat < 0xE0
  · exact opens_two ⟨by omega, h₃⟩ bytes
  by_cases h₄ : b₀.toNat < 0xF0
  · exact opens_three ⟨by omega, h₄⟩ bytes
  by_cases h₅ : b₀.toNat < 0xF5
  · exact opens_four ⟨by omega, h₅⟩ bytes
  · exact Or.inl ⟨_, _, decodeFrom_glyph (lead_stray (Or.inr (by omega))) _⟩

/-- Octets that decode without a fault are the encoding of what they decode to. -/
theorem encode_of_decode {bytes : List UInt8} {s : Text}
    (h : decode (bytes.map .ok) = s.map .ok) : Text.encode s = bytes := by
  induction s generalizing bytes with
  | nil =>
    cases bytes with
    | nil => rfl
    | cons b bytes => rcases opens_cases b bytes with ⟨_, _, hf⟩ | ⟨c, rest, -, hd⟩ <;> simp_all
  | cons c s ih =>
    cases bytes with
    | nil => simp [decode, decodeFrom] at h
    | cons b bytes =>
      rcases opens_cases b bytes with ⟨_, _, hf⟩ | ⟨c', rest, hb, hd⟩
      · rw [hf] at h
        simp at h
      · rw [hd, List.map_cons, List.cons.injEq, Except.ok.injEq] at h
        rw [hb, Text.encode_cons, h.1, ih h.2]

/-- However an open sequence is closed, it gives a code point, and not that of NUL. -/
def Closes : (missing bits : Nat) → (low high : UInt8) → Prop
  | 0, bits, low, high => ∀ b, low ≤ b ∧ b ≤ high →
    (bits * 64 + b.toNat % 64).isValidChar ∧ bits * 64 + b.toNat % 64 ≠ 0
  | n + 1, bits, low, high => ∀ b, low ≤ b ∧ b ≤ high →
    Closes n (bits * 64 + b.toNat % 64) 0x80 0xBF

theorem closes_last {bits : Nat} (h : 2 ≤ bits ∧ bits ≤ 863 ∨ 896 ≤ bits ∧ bits ≤ 17407) :
    Closes 0 bits 0x80 0xBF := by
  intro b _
  have hlt := Nat.mod_lt b.toNat (show 0 < 64 by decide)
  refine ⟨?_, by omega⟩
  simp only [Nat.isValidChar]
  omega

theorem closes_lead {b : UInt8} (h : lead b = .sequence s) :
    Closes s.missing s.bits s.low s.high := by
  by_cases h₂ : b.toNat < 0xC2
  · have hg : ∃ g, lead b = .glyph g := by
      by_cases hz : b.toNat = 0
      · obtain rfl : b = 0 := UInt8.toNat_inj.1 hz
        exact ⟨_, rfl⟩
      by_cases h₁ : b.toNat < 0x80
      · exact ⟨_, lead_one hz h₁⟩
      · exact ⟨_, lead_stray (Or.inl ⟨by omega, h₂⟩)⟩
    obtain ⟨g, hg⟩ := hg
    rw [hg] at h
    cases h
  by_cases h₃ : b.toNat < 0xE0
  · rw [lead_two (by omega) h₃] at h
    cases h
    have hbits : 2 ≤ b.toNat % 32 ∧ b.toNat % 32 ≤ 863 := by omega
    exact closes_last (Or.inl hbits)
  by_cases h₄ : b.toNat < 0xF0
  · rw [lead_three (by omega) h₄] at h
    cases h
    intro b₁ hb
    have hb := bounds_iff.1 hb
    simp only [UInt8.reduceToNat] at hb ⊢
    exact closes_last (by omega)
  by_cases h₅ : b.toNat < 0xF5
  · rw [lead_four (by omega) h₅] at h
    cases h
    intro b₁ hb b₂ hb₂
    have hb := bounds_iff.1 hb
    simp only [UInt8.reduceToNat] at hb ⊢
    exact closes_last (by omega)
  · rw [lead_stray (Or.inr (by omega))] at h
    cases h

theorem ofNat_ne_nul {n : Nat} (h : n.isValidChar) (hz : n ≠ 0) : Char.ofNat n ≠ '\x00' := by
  intro heq
  have hn := toNat_ofNat h
  rw [heq] at hn
  exact hz hn.symm

theorem lead_ne_nul (h : lead b = .glyph (.ok c)) : c ≠ '\x00' := by
  unfold lead at h
  split at h
  · cases h
  split at h
  · rename_i hz hlt
    have hlt' : b.toNat < 0x80 := UInt8.lt_iff_toNat_lt.1 hlt
    cases h
    refine ofNat_ne_nul (Or.inl (by omega)) ?_
    intro h₀
    exact hz (UInt8.toNat_inj.1 h₀)
  repeat' split at h
  all_goals cases h

theorem decodeFrom_ne_nul {open? : Option Sequence} {octets : List Octet}
    (h : ∀ s, open? = some s → Closes s.missing s.bits s.low s.high) :
    ∀ c, .ok c ∈ decodeFrom open? octets → c ≠ '\x00' := by
  induction octets generalizing open? with
  | nil => cases open? <;> simp [decodeFrom]
  | cons o octets ih =>
    have hnone := @ih none (by simp)
    intro c hc
    cases o with
    | error reason =>
      have heq : decodeFrom open? (.error reason :: octets) =
          .error (.read reason) :: decodeFrom none octets := by
        cases open? <;> rfl
      rw [heq] at hc
      simp only [List.mem_cons, reduceCtorEq, false_or] at hc
      exact hnone c hc
    | ok b =>
      cases open? with
      | none =>
        cases hl : lead b with
        | sequence s =>
          rw [decodeFrom_sequence hl] at hc
          exact ih (by rintro _ ⟨⟩; exact closes_lead hl) c hc
        | glyph g =>
          rw [decodeFrom_glyph hl, List.mem_cons] at hc
          rcases hc with rfl | hc
          · exact lead_ne_nul hl
          · exact hnone c hc
      | some s =>
        have hs := h s rfl
        by_cases hb : s.low ≤ b ∧ b ≤ s.high
        · cases hm : s.missing with
          | zero =>
            rw [decodeFrom_last hm hb, List.mem_cons] at hc
            rw [hm] at hs
            rcases hc with hc | hc
            · cases hc
              exact ofNat_ne_nul (hs b hb).1 (hs b hb).2
            · exact hnone c hc
          | succ n =>
            rw [decodeFrom_more hm hb] at hc
            rw [hm] at hs
            exact ih (by rintro _ ⟨⟩; exact hs b hb) c hc
        · rw [decodeFrom_stray hb] at hc
          simp only [List.mem_cons, reduceCtorEq, false_or] at hc
          exact hnone c hc

/-- No source decodes to the NUL character. -/
theorem decode_ne_nul {octets : List Octet} {c : Char} (h : .ok c ∈ decode octets) : c ≠ '\x00' :=
  decodeFrom_ne_nul (by simp) c h

end Machine
end Utf8
end GoSyntax
