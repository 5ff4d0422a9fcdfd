import GoSyntax.Source.Feed

/-! UTF-8 decoding as an octet machine. Each fault costs the octets read for it and no more, so
decoding goes on behind it. -/
namespace GoSyntax
namespace Utf8

/-- A character, or the fault met in its place. -/
abbrev Glyph := Except Fault Char

/-- A sequence that was begun: the bits so far, how many bytes are missing after the next one, and
the bounds of the next one. -/
structure Sequence where
  bits : Nat
  missing : Nat
  low : UInt8 := 0x80
  high : UInt8 := 0xBF
  deriving Repr

/-- What a first byte means. -/
inductive Lead
  | glyph (g : Glyph)
  | sequence (s : Sequence)

/-- Reads a first byte. The bounds on the second byte shut out overlong forms, surrogates and
values above U+10FFFF. -/
def lead (b : UInt8) : Lead :=
  if b = 0 then .glyph (.error .nul)
  else if b < 0x80 then .glyph (.ok (Char.ofNat b.toNat))
  else if b < 0xC2 then .glyph (.error .invalidUtf8)
  else if b < 0xE0 then .sequence { bits := b.toNat % 32, missing := 0 }
  else if b < 0xF0 then
    .sequence { bits := b.toNat % 16, missing := 1,
                low := if b = 0xE0 then 0xA0 else 0x80,
                high := if b = 0xED then 0x9F else 0xBF }
  else if b < 0xF5 then
    .sequence { bits := b.toNat % 8, missing := 2,
                low := if b = 0xF0 then 0x90 else 0x80,
                high := if b = 0xF4 then 0x8F else 0xBF }
  else .glyph (.error .invalidUtf8)

/-- The characters and faults of an octet stream, with the sequence that is open at its start. -/
def decodeFrom : Option Sequence → List Octet → List Glyph
  | none, [] => []
  | some _, [] => [.error .invalidUtf8]
  | _, .error reason :: rest => .error (.read reason) :: decodeFrom none rest
  | none, .ok b :: rest =>
    match lead b with
    | .glyph g => g :: decodeFrom none rest
    | .sequence s => decodeFrom (some s) rest
  | some s, .ok b :: rest =>
    if s.low ≤ b ∧ b ≤ s.high then
      let bits := s.bits * 64 + b.toNat % 64
      match s.missing with
      | 0 => .ok (Char.ofNat bits) :: decodeFrom none rest
      | n + 1 => decodeFrom (some { bits, missing := n }) rest
    else .error .invalidUtf8 :: decodeFrom none rest

def decode (octets : List Octet) : List Glyph := decodeFrom none octets

end Utf8
end GoSyntax
