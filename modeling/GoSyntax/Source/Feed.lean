import GoSyntax.Location

/-! Byte sources as they are delivered: data in pieces, interruptions and failures. -/
namespace GoSyntax

/-- Why the next character of a source could not be had. -/
inductive Fault
  | invalidUtf8
  | nul
  | read (reason : String)
  deriving DecidableEq, Repr

/-- One thing a byte source does when it is asked for more. -/
inductive Delivery
  | data (bytes : List UInt8)
  /-- The request was interrupted and has to be repeated. -/
  | interruption
  /-- The request failed; the one after it goes on behind the failure. -/
  | failure (reason : String)
  deriving Repr

/-- A byte source, as all it will deliver. -/
abbrev Feed := List Delivery

/-- What one request for a byte gives: the byte, or the text of a failure. -/
abbrev Octet := Except String UInt8

namespace Delivery

def octets : Delivery → List Octet
  | data bytes => bytes.map .ok
  | interruption => []
  | failure reason => [.error reason]

end Delivery

namespace Feed

def ofBytes (bytes : List UInt8) : Feed := [.data bytes]

def ofText (s : Text) : Feed := ofBytes (s.flatMap String.utf8EncodeChar)

/-- The answers to successive requests for a byte. How the data is cut into pieces, and where
requests are interrupted, leaves no trace here. -/
def octets (feed : Feed) : List Octet := feed.flatMap Delivery.octets

@[simp] theorem octets_ofBytes (bytes : List UInt8) : octets (ofBytes bytes) = bytes.map .ok := by
  simp [octets, ofBytes, Delivery.octets]

@[simp] theorem octets_append (f g : Feed) : octets (f ++ g) = octets f ++ octets g := by
  simp [octets]

end Feed
end GoSyntax
