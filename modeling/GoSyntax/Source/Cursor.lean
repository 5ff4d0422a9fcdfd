import GoSyntax.Source.Utf8

/-! A place in a decoded source with all that lies ahead of it. Characters ahead come in runs that
faults separate, so whatever reads a source reads plain text up to the next fault. -/
namespace GoSyntax

/-- A fault and the run of characters behind it. -/
structure Break where
  fault : Fault
  run : Text
  deriving DecidableEq, Repr

/-- Cuts decoded characters into the run before the first fault and what follows. -/
def Break.split : List Utf8.Glyph → Text × List Break
  | [] => ([], [])
  | .ok c :: rest =>
    let (run, breaks) := split rest
    (c :: run, breaks)
  | .error fault :: rest =>
    let (run, breaks) := split rest
    ([], ⟨fault, run⟩ :: breaks)

/-- How many characters and faults there are from the first of the breaks on. -/
def Break.count : List Break → Nat
  | [] => 0
  | b :: bs => b.run.length + 1 + count bs

/-- The unread characters up to the next fault, the faults with the runs behind them, and the place
of the first unread character. -/
structure Cursor where
  ahead : Text
  breaks : List Break
  mark : Mark
  deriving DecidableEq, Repr

/-- What taking characters gives: those that were taken, the place after them, and the fault that
kept the last of them from being taken. -/
structure Bite where
  taken : Text
  after : Cursor
  fault : Option Fault
  deriving DecidableEq, Repr

namespace Cursor

/-- The start of a source. A fault in place of the first character leaves no place to stand. -/
def ofOctets (file : String) (octets : List Octet) : Except Fault Cursor :=
  match Break.split (Utf8.decode octets) with
  | ([], b :: _) => .error b.fault
  | (run, breaks) => .ok ⟨run, breaks, .origin file⟩

def current? (x : Cursor) : Option Char := x.ahead.head?

def pos (x : Cursor) : Position := x.mark.pos

def offset (x : Cursor) : Nat := x.mark.offset

/-- Nothing is left to read. -/
def atEnd (x : Cursor) : Bool := x.ahead.isEmpty

/-- The cursor `n` characters on, with no regard to faults. -/
def skip (x : Cursor) (n : Nat) : Cursor :=
  { x with ahead := x.ahead.drop n, mark := x.mark.pastAll (x.ahead.take n) }

/-- Takes `n` characters. A character counts as taken once the one after it is known: a fault behind
the last of a run leaves that character ahead, though the place has moved past it. -/
def take (x : Cursor) (n : Nat) : Bite :=
  match x.breaks with
  | [] => ⟨x.ahead.take n, x.skip n, none⟩
  | b :: breaks =>
    if x.ahead.length ≤ n then
      ⟨x.ahead.dropLast,
        ⟨x.ahead.getLast?.toList ++ b.run, breaks, x.mark.pastAll x.ahead⟩, some b.fault⟩
    else ⟨x.ahead.take n, x.skip n, none⟩

/-- Takes one character; at the end of the source nothing changes. -/
def bump (x : Cursor) : Except Fault (Option Char) × Cursor :=
  match x.ahead with
  | [] => (.ok none, x)
  | c :: _ =>
    match x.take 1 with
    | ⟨_, after, none⟩ => (.ok (some c), after)
    | ⟨_, after, some fault⟩ => (.error fault, after)

/-- How many characters and faults lie ahead. -/
def distance (x : Cursor) : Nat := x.ahead.length + Break.count x.breaks

end Cursor
end GoSyntax
