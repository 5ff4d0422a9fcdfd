/-! Where things stand in a source: text, lines and columns for people, byte ranges for programs. -/
namespace GoSyntax

/-- Source text, kept as its characters. -/
abbrev Text := List Char

/-- Number of bytes that a text takes in UTF-8. -/
def Text.byteLength : Text → Nat
  | [] => 0
  | c :: s => c.utf8Size + Text.byteLength s

@[simp] theorem Text.byteLength_nil : Text.byteLength [] = 0 := rfl

@[simp] theorem Text.byteLength_cons (c : Char) (s : Text) :
    Text.byteLength (c :: s) = c.utf8Size + Text.byteLength s := rfl

@[simp] theorem Text.byteLength_append (s t : Text) :
    Text.byteLength (s ++ t) = Text.byteLength s + Text.byteLength t := by
  induction s with
  | nil => simp
  | cons c s ih => simp [ih, Nat.add_assoc]

/-- Offsets and the columns that tokens end in are 32-bit counts; what lies beyond is held at the
largest of them. -/
def counterMax : Nat := 4294967295

/-- File name, line and column of a character, both counted from one in characters. Stepping past
characters counts on without end, also where a source has more than `counterMax` lines, or
characters on a line. -/
structure Position where
  file : String
  line : Nat
  column : Nat
  deriving DecidableEq, Repr

namespace Position

def start (file : String) : Position := ⟨file, 1, 1⟩

/-- The position after `c`: a line feed opens a new line, anything else takes one column. -/
def advance (p : Position) (c : Char) : Position :=
  if c = '\n' then { p with line := p.line + 1, column := 1 }
  else { p with column := p.column + 1 }

/-- The position `n` columns to the right, held at the largest column. -/
def moved (p : Position) (n : Nat) : Position :=
  { p with column := min (p.column + min n counterMax) counterMax }

def render (p : Position) : String := s!"{p.file}:{p.line}:{p.column}"

/-- Source order of two positions of one file. -/
def le (p q : Position) : Prop := p.line < q.line ∨ p.line = q.line ∧ p.column ≤ q.column

instance : LE Position := ⟨le⟩

instance (p q : Position) : Decidable (p ≤ q) :=
  inferInstanceAs (Decidable (p.line < q.line ∨ p.line = q.line ∧ p.column ≤ q.column))

@[simp] theorem advance_newline (p : Position) :
    p.advance '\n' = { p with line := p.line + 1, column := 1 } := rfl

theorem advance_of_ne {c : Char} (p : Position) (h : c ≠ '\n') :
    p.advance c = { p with column := p.column + 1 } := by simp [advance, h]

@[simp] theorem moved_line (p : Position) (n : Nat) : (p.moved n).line = p.line := rfl

end Position

/-- A half-open range of byte offsets. -/
structure Span where
  start : Nat
  stop : Nat
  deriving DecidableEq, Repr

namespace Span

/-- The range from `start` to `stop`, both held at the largest offset. -/
def ofBounds (start stop : Nat) : Span := ⟨min start counterMax, min stop counterMax⟩

def emptyAt (offset : Nat) : Span := ofBounds offset offset

def length (s : Span) : Nat := s.stop - s.start

def isEmpty (s : Span) : Bool := s.length == 0

@[simp] theorem isEmpty_emptyAt (n : Nat) : (emptyAt n).isEmpty = true := by
  simp [isEmpty, emptyAt, ofBounds, length]

end Span

/-- A place in a source: its position and the number of bytes before it. -/
structure Mark where
  pos : Position
  offset : Nat
  deriving DecidableEq, Repr

namespace Mark

def origin (file : String) : Mark := ⟨.start file, 0⟩

/-- The byte order mark. -/
def bom : Char := '\uFEFF'

/-- The place after `c`. A byte order mark that opens the source takes no column. -/
def past (m : Mark) (c : Char) : Mark :=
  ⟨if c = bom ∧ m.offset = 0 then m.pos else m.pos.advance c, m.offset + c.utf8Size⟩

/-- The place after all of `s`. -/
def pastAll (m : Mark) (s : Text) : Mark := s.foldl past m

@[simp] theorem pastAll_nil (m : Mark) : m.pastAll [] = m := rfl

@[simp] theorem pastAll_cons (m : Mark) (c : Char) (s : Text) :
    m.pastAll (c :: s) = (m.past c).pastAll s := rfl

@[simp] theorem pastAll_append (m : Mark) (s t : Text) :
    m.pastAll (s ++ t) = (m.pastAll s).pastAll t := List.foldl_append

@[simp] theorem past_offset (m : Mark) (c : Char) : (m.past c).offset = m.offset + c.utf8Size := rfl

theorem pastAll_offset (m : Mark) (s : Text) :
    (m.pastAll s).offset = m.offset + Text.byteLength s := by
  induction s generalizing m with
  | nil => rfl
  | cons c s ih => simp [ih, Nat.add_assoc]

end Mark
end GoSyntax
