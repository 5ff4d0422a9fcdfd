import GoSyntax.Lexer
import GoSyntax.Proofs.Lexeme.Extent

/-! What one step of the lexer can be, said once for all that is proved about its runs. -/
namespace GoSyntax

namespace Cursor

@[simp] theorem skip_zero (x : Cursor) : x.skip 0 = x := rfl

@[simp] theorem skip_ahead (x : Cursor) (n : Nat) : (x.skip n).ahead = x.ahead.drop n := rfl

@[simp] theorem skip_breaks (x : Cursor) (n : Nat) : (x.skip n).breaks = x.breaks := rfl

@[simp] theorem skip_mark (x : Cursor) (n : Nat) :
    (x.skip n).mark = x.mark.pastAll (x.ahead.take n) := rfl

theorem skip_offset (x : Cursor) (n : Nat) :
    (x.skip n).offset = x.offset + Text.byteLength (x.ahead.take n) :=
  Mark.pastAll_offset _ _

/-- Without a fault, taking characters is skipping them, and a source that is broken further on has
more characters before the break. -/
theorem take_of_fault_none {x : Cursor} {n : Nat} (h : (x.take n).fault = none) :
    x.take n = ⟨x.ahead.take n, x.skip n, none⟩ ∧ (x.breaks = [] ∨ n < x.ahead.length) := by
  unfold take at h ⊢
  cases hb : x.breaks with
  | nil => simp
  | cons b bs =>
    simp only [hb] at h ⊢
    by_cases hn : x.ahead.length ≤ n
    · simp [hn] at h
    · simp [hn, Nat.lt_of_not_le hn]

theorem take_of_breaks_nil {x : Cursor} (h : x.breaks = []) (n : Nat) :
    x.take n = ⟨x.ahead.take n, x.skip n, none⟩ := by
  simp [take, h]

end Cursor

namespace Lexer

theorem blankCount_le (x : Cursor) : blankCount x ≤ x.ahead.length := by
  unfold blankCount
  split
  · rename_i c cs _
    have h₁ := Lexeme.length_takeWhile_le isBlank cs
    have h₂ := Lexeme.length_takeWhile_le isBlank x.ahead
    split
    · simp only [*, List.length_cons]
      omega
    · exact h₂
  · exact Nat.zero_le _

@[simp] theorem gather_cursor (x : Lexer) (bite : Bite) : (x.gather bite).cursor = bite.after := rfl

@[simp] theorem gather_queued (x : Lexer) (bite : Bite) : (x.gather bite).queued = x.queued := rfl

@[simp] theorem gather_ended (x : Lexer) (bite : Bite) : (x.gather bite).ended = x.ended := rfl

section Parts

variable (x : Lexer)

/-- The blanks before the next lexeme. -/
def blanks : Text := x.cursor.ahead.take (blankCount x.cursor)

/-- Where the next lexeme starts. -/
def start : Cursor := x.cursor.skip (blankCount x.cursor)

def reading : Lexeme.Reading Lexeme.Meaning := Lexeme.read x.elides x.start.ahead

/-- The characters of the next lexeme. -/
def lexeme : Text := x.start.ahead.take x.reading.size

/-- Where the next lexeme ends. -/
def stop : Cursor := x.start.skip x.reading.size

/-- No fault stands in the way of the next lexeme. -/
def Clear : Prop :=
  (x.cursor.take (blankCount x.cursor)).fault = none ∧ (x.start.take x.reading.size).fault = none

/-- The lexer where the next lexeme has begun. -/
def begun : Lexer :=
  { x with
    cursor := x.start, text := x.text ++ x.blanks, trivia := Text.byteLength (x.text ++ x.blanks) }

/-- The lexer where the next lexeme has been read, and waits to be closed. -/
def filled : Lexer := { x.begun with cursor := x.stop, text := x.text ++ x.blanks ++ x.lexeme }

theorem blanks_append : x.blanks ++ x.start.ahead = x.cursor.ahead :=
  List.take_append_drop _ _

theorem lexeme_append : x.lexeme ++ x.stop.ahead = x.start.ahead :=
  List.take_append_drop _ _

theorem length_lexeme : x.lexeme.length = x.reading.size := by
  have h := Lexeme.size_read_le x.elides x.start.ahead
  rw [lexeme, List.length_take]
  exact Nat.min_eq_left h

@[simp] theorem start_breaks : x.start.breaks = x.cursor.breaks := rfl

@[simp] theorem stop_breaks : x.stop.breaks = x.cursor.breaks := rfl

@[simp] theorem begun_queued : x.begun.queued = x.queued := rfl

@[simp] theorem begun_ended : x.begun.ended = x.ended := rfl

@[simp] theorem filled_cursor : x.filled.cursor = x.stop := rfl

@[simp] theorem filled_elides : x.filled.elides = x.elides := rfl

@[simp] theorem filled_queued : x.filled.queued = x.queued := rfl

@[simp] theorem filled_ended : x.filled.ended = x.ended := rfl

theorem start_offset : x.start.offset = x.cursor.offset + Text.byteLength x.blanks :=
  Cursor.skip_offset _ _

theorem stop_offset : x.stop.offset = x.start.offset + Text.byteLength x.lexeme :=
  Cursor.skip_offset _ _

end Parts

/-- The position that a flaw in the next lexeme is reported at. -/
def flawPos (x : Lexer) : Lexeme.Place → Position
  | .start => x.start.pos
  | .here => x.stop.pos

/-- The steps that can be taken from `x`. -/
inductive Move (x : Lexer) : Step → Prop
  | queued {t : Token} (h : x.queued = some t) : Move x (emit { x with queued := none } t)
  | blankFault {fault : Fault} (hq : x.queued = none)
    (h : (x.cursor.take (blankCount x.cursor)).fault = some fault) :
    Move x ((x.gather (x.cursor.take (blankCount x.cursor))).interrupt fault)
  | lexemeFault {fault : Fault} (hq : x.queued = none)
    (h : (x.start.take x.reading.size).fault = some fault) :
    Move x ((x.begun.gather (x.start.take x.reading.size)).interrupt fault)
  | flaw {flaw : Lexeme.Flaw} (hq : x.queued = none) (hc : x.Clear)
    (h : x.reading.result = .error flaw) :
    Move x ⟨.error ⟨x.flawPos flaw.place, flaw.cause⟩, x.filled⟩
  | lexeme {meaning : Lexeme.Meaning} (hq : x.queued = none) (hc : x.Clear)
    (h : x.reading.result = .ok meaning) :
    Move x (x.filled.produce (x.text ++ x.blanks) x.lexeme x.start.mark meaning)

theorem scan_eq {x : Lexer} (h : (x.cursor.take (blankCount x.cursor)).fault = none) :
    x.scan = x.begun.readLexeme := by
  simp only [scan, (Cursor.take_of_fault_none h).1]
  rfl

theorem readLexeme_fault {x : Lexer} {fault : Fault}
    (h : (x.start.take x.reading.size).fault = some fault) :
    x.begun.readLexeme = (x.begun.gather (x.start.take x.reading.size)).interrupt fault := by
  have hf : (x.begun.cursor.take (Lexeme.read x.begun.elides x.begun.cursor.ahead).size).fault =
      some fault := h
  simp only [readLexeme, hf]
  rfl

/-- The lexeme is what stands behind the place where it was begun, so the cut does not miss. -/
theorem close_filled (x : Lexer) (result : Except Lexeme.Flaw Lexeme.Meaning) :
    x.filled.close x.start.mark result =
      match result with
      | .ok meaning => x.filled.produce (x.text ++ x.blanks) x.lexeme x.start.mark meaning
      | .error flaw => ⟨.error ⟨x.flawPos flaw.place, flaw.cause⟩, x.filled⟩ := by
  have hcut : Text.cutAt? x.filled.trivia x.filled.text = some (x.text ++ x.blanks, x.lexeme) :=
    Text.cutAt?_append _ _
  rw [close, hcut]
  rfl

theorem readLexeme_eq {x : Lexer} (h : (x.start.take x.reading.size).fault = none) :
    x.begun.readLexeme =
      match x.reading.result with
      | .ok meaning => x.filled.produce (x.text ++ x.blanks) x.lexeme x.start.mark meaning
      | .error flaw => ⟨.error ⟨x.flawPos flaw.place, flaw.cause⟩, x.filled⟩ := by
  have ht : x.start.take (Lexeme.read x.elides x.start.ahead).size = ⟨x.lexeme, x.stop, none⟩ :=
    (Cursor.take_of_fault_none h).1
  rw [← close_filled]
  simp only [readLexeme, begun, ht]
  rfl

theorem next_move (x : Lexer) : Move x x.next := by
  unfold next
  cases hq : x.queued with
  | some t => exact .queued hq
  | none =>
    cases hb : (x.cursor.take (blankCount x.cursor)).fault with
    | some fault =>
      simp only [scan, hb]
      exact .blankFault hq hb
    | none =>
      simp only [scan_eq hb]
      cases hl : (x.start.take x.reading.size).fault with
      | some fault =>
        rw [readLexeme_fault hl]
        exact .lexemeFault hq hl
      | none =>
        rw [readLexeme_eq hl]
        cases hr : x.reading.result with
        | error flaw => exact .flaw hq ⟨hb, hl⟩ hr
        | ok meaning => exact .lexeme hq ⟨hb, hl⟩ hr

end Lexer
end GoSyntax
