import GoSyntax.Source.Cursor
import GoSyntax.Lexeme.Basic

/-! The token stream of a source. Every character goes into one token, blanks into the one behind
them, so that the raw texts of the tokens put together are the source again. -/
namespace GoSyntax

/-- A place between two tokens. -/
structure Lexer where
  cursor : Cursor
  /-- Whether a line feed here stands for a semicolon. -/
  elides : Bool
  /-- A token that has been read already. -/
  queued : Option Token
  /-- All that was read and went into no token yet. -/
  text : Text
  /-- How many bytes of the text stood before the lexeme when the last one was begun. -/
  trivia : Nat
  /-- Whether the end of the source has been handed out. -/
  ended : Bool
  deriving DecidableEq, Repr

/-- What asking for a token gives, and where it leaves the lexer. -/
structure Step where
  outcome : Except Error Token
  after : Lexer

namespace Lexer

/-- The start of a source. -/
def ofFeed (file : String) (feed : Feed) : Except Error Lexer :=
  match Cursor.ofOctets file feed.octets with
  | .ok cursor => .ok ⟨cursor, false, none, [], 0, false⟩
  | .error fault => .error ⟨.start file, .lexical (.source fault)⟩

def ofText (file : String) (s : Text) : Except Error Lexer := ofFeed file (.ofText s)

/-- Position of the next unread character. -/
def pos (x : Lexer) : Position := x.cursor.pos

/-- Whether nothing is left, neither characters nor a queued token. -/
def exhausted (x : Lexer) : Bool := x.queued.isNone && x.cursor.atEnd

def isBlank (c : Char) : Bool := c == ' ' || c == '\t' || c == '\r'

/-- How many characters to skip: blanks, and a byte order mark that opens the source. -/
def blankCount (x : Cursor) : Nat :=
  match x.ahead with
  | c :: cs =>
    if c = Mark.bom ∧ x.offset = 0 then 1 + (cs.takeWhile isBlank).length
    else (x.ahead.takeWhile isBlank).length
  | [] => 0

/-- Hands out `t`. Comments leave the rule for line feeds as it was. -/
def emit (x : Lexer) (t : Token) : Step :=
  ⟨.ok t,
    { x with
      elides := if t.kind.isComment then x.elides else t.kind.elidesSemicolon
      ended := x.ended || t.kind == .endOfFile }⟩

/-- Takes in what was read. -/
def gather (x : Lexer) (bite : Bite) : Lexer :=
  { x with cursor := bite.after, text := x.text ++ bite.taken }

/-- A lexeme begins here. -/
def mark (x : Lexer) : Lexer := { x with trivia := Text.byteLength x.text }

/-- Stops at a fault of the source. -/
def interrupt (x : Lexer) (fault : Fault) : Step :=
  ⟨.error ⟨x.cursor.pos, .lexical (.source fault)⟩, x⟩

/-- The token queued behind a token: a block comment that holds a line feed acts as one. -/
def queuedBehind (elides : Bool) (kind : Kind) (text : Text) (m : Mark) : Option Token :=
  if kind = .comment .block ∧ '\n' ∈ text then some (.emptyAt m (Lexeme.lineEnd elides)) else none

/-- Builds the token of the lexeme `text` that was read from `start` on, `leading` being what was read
before it. -/
def produce (x : Lexer) (leading text : Text) (start : Mark) : Lexeme.Meaning → Step
  | .token kind value =>
    emit { x with text := [], queued := queuedBehind x.elides kind text x.cursor.mark }
      { pos := start.pos, kind, span := .ofBounds start.offset x.cursor.offset, leading, text, value }
  | .twoDots =>
    let second : Token :=
      { pos := start.pos.moved 1, kind := .delimiter .dot,
        span := .ofBounds (start.offset + 1) (start.offset + 2), leading := [],
        text := text.drop 1, value := none }
    emit { x with text := [], queued := some second }
      { pos := start.pos, kind := .delimiter .dot,
        span := .ofBounds start.offset (start.offset + 1), leading, text := text.take 1,
        value := none }

/-- Closes the lexeme that was read from `start` on. Its text is cut off what was read before it. -/
def close (x : Lexer) (start : Mark) (result : Except Lexeme.Flaw Lexeme.Meaning) : Step :=
  match Text.cutAt? x.trivia x.text with
  | none => ⟨.error ⟨start.pos, .crash .outOfRange⟩, x⟩
  | some (leading, text) =>
    match result with
    | .ok meaning => x.produce leading text start meaning
    | .error flaw =>
      let pos := match flaw.place with
        | .start => start.pos
        | .here => x.cursor.pos
      ⟨.error ⟨pos, flaw.cause⟩, x⟩

/-- Reads the lexeme at the cursor. -/
def readLexeme (x : Lexer) : Step :=
  let reading := Lexeme.read x.elides x.cursor.ahead
  let bite := x.cursor.take reading.size
  match bite.fault with
  | some fault => (x.gather bite).interrupt fault
  | none => (x.gather bite).close x.cursor.mark reading.result

/-- Skips blanks, then reads a lexeme. -/
def scan (x : Lexer) : Step :=
  let bite := x.cursor.take (blankCount x.cursor)
  match bite.fault with
  | some fault => (x.gather bite).interrupt fault
  | none => (x.gather bite).mark.readLexeme

/-- The next token. Behind an error one can go on; behind the end of the source there is only that
end, again and again. -/
def next (x : Lexer) : Step :=
  match x.queued with
  | some t => emit { x with queued := none } t
  | none => x.scan

/-- A number of steps that leads to the end of the source, unless one of them crashes. -/
def budget (x : Lexer) : Nat := x.cursor.distance + 2

end Lexer

namespace Step

def isEnd (s : Step) : Bool :=
  match s.outcome with
  | .ok t => t.kind == .endOfFile
  | .error _ => false

def isError (s : Step) : Bool :=
  match s.outcome with
  | .ok _ => false
  | .error _ => true

/-- No step follows this one. -/
def isCrash (s : Step) : Bool :=
  match s.outcome with
  | .ok _ => false
  | .error e => e.isCrash

end Step

namespace Lexer

/-- The first `n` steps, whatever they give, or all up to a crash. -/
def steps : Nat → Lexer → List Step
  | 0, _ => []
  | n + 1, x =>
    let s := x.next
    s :: if s.isCrash then [] else steps n s.after

/-- The steps up to and with the one that reaches the end of the source or crashes, `n` at most. -/
def drainFor : Nat → Lexer → List Step
  | 0, _ => []
  | n + 1, x =>
    let s := x.next
    if s.isEnd || s.isCrash then [s] else s :: drainFor n s.after

/-- All steps to the end of the source or a crash, errors passed over. -/
def drain (x : Lexer) : List Step := x.drainFor x.budget

/-- The next step for one who stops at the first error: there is none behind it, nor behind the end
of the source or a crash. -/
def pull? (x : Lexer) : Option Step :=
  if x.ended then none
  else
    let s := x.next
    some (if s.isError then { s with after := { s.after with ended := true } } else s)

def runFor : Nat → Lexer → List Step
  | 0, _ => []
  | n + 1, x =>
    match x.pull? with
    | some s => s :: runFor n s.after
    | none => []

/-- The steps to the end of the source or to the first error. -/
def run (x : Lexer) : List Step := x.runFor x.budget

/-- The tokens of a source, its end included, unless there is an error. -/
def tokens (x : Lexer) : Except Error (List Token) := x.run.mapM (·.outcome)

end Lexer

/-- The tokens of a text. -/
def tokenize (file : String) (s : Text) : Except Error (List Token) := do
  (← Lexer.ofText file s).tokens

end GoSyntax
