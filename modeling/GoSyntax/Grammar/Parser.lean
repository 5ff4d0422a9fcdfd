import GoSyntax.Grammar.Arrival

/-! The parser's state and the steps that all grammar rules are made of. -/
namespace GoSyntax

/-- A place in the token stream: one token is in view, the others are ahead. -/
structure Parser where
  ahead : List Arrival
  peek : Token
  /-- Whether nothing was left to read behind the last request. -/
  drained : Bool
  /-- How many rules are open around this place. -/
  depth : Nat
  /-- How many rules may be open. -/
  limit : Nat
  /-- The most rules that were open at once so far. No rule asks for it. -/
  peak : Nat
  /-- Notes, the last one first. -/
  log : List Event

/-- The depth limit where none is asked for. -/
def defaultLimit : Nat := 128

/-- A grammar rule. What a failed rule has consumed stays consumed. -/
abbrev Parse := EStateM Error Parser

namespace Parser

/-- The start of the stream `arrivals`. -/
def ofArrivals (limit : Nat) (arrivals : List Arrival) (file : String) : Except Error Parser :=
  match arrivals with
  | [] => .ok ⟨[], .emptyAt (.origin file) .endOfFile, true, 0, limit, 0, []⟩
  | a :: ahead => a.outcome.map fun t => ⟨ahead, t, a.drained, 0, limit, 0, a.events.reverse⟩

def ofLexer (limit : Nat) (x : Lexer) : Except Error Parser :=
  ofArrivals limit (Arrival.ofLexer x) x.pos.file

def ofFeed (limit : Nat) (file : String) (feed : Feed) : Except Error Parser := do
  ofLexer limit (← Lexer.ofFeed file feed)

def ofText (limit : Nat) (file : String) (s : Text) : Except Error Parser :=
  ofFeed limit file (.ofText s)

/-- How many more rules can be opened. -/
def room (p : Parser) : Nat := p.limit - p.depth

/-- One rule more is open. -/
def enter (p : Parser) : Parser :=
  { p with depth := p.depth + 1, peak := max p.peak (p.depth + 1) }

/-- The rule that was opened last is closed. -/
def leave (p : Parser) : Parser := { p with depth := p.depth - 1 }

section Levels

variable (p : Parser)

@[simp] theorem enter_ahead : p.enter.ahead = p.ahead := rfl
@[simp] theorem enter_peek : p.enter.peek = p.peek := rfl
@[simp] theorem enter_drained : p.enter.drained = p.drained := rfl
@[simp] theorem enter_depth : p.enter.depth = p.depth + 1 := rfl
@[simp] theorem enter_limit : p.enter.limit = p.limit := rfl
@[simp] theorem enter_peak : p.enter.peak = max p.peak (p.depth + 1) := rfl
@[simp] theorem leave_ahead : p.leave.ahead = p.ahead := rfl
@[simp] theorem leave_peek : p.leave.peek = p.peek := rfl
@[simp] theorem leave_drained : p.leave.drained = p.drained := rfl
@[simp] theorem leave_depth : p.leave.depth = p.depth - 1 := rfl
@[simp] theorem leave_limit : p.leave.limit = p.limit := rfl
@[simp] theorem leave_peak : p.leave.peak = p.peak := rfl

end Levels

/-- How an error speaks of the token in view. A semicolon that was left out goes by the reason for
it, a line feed or the end of the source. -/
def found (p : Parser) : Found :=
  match p.peek.kind with
  | .delimiter .semicolon =>
    if p.peek.text = [';'] then .kind (.delimiter .semicolon)
    else if '\n' ∈ p.peek.raw ∨ p.drained = false then .newline
    else .kind .endOfFile
  | .identifier => .identifier p.peek.text
  | .literal _ => .literal p.peek.text
  | k => .kind k

end Parser

namespace Parse

variable {α σ : Type}

def failAt (pos : Position) (cause : Cause) : Parse α := throw ⟨pos, cause⟩

def problemAt (pos : Position) (problem : Problem) : Parse α := failAt pos (.grammar problem)

def peek : Parse Token := fun p => .ok p.peek p

def note (e : Event) : Parse Unit := fun p => .ok () { p with log := e :: p.log }

/-- Gives the token in view and brings the next one into view. If that fails, the view stays. -/
def advance : Parse Token := fun p =>
  match p.ahead with
  | [] => .ok p.peek { p with peek := { p.peek with leading := [] }, log := .ofToken p.peek :: p.log }
  | a :: ahead =>
    let q := { p with ahead, drained := a.drained, log := a.events.reverse ++ p.log }
    match a.outcome with
    | .ok t => .ok p.peek { q with peek := t }
    | .error e => .error e q

def peekIs (kind : Kind) : Parse Bool := fun p => .ok (p.peek.kind == kind) p

/-- Advances if the token in view is of kind `kind`. -/
def consumeIf (kind : Kind) : Parse Bool := do
  if ← peekIs kind then
    let _ ← advance
    return true
  else return false

/-- Fails because the token in view is not what was wanted. -/
def unexpected (wanted : Expected) : Parse α := fun p =>
  .error ⟨p.peek.pos, .grammar (.unexpected wanted p.found)⟩ p

/-- Advances past a token of one of the kinds. -/
def require (wanted : Expected) (kinds : List Kind) : Parse Token := do
  if kinds.contains (← peek).kind then advance else unexpected wanted

def identifier (wanted : Expected) : Parse Ident :=
  Ident.ofToken <$> require wanted [.identifier]

/-- Advances past a semicolon; a closing bracket in view will do as well and stays there. -/
def terminator (wanted : Expected) : Parse Unit := do
  if [.delimiter .rparen, .delimiter .rbrace].contains (← peek).kind then return ()
  else
    let _ ← require wanted [.delimiter .semicolon]
    return ()

/-- Fails because no more rules can be opened. -/
def tooDeep : Parse α := fun p => .error ⟨p.peek.pos, .tooDeep p.limit⟩ p

/-- Runs a rule one level deeper. -/
def nested (rule : Parse α) : Parse α := fun p =>
  if p.limit ≤ p.depth then tooDeep p
  else
    match rule p.enter with
    | .ok a q => .ok a q.leave
    | .error e q => .error e q.leave

/-- Runs a rule with the number of rounds that the tokens ahead allow for. A round that is followed
by another has consumed a token, so a loop never runs out of them. -/
def bounded (rule : Nat → Parse α) : Parse α := fun p => rule (p.ahead.length + 1) p

/-- Repeats `body` from `s` until it is done, for `n` rounds at most. -/
def loopFor (body : σ → Parse (ForInStep σ)) : Nat → σ → Parse σ
  | 0, s => pure s
  | n + 1, s => do
    match ← body s with
    | .done s => return s
    | .yield s => loopFor body n s

def loop (body : σ → Parse (ForInStep σ)) (s : σ) : Parse σ := bounded fun n => loopFor body n s

/-- Items with commas between them, and perhaps behind the last, up to `stop`. -/
def commaListFor (stop : Kind) (item : Parse α) : Nat → Parse (List α)
  | 0 => pure []
  | n + 1 => do
    if ← peekIs stop then return []
    else
      let a ← item
      if ← consumeIf (.delimiter .comma) then return a :: (← commaListFor stop item n)
      else return [a]

def commaList (stop : Kind) (item : Parse α) : Parse (List α) := bounded (commaListFor stop item)

/-- Items each with a terminator, up to `stop`. -/
def termListFor (stop : Kind) (wanted : Expected) (item : Parse α) : Nat → Parse (List α)
  | 0 => pure []
  | n + 1 => do
    if ← peekIs stop then return []
    else
      let a ← item
      terminator wanted
      return a :: (← termListFor stop wanted item n)

def termList (stop : Kind) (wanted : Expected) (item : Parse α) : Parse (List α) :=
  bounded (termListFor stop wanted item)

/-- Items each behind a token of kind `opener`, for as long as there is one. -/
def openedListFor (opener : Kind) (item : Parse α) : Nat → Parse (List α)
  | 0 => pure []
  | n + 1 => do
    if ← consumeIf opener then
      let a ← item
      return a :: (← openedListFor opener item n)
    else return []

def openedList (opener : Kind) (item : Parse α) : Parse (List α) :=
  bounded (openedListFor opener item)

/-- A string literal that was just consumed. -/
def stringLit (t : Token) : Parse StringLit :=
  match t.value with
  | some (.text s) => return ⟨t.pos, t.text, s⟩
  | _ => failAt t.pos (.defect .stringValue)

end Parse
end GoSyntax
