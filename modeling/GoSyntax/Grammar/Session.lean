import GoSyntax.Grammar.File
import GoSyntax.Tree.Survey

/-! Rules called by name on one parser, one after the other, going on behind errors. -/
namespace GoSyntax

/-- What a rule can give. -/
inductive Tree
  | file (f : File)
  | decl (d : Decl)
  | func (f : FuncDecl)
  | signature (s : Signature)
  | params (l : ParamList)
  | type (t : TypeRef)
  | expr (e : Expr)
  | block (b : Block)
  | ident (i : Ident)
  /-- There was no type, and none was asked for. -/
  | nothing

namespace Tree

def print : Tree → Text
  | file f => f.print
  | decl d => d.print
  | func f => f.print
  | signature s => s.print
  | params l => l.print
  | type t => t.print
  | expr e => e.print
  | block b => b.print
  | ident i => i.name
  | nothing => []

/-- The topmost nodes. A parameter list is none itself. -/
def roots : Tree → List Node
  | file f => [.file f]
  | decl d => [.decl d]
  | func f => [.func f]
  | signature s => [.signature s]
  | params l => Node.ofParams l
  | type t => [.type t]
  | expr e => [.expr e]
  | block b => [.block b]
  | ident i => [.ident i]
  | nothing => []

def trace (pruned : List String) (t : Tree) : List (String × Detail) :=
  t.roots.flatMap (·.trace pruned)

end Tree

/-- The rules that can be called. -/
inductive Rule
  | file | decl | func
  | signature (namesRequired : Bool)
  | params (namesRequired : Bool)
  | type | maybeType | expr | block | ident
  deriving DecidableEq, Repr

namespace Rule

def parse : Rule → Parse Tree
  | file => .file <$> Parse.file
  | decl => .decl <$> Parse.decl
  | func => .func <$> Parse.funcDecl
  | signature namesRequired => .signature <$> Parse.signature Parse.type? namesRequired
  | params namesRequired => .params <$> Parse.paramList Parse.type? namesRequired
  | type => .type <$> Parse.type
  | maybeType => return ((← Parse.type?).map .type).getD .nothing
  | expr => .expr <$> Parse.expr
  | block => .block <$> Parse.block
  | ident => .ident <$> Parse.identifier .identifier

/-- The rule at the start of what `feed` delivers. -/
def parseFeed (rule : Rule) (limit : Nat) (file : String) (feed : Feed) : Except Error Tree := do
  match rule.parse (← Parser.ofFeed limit file feed) with
  | .ok t _ => return t
  | .error e _ => throw e

end Rule

/-- What calling a rule gave, and the parser behind it. -/
structure Call where
  outcome : Except Error Tree
  after : Parser

/-- No call follows this one. -/
def Call.isCrash (c : Call) : Bool :=
  match c.outcome with
  | .ok _ => false
  | .error e => e.isCrash

namespace Parser

def call (p : Parser) (rule : Rule) : Call :=
  match rule.parse p with
  | .ok t after => ⟨.ok t, after⟩
  | .error e after => ⟨.error e, after⟩

/-- Calls rules in turn, whatever they give, or all up to a crash. -/
def session (p : Parser) : List Rule → List Call
  | [] => []
  | rule :: rules =>
    let c := p.call rule
    c :: if c.isCrash then [] else c.after.session rules

theorem mem_session_cons {p : Parser} {rule : Rule} {rules : List Rule} {c : Call} :
    c ∈ p.session (rule :: rules) ↔
      c = p.call rule ∨ (p.call rule).isCrash = false ∧ c ∈ (p.call rule).after.session rules := by
  cases hcrash : (p.call rule).isCrash <;> simp [session, hcrash]

/-- Calls rules in turn up to the first that fails. -/
def attempt (p : Parser) : List Rule → Option Error × Parser
  | [] => (none, p)
  | rule :: rules =>
    match rule.parse p with
    | .ok _ after => after.attempt rules
    | .error e after => (some e, after)

end Parser

/-- The notes of a parser that reads `x`, and the error that stopped it. -/
def record (limit : Nat) (x : Lexer) (rules : List Rule) : List Event × Option Error :=
  match Parser.ofLexer limit x with
  | .ok p =>
    let (e, q) := p.attempt rules
    (q.log.reverse, e)
  | .error e => ((Arrival.ofLexer x).head?.map (·.events) |>.getD [], some e)

/-- A tree, and what reading its printed text gives. -/
structure RoundTrip where
  tree : Tree
  again : Except Error Tree

/-- Reads a source, prints the tree and reads what was printed, as a file of its own. -/
def roundTrip (rule : Rule) (limit : Nat) (file printedFile : String) (feed : Feed) :
    Except Error RoundTrip := do
  let t ← rule.parseFeed limit file feed
  return ⟨t, rule.parseFeed limit printedFile (.ofText t.print)⟩

end GoSyntax
