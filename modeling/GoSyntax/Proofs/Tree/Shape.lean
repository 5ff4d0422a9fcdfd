import GoSyntax.Grammar.Session
import GoSyntax.Proofs.Tree.Erase

/-! What two readings of one source can have in common where places differ: trees without positions,
whose bodies keep the kind, the value and the text of each token, and the variants of errors. Only of
a semicolon that was not written the text does not count, a line feed being as good as the end of the
source. -/
namespace GoSyntax

namespace Token

/-- Whether the token is a semicolon that was not written. -/
def isInserted (t : Token) : Bool := t.kind == .delimiter .semicolon && t.text != [';']

def shape (t : Token) : Token :=
  ⟨.nowhere, t.kind, .emptyAt 0, [], if t.isInserted then [] else t.text, t.value⟩

variable {t u : Token}

theorem kind_of_shape (h : t.shape = u.shape) : t.kind = u.kind := by
  show t.shape.kind = u.shape.kind
  rw [h]

theorem value_of_shape (h : t.shape = u.shape) : t.value = u.value := by
  show t.shape.value = u.shape.value
  rw [h]

theorem text_of_shape (h : t.shape = u.shape) (hk : t.kind ≠ .delimiter .semicolon) :
    t.text = u.text := by
  have hk' : u.kind ≠ .delimiter .semicolon := by rwa [← kind_of_shape h]
  have htext := congrArg Token.text h
  simpa [shape, isInserted, hk, hk'] using htext

end Token

def Block.shape (b : Block) : Block := ⟨.nowhere, b.tokens.map Token.shape, .nowhere⟩

def FuncDecl.shape (f : FuncDecl) : FuncDecl := { f.erase with body := f.body.map Block.shape }

def Decl.shape : Decl → Decl
  | .func f => .func f.shape

def File.shape (f : File) : File := { f.erase with decls := f.decls.map Decl.shape }

namespace Tree

def shape : Tree → Tree
  | file f => file f.shape
  | decl d => decl d.shape
  | func f => func f.shape
  | signature s => signature s.erase
  | params l => params l.erase
  | type t => type t.erase
  | expr e => expr e.erase
  | block b => block b.shape
  | ident i => ident i.erase
  | nothing => nothing

end Tree

namespace Cause

inductive Variant
  | lexical | grammar | defect | unsupported | tooDeep | crash
  deriving DecidableEq, Repr

def variant : Cause → Variant
  | lexical _ => .lexical
  | grammar _ => .grammar
  | defect _ => .defect
  | unsupported _ => .unsupported
  | tooDeep _ => .tooDeep
  | crash _ => .crash

end Cause

/-- Both outcomes give what `f` takes for the same, or both are errors of one variant. -/
inductive SameOutcome {α γ : Type} (f : α → γ) : Except Error α → Except Error α → Prop
  | ok {a b : α} (h : f a = f b) : SameOutcome f (.ok a) (.ok b)
  | error {d e : Error} (h : d.cause.variant = e.cause.variant) : SameOutcome f (.error d) (.error e)

end GoSyntax
