import GoSyntax.Proofs.Lexer.Words
import GoSyntax.Tree.Declaration

/-! The trees that a parser can give, as a grammar of their own. A tree fits a number of levels if the
rule that reads it opens no more than that many. -/
namespace GoSyntax

def Ident.Lawful (i : Ident) : Prop := Word.Stands ⟨.identifier, i.name, some (.text i.name)⟩

def StringLit.Lawful (s : StringLit) : Prop :=
  ∃ form : LiteralForm, form.isString = true ∧
    Word.Stands ⟨.literal form, s.raw, some (.text s.value)⟩

def BasicLit.Lawful (l : BasicLit) : Prop := Word.Stands ⟨.literal l.form, l.raw, some l.value⟩

structure NamedType.Lawful (n : NamedType) : Prop where
  package : ∀ i, n.package = some i → i.Lawful
  name : n.name.Lawful

/-- How far the reading of an expression has come: at a rule that is asked for operators that bind at
least as tightly as `least`, inside that rule, at a unary rule, or at an operand. -/
inductive Stage
  | goal (least : Nat)
  | chain (least : Nat)
  | unary
  | operand

/-- The expression can be read from the stage on, where so many more levels can be opened. -/
inductive Expr.Fits : Stage → Nat → Expr → Prop
  | goal {n s : Nat} {e : Expr} (h : Fits (.chain n) s e) : Fits (.goal n) (s + 1) e
  | single {n s : Nat} {e : Expr} (h : Fits .unary s e) : Fits (.chain n) s e
  | binary {n k s : Nat} {op : Operator} {l r : Expr} (hop : op.precedence? = some k) (hk : n ≤ k)
    (hl : Fits (.chain k) s l) (hr : Fits (.goal (k + 1)) s r) : Fits (.chain n) s (.binary op l r)
  | primary {s : Nat} {e : Expr} (h : Fits .operand s e) : Fits .unary (s + 1) e
  | unary {s : Nat} {start : Position} {op : Operator} {e : Expr} (hop : op.isUnary = true)
    (h : Fits .unary s e) : Fits .unary (s + 1) (.unary start op e)
  | ident {s : Nat} {i : Ident} (h : i.Lawful) : Fits .operand s (.ident i)
  | literal {s : Nat} {l : BasicLit} (h : l.Lawful) : Fits .operand s (.literal l)
  | paren {s : Nat} {start stop : Position} {e : Expr} (h : Fits (.goal 1) s e) :
    Fits .operand s (.paren start e stop)
  | selector {s : Nat} {base : Expr} {field : Ident} (hb : Fits .operand s base)
    (hf : field.Lawful) : Fits .operand s (.selector base field)
  | call {s : Nat} {function : Expr} {args : List Expr} {stop : Position}
    (hf : Fits .operand s function) (ha : ∀ a ∈ args, Fits (.goal 1) s a) :
    Fits .operand s (.call function args stop)

/-- Parameters without names: at most the last of them is variadic. -/
inductive Param.Row : List Param → Prop
  | nil : Row []
  | last (variadic : Bool) (type : TypeRef) : Row [⟨none, false, variadic, type⟩]
  | cons {q : Param} {ps : List Param} (type : TypeRef) (h : Row (q :: ps)) :
    Row (⟨none, false, false, type⟩ :: q :: ps)

/-- Parameters with names: at most the last of them is variadic, and one whose type is not written has
that of the next. -/
inductive Param.Run : List Param → Prop
  | last {name : Ident} (hn : name.Lawful) (variadic : Bool) (type : TypeRef) :
    Run [⟨some name, false, variadic, type⟩]
  | typed {name : Ident} {q : Param} {ps : List Param} (hn : name.Lawful) (type : TypeRef)
    (h : Run (q :: ps)) : Run (⟨some name, false, false, type⟩ :: q :: ps)
  | inferred {name : Ident} {q : Param} {ps : List Param} (hn : name.Lawful) (h : Run (q :: ps)) :
    Run (⟨some name, true, false, q.type⟩ :: q :: ps)

/-- The parts of types. A list of results is one of parameters or a type that stands alone. -/
inductive Part
  | type (t : TypeRef)
  | field (f : FieldGroup)
  | elem (e : InterfaceElem)
  | signature (s : Signature)
  | params (l : ParamList)
  | results (l : ParamList)

/-- The part can be read where so many more levels can be opened. A receiving channel inside a
channel of both directions stands in parentheses, which take a level too. -/
inductive Part.Fits : Nat → Part → Prop
  | named {s : Nat} {name : NamedType} (h : name.Lawful) : Fits (s + 1) (.type (.named name))
  | array {s : Nat} {start : Position} {length : Expr} {elem : TypeRef}
    (hl : Expr.Fits (.goal 1) s length) (he : Fits s (.type elem)) :
    Fits (s + 1) (.type (.array start length elem))
  | slice {s : Nat} {start : Position} {elem : TypeRef} (h : Fits s (.type elem)) :
    Fits (s + 1) (.type (.slice start elem))
  | ellipsisArray {s : Nat} {start : Position} {elem : TypeRef} (h : Fits s (.type elem)) :
    Fits (s + 1) (.type (.ellipsisArray start elem))
  | struct {s : Nat} {start stop : Position} {fields : List FieldGroup}
    (h : ∀ f ∈ fields, Fits s (.field f)) : Fits (s + 2) (.type (.struct start fields stop))
  | pointer {s : Nat} {start : Position} {elem : TypeRef} (h : Fits s (.type elem)) :
    Fits (s + 1) (.type (.pointer start elem))
  | func {s : Nat} {start : Position} {signature : Signature} (h : Fits s (.signature signature)) :
    Fits (s + 1) (.type (.func start signature))
  | interface {s : Nat} {start stop : Position} {elems : List InterfaceElem}
    (h : ∀ e ∈ elems, Fits s (.elem e)) : Fits (s + 2) (.type (.interface start elems stop))
  | map {s : Nat} {start : Position} {key value : TypeRef} (hk : Fits s (.type key))
    (hv : Fits s (.type value)) : Fits (s + 1) (.type (.map start key value))
  | chan {s : Nat} {start : Position} {dir : ChanDir} {elem : TypeRef}
    (hd : dir = .both → elem.isRecvChan = false) (h : Fits s (.type elem)) :
    Fits (s + 1) (.type (.chan start dir elem))
  | chanOfRecv {s : Nat} {start : Position} {elem : TypeRef} (hd : elem.isRecvChan = true)
    (h : Fits s (.type elem)) : Fits (s + 2) (.type (.chan start .both elem))
  | field {s : Nat} {names : List Ident} {type : TypeRef} {tag : Option StringLit}
    (hn : ∀ i ∈ names, i.Lawful) (ht : ∀ t, tag = some t → t.Lawful) (h : Fits s (.type type)) :
    Fits s (.field ⟨names, type, tag⟩)
  | method {s : Nat} {name : Ident} {signature : Signature} (hn : name.Lawful)
    (h : Fits s (.signature signature)) : Fits s (.elem (.method name signature))
  | embedded {s : Nat} {name : NamedType} (h : name.Lawful) : Fits s (.elem (.embedded name))
  | signature {s : Nat} {args : ParamList} {results : Option ParamList} (ha : Fits s (.params args))
    (hr : ∀ l, results = some l → Fits s (.results l)) :
    Fits (s + 1) (.signature ⟨args, results⟩)
  | params {s : Nat} {start stop : Position} {params : List Param}
    (hn : Param.Row params ∨ Param.Run params) (h : ∀ p ∈ params, Fits s (.type p.type)) :
    Fits (s + 1) (.params ⟨start, params, stop⟩)
  | bareResult {s : Nat} {start stop : Position} {type : TypeRef} (h : Fits s (.type type)) :
    Fits s (.results ⟨start, [⟨none, false, false, type⟩], stop⟩)
  | listResult {s : Nat} {l : ParamList} (hb : l.isBare = false) (h : Fits s (.params l)) :
    Fits s (.results l)

theorem Expr.Fits.mono {stage : Stage} {s s' : Nat} {e : Expr} (h : Expr.Fits stage s e)
    (hs : s ≤ s') : Expr.Fits stage s' e := by
  induction h generalizing s' with
  | @goal n s e _ ih =>
    obtain ⟨k, rfl⟩ : ∃ k, s' = k + 1 := ⟨s' - 1, by omega⟩
    exact .goal (ih (by omega))
  | single _ ih => exact .single (ih hs)
  | binary hop hk _ _ ihl ihr => exact .binary hop hk (ihl hs) (ihr hs)
  | primary _ ih =>
    obtain ⟨k, rfl⟩ : ∃ k, s' = k + 1 := ⟨s' - 1, by omega⟩
    exact .primary (ih (by omega))
  | unary hop _ ih =>
    obtain ⟨k, rfl⟩ : ∃ k, s' = k + 1 := ⟨s' - 1, by omega⟩
    exact .unary hop (ih (by omega))
  | ident hi => exact .ident hi
  | literal hl => exact .literal hl
  | paren _ ih => exact .paren (ih hs)
  | selector _ hf ih => exact .selector (ih hs) hf
  | call _ _ ihf iha => exact .call (ihf hs) fun a ha => iha a ha hs

theorem Part.Fits.mono {s s' : Nat} {x : Part} (h : Part.Fits s x) (hs : s ≤ s') :
    Part.Fits s' x := by
  induction h generalizing s' with
  | named hn =>
    obtain ⟨k, rfl⟩ : ∃ k, s' = k + 1 := ⟨s' - 1, by omega⟩
    exact .named hn
  | array hl _ ih =>
    obtain ⟨k, rfl⟩ : ∃ k, s' = k + 1 := ⟨s' - 1, by omega⟩
    exact .array (hl.mono (by omega)) (ih (by omega))
  | slice _ ih =>
    obtain ⟨k, rfl⟩ : ∃ k, s' = k + 1 := ⟨s' - 1, by omega⟩
    exact .slice (ih (by omega))
  | ellipsisArray _ ih =>
    obtain ⟨k, rfl⟩ : ∃ k, s' = k + 1 := ⟨s' - 1, by omega⟩
    exact .ellipsisArray (ih (by omega))
  | struct _ ih =>
    obtain ⟨k, rfl⟩ : ∃ k, s' = k + 2 := ⟨s' - 2, by omega⟩
    exact .struct fun f hf => ih f hf (by omega)
  | pointer _ ih =>
    obtain ⟨k, rfl⟩ : ∃ k, s' = k + 1 := ⟨s' - 1, by omega⟩
    exact .pointer (ih (by omega))
  | func _ ih =>
    obtain ⟨k, rfl⟩ : ∃ k, s' = k + 1 := ⟨s' - 1, by omega⟩
    exact .func (ih (by omega))
  | interface _ ih =>
    obtain ⟨k, rfl⟩ : ∃ k, s' = k + 2 := ⟨s' - 2, by omega⟩
    exact .interface fun e he => ih e he (by omega)
  | map _ _ ihk ihv =>
    obtain ⟨k, rfl⟩ : ∃ k, s' = k + 1 := ⟨s' - 1, by omega⟩
    exact .map (ihk (by omega)) (ihv (by omega))
  | chan hd _ ih =>
    obtain ⟨k, rfl⟩ : ∃ k, s' = k + 1 := ⟨s' - 1, by omega⟩
    exact .chan hd (ih (by omega))
  | chanOfRecv hd _ ih =>
    obtain ⟨k, rfl⟩ : ∃ k, s' = k + 2 := ⟨s' - 2, by omega⟩
    exact .chanOfRecv hd (ih (by omega))
  | field hn ht _ ih => exact .field hn ht (ih hs)
  | method hn _ ih => exact .method hn (ih hs)
  | embedded hn => exact .embedded hn
  | signature _ _ iha ihr =>
    obtain ⟨k, rfl⟩ : ∃ k, s' = k + 1 := ⟨s' - 1, by omega⟩
    exact .signature (iha (by omega)) fun l hl => ihr l hl (by omega)
  | params hn _ ih =>
    obtain ⟨k, rfl⟩ : ∃ k, s' = k + 1 := ⟨s' - 1, by omega⟩
    exact .params hn fun p hp => ih p hp (by omega)
  | bareResult _ ih => exact .bareResult (ih hs)
  | listResult hb _ ih => exact .listResult hb (ih hs)

/-- The braces of a body match, and no more than `room` of them are open at once where `opened` are
open already. -/
def Braced (room : Nat) : (opened : Nat) → List Token → Prop
  | opened, [] => opened = 0
  | opened, t :: ts =>
    if t.kind = .delimiter .lbrace then opened < room ∧ Braced room (opened + 1) ts
    else if t.kind = .delimiter .rbrace then 0 < opened ∧ Braced room (opened - 1) ts
    else Braced room opened ts

/-- The token is no end of the source, and stands by itself unless it is a semicolon. -/
def Token.InBody (t : Token) : Prop :=
  t.kind ≠ .endOfFile ∧
    (t.value = none ∧ t.kind = .delimiter .semicolon ∨ Word.Stands ⟨t.kind, t.text, t.value⟩)

structure Block.Fits (room : Nat) (b : Block) : Prop where
  tokens : ∀ t ∈ b.tokens, t.InBody
  braced : Braced room 0 b.tokens

/-- The list has names, if it has parameters at all. -/
def ParamList.NamesGiven (l : ParamList) : Prop := l.params = [] ∨ Param.Run l.params

structure FuncDecl.Fits (room : Nat) (f : FuncDecl) : Prop where
  receiver : ∀ l, f.receiver = some l →
    Part.Fits room (.params l) ∧ l.NamesGiven ∧ l.params.length = 1
  name : f.name.Lawful
  signature : Part.Fits room (.signature f.signature)
  names : f.signature.args.NamesGiven
  body : ∀ b, f.body = some b → b.Fits room

def Decl.Fits (room : Nat) : Decl → Prop
  | .func f => f.Fits room

def ImportName.Lawful : ImportName → Prop
  | .named name => name.Lawful ∧ name.isBlank = false
  | _ => True

structure Import.Lawful (i : Import) : Prop where
  name : ∀ n, i.name = some n → n.Lawful
  path : i.path.Lawful

structure File.Fits (room : Nat) (f : File) : Prop where
  package : f.package.Lawful
  imports : ∀ i ∈ f.imports, i.Lawful
  decls : ∀ d ∈ f.decls, d.Fits room

end GoSyntax
