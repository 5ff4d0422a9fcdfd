import GoSyntax.Outline
import GoSyntax.Tree.Survey

/-! Trees as outlines, every part of them shown. -/
namespace GoSyntax

def Text.outline (s : Text) : Outline := .leaf (String.ofList (Quoted.text s))

namespace Outline

def all {α : Type} (outline : α → Outline) (items : List α) : Outline := .list (items.map outline)

/-- A fraction in lowest terms, which no literal makes negative. -/
def rat (q : Rat) : Outline :=
  record "Ratio" [("numer", nat q.num.toNat), ("denom", nat q.den)]

end Outline

def Position.outline (p : Position) : Outline :=
  .record "Position"
    [("filename", Text.outline p.file.toList), ("line", .nat p.line), ("column", .nat p.column)]

def Span.outline (s : Span) : Outline :=
  .record "Span" [("start", .nat s.start), ("end", .nat s.stop)]

def Kind.outline (k : Kind) : Outline := .leaf k.name

def Value.outline : Value → Outline
  | .int n => .tuple "Int" [.nat n]
  | .float q => .tuple "Float" [.rat q]
  | .imaginary q => .tuple "Imaginary" [.rat q]
  | .rune c => .tuple "Rune" [.leaf (String.ofList (Quoted.char c))]
  | .text s => .tuple "Str" [s.outline]

def Token.outline (t : Token) : Outline :=
  .record "Token"
    [("pos", t.pos.outline), ("kind", t.kind.outline), ("span", t.span.outline),
      ("raw_text", t.raw.outline), ("payload", .option (t.value.map (·.outline))),
      ("trivia", .nat (min t.leading.byteLength counterMax))]

def Ident.outline (i : Ident) : Outline :=
  .record "Ident" [("name", i.name.outline), ("pos", i.pos.outline)]

def StringLit.outline (s : StringLit) : Outline :=
  .record "StringLit"
    [("pos", s.pos.outline), ("raw", s.raw.outline), ("value", s.value.outline)]

def BasicLit.outline (l : BasicLit) : Outline :=
  .record "BasicLit"
    [("pos", l.pos.outline), ("kind", .leaf l.form.name), ("raw", l.raw.outline),
      ("value", l.value.outline)]

def NamedType.outline (n : NamedType) : Outline :=
  .record "NamedType"
    [("package", .option (n.package.map (·.outline))), ("name", n.name.outline)]

def ChanDir.name : ChanDir → String
  | .send => "Send" | .recv => "Recv" | .both => "Both"

namespace Expr

mutual

def outline : Expr → Outline
  | ident i => .tuple "Ident" [i.outline]
  | literal l => .tuple "BasicLit" [l.outline]
  | selector base field => .record "Selector" [("base", base.outline), ("sel", field.outline)]
  | paren start inner stop =>
    .record "Paren"
      [("begin", start.outline), ("inner", inner.outline), ("end", stop.outline)]
  | unary start op operand =>
    .record "Unary"
      [("begin", start.outline), ("op", .leaf op.name), ("operand", operand.outline)]
  | binary op left right =>
    .record "Binary" [("op", .leaf op.name), ("lhs", left.outline), ("rhs", right.outline)]
  | call function args stop =>
    .record "Call"
      [("func", function.outline), ("args", .list (outlines args)), ("end", stop.outline)]

def outlines : List Expr → List Outline
  | [] => []
  | e :: es => e.outline :: outlines es

end

end Expr

mutual

def TypeRef.outline : TypeRef → Outline
  | .named name => .tuple "Named" [name.outline]
  | .array start length elem =>
    .record "Array" [("begin", start.outline), ("len", length.outline), ("elem", elem.outline)]
  | .slice start elem => .record "Slice" [("begin", start.outline), ("elem", elem.outline)]
  | .ellipsisArray start elem =>
    .record "EllipsisArray" [("begin", start.outline), ("elem", elem.outline)]
  | .struct start fields stop =>
    .record "Struct"
      [("begin", start.outline), ("fields", .list (FieldGroup.outlines fields)),
        ("end", stop.outline)]
  | .pointer start elem => .record "Pointer" [("begin", start.outline), ("elem", elem.outline)]
  | .func start signature =>
    .record "Func" [("begin", start.outline), ("signature", signature.outline)]
  | .interface start elems stop =>
    .record "Interface"
      [("begin", start.outline), ("elems", .list (InterfaceElem.outlines elems)),
        ("end", stop.outline)]
  | .map start key value =>
    .record "Map" [("begin", start.outline), ("key", key.outline), ("value", value.outline)]
  | .chan start dir elem =>
    .record "Chan" [("begin", start.outline), ("dir", .leaf dir.name), ("elem", elem.outline)]

def FieldGroup.outline : FieldGroup → Outline
  | ⟨names, type, tag⟩ =>
    .record "FieldGroup"
      [("names", .all Ident.outline names), ("ty", type.outline),
        ("tag", .option (tag.map StringLit.outline))]

def FieldGroup.outlines : List FieldGroup → List Outline
  | [] => []
  | f :: fs => f.outline :: FieldGroup.outlines fs

def InterfaceElem.outline : InterfaceElem → Outline
  | .method name signature =>
    .tuple "Method"
      [.record "MethodSpec" [("name", name.outline), ("signature", signature.outline)]]
  | .embedded name => .tuple "Embedded" [name.outline]

def InterfaceElem.outlines : List InterfaceElem → List Outline
  | [] => []
  | e :: es => e.outline :: InterfaceElem.outlines es

def Signature.outline : Signature → Outline
  | ⟨args, none⟩ =>
    .record "FunctionSignature" [("args", args.outline), ("results", .option none)]
  | ⟨args, some results⟩ =>
    .record "FunctionSignature"
      [("args", args.outline), ("results", .option (some results.outline))]

def ParamList.outline : ParamList → Outline
  | ⟨start, params, stop⟩ =>
    .record "ParameterDeclList"
      [("begin", start.outline), ("decls", .list (Param.outlines params)), ("end", stop.outline)]

def Param.outline : Param → Outline
  | ⟨name, inferred, variadic, type⟩ =>
    .record "ParameterDecl"
      [("name", .option (name.map Ident.outline)), ("type_was_inferred", .bool inferred),
        ("variadic", .bool variadic), ("ty", type.outline)]

def Param.outlines : List Param → List Outline
  | [] => []
  | p :: ps => p.outline :: Param.outlines ps

end

def Block.outline (b : Block) : Outline :=
  .record "Block"
    [("begin", b.start.outline), ("tokens", .all Token.outline b.tokens), ("end", b.stop.outline)]

def FuncDecl.outline (f : FuncDecl) : Outline :=
  .record "FuncOrMethodDecl"
    [("begin", f.start.outline), ("receiver", .option (f.receiver.map ParamList.outline)),
      ("name", f.name.outline), ("signature", f.signature.outline),
      ("body", .option (f.body.map Block.outline))]

def Decl.outline : Decl → Outline
  | .func f => .tuple "FuncOrMethod" [f.outline]

def ImportName.outline : ImportName → Outline
  | .dot pos => .tuple "Dot" [pos.outline]
  | .blank pos => .tuple "Blank" [pos.outline]
  | .named name => .tuple "Named" [name.outline]

def Import.outline (i : Import) : Outline :=
  .record "Import"
    [("begin", i.start.outline), ("name", .option (i.name.map ImportName.outline)),
      ("path", i.path.outline)]

def File.outline (f : File) : Outline :=
  .record "File"
    [("begin", f.start.outline), ("package", f.package.outline),
      ("imports", .all Import.outline f.imports), ("decls", .all Decl.outline f.decls)]

def Statistics.outline (s : Statistics) : Outline :=
  .record "Stats"
    [("funcs", .nat s.funcs), ("methods", .nat s.methods), ("bodies", .nat s.bodies),
      ("params", .nat s.params), ("inferred_params", .nat s.inferredParams),
      ("type_refs", .nat s.types), ("idents", .nat s.idents)]

end GoSyntax
