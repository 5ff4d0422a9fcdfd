import GoSyntax.Tree.Declaration

/-! Trees written as source text that reads back as the same tree. -/
namespace GoSyntax

/-- The texts with `sep` between them. -/
def Text.join (sep : String) (texts : List Text) : Text := sep.toList.intercalate texts

def NamedType.print (n : NamedType) : Text :=
  match n.package with
  | some package => package.name ++ '.' :: n.name.name
  | none => n.name.name

namespace Expr

mutual

/-- A literal stands apart from the dot behind it, and an operator from the operator behind it, which
they would otherwise run into. -/
def print : Expr → Text
  | ident i => i.name
  | literal l => l.raw
  | selector base field =>
    base.print ++ (if base.isLiteral then [' ', '.'] else ['.']) ++ field.name
  | paren _ inner _ => '(' :: inner.print ++ [')']
  | unary _ op operand =>
    op.spelling.toList ++ (if operand.isUnary then [' '] else []) ++ operand.print
  | binary op left right => left.print ++ ' ' :: op.spelling.toList ++ ' ' :: right.print
  | call function args _ => function.print ++ '(' :: Text.join ", " (printAll args) ++ [')']

def printAll : List Expr → List Text
  | [] => []
  | e :: es => e.print :: printAll es

end

end Expr

mutual

/-- The arrow of `<-chan` stands apart from a `chan` before it by parentheses. -/
def TypeRef.print : TypeRef → Text
  | .named name => name.print
  | .array _ length elem => '[' :: length.print ++ ']' :: elem.print
  | .slice _ elem => '[' :: ']' :: elem.print
  | .ellipsisArray _ elem => "[...]".toList ++ elem.print
  | .struct _ fields _ =>
    if fields.isEmpty then "struct\x7b\x7d".toList
    else "struct \x7b ".toList ++ Text.join "; " (FieldGroup.printAll fields) ++ " \x7d".toList
  | .pointer _ elem => '*' :: elem.print
  | .func _ signature => "func".toList ++ signature.print
  | .interface _ elems _ =>
    if elems.isEmpty then "interface\x7b\x7d".toList
    else "interface \x7b ".toList ++ Text.join "; " (InterfaceElem.printAll elems) ++
      " \x7d".toList
  | .map _ key value => "map[".toList ++ key.print ++ ']' :: value.print
  | .chan _ .send elem => "chan<- ".toList ++ elem.print
  | .chan _ .recv elem => "<-chan ".toList ++ elem.print
  | .chan _ .both elem =>
    "chan ".toList ++ if elem.isRecvChan then '(' :: elem.print ++ [')'] else elem.print

def FieldGroup.print : FieldGroup → Text
  | ⟨names, type, tag⟩ =>
    (if names.isEmpty then [] else Text.join ", " (names.map (·.name)) ++ [' ']) ++ type.print ++
      match tag with
      | some tag => ' ' :: tag.raw
      | none => []

def FieldGroup.printAll : List FieldGroup → List Text
  | [] => []
  | f :: fs => f.print :: FieldGroup.printAll fs

def InterfaceElem.print : InterfaceElem → Text
  | .method name signature => name.name ++ signature.print
  | .embedded name => name.print

def InterfaceElem.printAll : List InterfaceElem → List Text
  | [] => []
  | e :: es => e.print :: InterfaceElem.printAll es

def Signature.print : Signature → Text
  | ⟨args, none⟩ => args.print
  | ⟨args, some results⟩ => args.print ++ ' ' :: results.printResult

def ParamList.print : ParamList → Text
  | ⟨_, params, _⟩ => '(' :: Text.join ", " (Param.printAll params) ++ [')']

/-- A result that is one plain type needs no parentheses. -/
def ParamList.printResult : ParamList → Text
  | ⟨start, params, stop⟩ =>
    let inner := Text.join ", " (Param.printAll params)
    if (ParamList.mk start params stop).isBare then inner else '(' :: inner ++ [')']

def Param.print : Param → Text
  | ⟨some name, true, _, _⟩ => name.name
  | ⟨some name, false, variadic, type⟩ =>
    name.name ++ ' ' :: (if variadic then "...".toList else []) ++ type.print
  | ⟨none, _, variadic, type⟩ => (if variadic then "...".toList else []) ++ type.print

def Param.printAll : List Param → List Text
  | [] => []
  | p :: ps => p.print :: Param.printAll ps

end

/-- Tokens apart by blanks; every semicolon is written out. -/
def Block.print (b : Block) : Text :=
  '\x7b' :: b.tokens.flatMap (fun t =>
    if t.kind = .delimiter .semicolon then [' ', ';'] else ' ' :: t.text) ++ [' ', '\x7d']

def FuncDecl.print (f : FuncDecl) : Text :=
  "func ".toList ++
    (match f.receiver with
      | some receiver => receiver.print ++ [' ']
      | none => []) ++
    f.name.name ++ f.signature.print ++
    match f.body with
    | some body => ' ' :: body.print
    | none => []

def Decl.print : Decl → Text
  | .func f => f.print

def Import.print (i : Import) : Text :=
  "import ".toList ++
    (match i.name with
      | some (.dot _) => ['.', ' ']
      | some (.blank _) => ['_', ' ']
      | some (.named name) => name.name ++ [' ']
      | none => []) ++
    i.path.raw

/-- One declaration a line, imports together and functions apart. -/
def File.print (f : File) : Text :=
  "package ".toList ++ f.package.name ++ '\n' ::
    ((if f.imports.isEmpty then [] else '\n' :: f.imports.flatMap fun i => i.print ++ ['\n']) ++
      f.decls.flatMap fun d => '\n' :: d.print ++ ['\n'])

end GoSyntax
