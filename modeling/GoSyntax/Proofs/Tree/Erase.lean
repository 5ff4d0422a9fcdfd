import GoSyntax.Tree.Print

/-! Trees without positions. What is left of a token in a function body is its kind, its value and its
text; of a semicolon, which may not have been written, only that it is one. -/
namespace GoSyntax

/-- The position that stands for all others. -/
def Position.nowhere : Position := .start ""

def Token.erase (t : Token) : Token :=
  if t.kind = .delimiter .semicolon then ⟨.nowhere, t.kind, .emptyAt 0, [], [], none⟩
  else ⟨.nowhere, t.kind, .emptyAt 0, [], t.text, t.value⟩

def Ident.erase (i : Ident) : Ident := ⟨i.name, .nowhere⟩

def StringLit.erase (s : StringLit) : StringLit := ⟨.nowhere, s.raw, s.value⟩

def BasicLit.erase (l : BasicLit) : BasicLit := ⟨.nowhere, l.form, l.raw, l.value⟩

def NamedType.erase (n : NamedType) : NamedType := ⟨n.package.map Ident.erase, n.name.erase⟩

namespace Expr

mutual

def erase : Expr → Expr
  | ident i => ident i.erase
  | literal l => literal l.erase
  | selector base field => selector base.erase field.erase
  | paren _ inner _ => paren .nowhere inner.erase .nowhere
  | unary _ op operand => unary .nowhere op operand.erase
  | binary op left right => binary op left.erase right.erase
  | call function args _ => call function.erase (eraseAll args) .nowhere

def eraseAll : List Expr → List Expr
  | [] => []
  | e :: es => e.erase :: eraseAll es

end

@[simp] theorem isLiteral_erase (e : Expr) : e.erase.isLiteral = e.isLiteral := by
  cases e <;> rfl

@[simp] theorem isUnary_erase (e : Expr) : e.erase.isUnary = e.isUnary := by
  cases e <;> rfl

mutual

theorem print_erase (e : Expr) : e.erase.print = e.print := by
  cases e with
  | ident i => rfl
  | literal l => rfl
  | selector base field =>
    simp only [erase, print, print_erase base, isLiteral_erase]
    rfl
  | paren start inner stop => simp only [erase, print, print_erase inner]
  | unary start op operand => simp only [erase, print, print_erase operand, isUnary_erase]
  | binary op left right => simp only [erase, print, print_erase left, print_erase right]
  | call function args stop =>
    simp only [erase, print, print_erase function, printAll_erase args]

theorem printAll_erase (es : List Expr) : printAll (eraseAll es) = printAll es := by
  cases es with
  | nil => rfl
  | cons e es => simp only [eraseAll, printAll, print_erase e, printAll_erase es]

end

@[simp] theorem eraseAll_eq_map (es : List Expr) : eraseAll es = es.map erase := by
  induction es with
  | nil => rfl
  | cons e es ih => simp [eraseAll, ih]

end Expr

mutual

def TypeRef.erase : TypeRef → TypeRef
  | .named name => .named name.erase
  | .array _ length elem => .array .nowhere length.erase elem.erase
  | .slice _ elem => .slice .nowhere elem.erase
  | .ellipsisArray _ elem => .ellipsisArray .nowhere elem.erase
  | .struct _ fields _ => .struct .nowhere (FieldGroup.eraseAll fields) .nowhere
  | .pointer _ elem => .pointer .nowhere elem.erase
  | .func _ signature => .func .nowhere signature.erase
  | .interface _ elems _ => .interface .nowhere (InterfaceElem.eraseAll elems) .nowhere
  | .map _ key value => .map .nowhere key.erase value.erase
  | .chan _ dir elem => .chan .nowhere dir elem.erase

def FieldGroup.erase : FieldGroup → FieldGroup
  | ⟨names, type, tag⟩ => ⟨names.map Ident.erase, type.erase, tag.map StringLit.erase⟩

def FieldGroup.eraseAll : List FieldGroup → List FieldGroup
  | [] => []
  | f :: fs => f.erase :: FieldGroup.eraseAll fs

def InterfaceElem.erase : InterfaceElem → InterfaceElem
  | .method name signature => .method name.erase signature.erase
  | .embedded name => .embedded name.erase

def InterfaceElem.eraseAll : List InterfaceElem → List InterfaceElem
  | [] => []
  | e :: es => e.erase :: InterfaceElem.eraseAll es

def Signature.erase : Signature → Signature
  | ⟨args, none⟩ => ⟨args.erase, none⟩
  | ⟨args, some results⟩ => ⟨args.erase, some results.erase⟩

def ParamList.erase : ParamList → ParamList
  | ⟨_, params, _⟩ => ⟨.nowhere, Param.eraseAll params, .nowhere⟩

def Param.erase : Param → Param
  | ⟨name, inferred, variadic, type⟩ => ⟨name.map Ident.erase, inferred, variadic, type.erase⟩

def Param.eraseAll : List Param → List Param
  | [] => []
  | p :: ps => p.erase :: Param.eraseAll ps

end

theorem NamedType.print_erase (n : NamedType) : n.erase.print = n.print := by
  obtain ⟨package, name⟩ := n
  cases package <;> rfl

@[simp] theorem TypeRef.isRecvChan_erase (t : TypeRef) : t.erase.isRecvChan = t.isRecvChan := by
  cases t with
  | chan start dir elem => cases dir <;> rfl
  | _ => rfl

theorem ParamList.isBare_eraseAll (start stop start' stop' : Position) (ps : List Param) :
    (ParamList.mk start (Param.eraseAll ps) stop).isBare = (ParamList.mk start' ps stop').isBare := by
  match ps with
  | [] => rfl
  | [⟨name, _, _, _⟩] =>
    simp only [isBare, Param.eraseAll, Param.erase, Option.isNone_map]
  | _ :: _ :: _ => rfl

/-- Parts in braces, with semicolons between them. -/
def Text.braced (texts : List Text) : Text :=
  if texts.isEmpty then ['\x7b', '\x7d']
  else ' ' :: '\x7b' :: ' ' :: (Text.join "; " texts ++ [' ', '\x7d'])

section Layout

variable (start stop : Position) (elem : TypeRef)

theorem TypeRef.print_named (name : NamedType) : (TypeRef.named name).print = name.print := rfl

theorem TypeRef.print_array (length : Expr) :
    (array start length elem).print = '[' :: (length.print ++ ']' :: elem.print) := rfl

theorem TypeRef.print_slice : (slice start elem).print = '[' :: ']' :: elem.print := rfl

theorem TypeRef.print_ellipsisArray :
    (ellipsisArray start elem).print =
      '[' :: (Operator.ellipsis.spelling.toList ++ ']' :: elem.print) := rfl

theorem TypeRef.print_struct (fields : List FieldGroup) :
    (struct start fields stop).print =
      Keyword.structKw.spelling.toList ++ Text.braced (FieldGroup.printAll fields) := by
  cases fields <;> rfl

theorem TypeRef.print_pointer : (pointer start elem).print = '*' :: elem.print := rfl

theorem TypeRef.print_func (signature : Signature) :
    (func start signature).print = Keyword.funcKw.spelling.toList ++ signature.print := rfl

theorem TypeRef.print_interface (elems : List InterfaceElem) :
    (interface start elems stop).print =
      Keyword.interfaceKw.spelling.toList ++ Text.braced (InterfaceElem.printAll elems) := by
  cases elems <;> rfl

theorem TypeRef.print_map (key : TypeRef) :
    (map start key elem).print =
      Keyword.mapKw.spelling.toList ++ '[' :: (key.print ++ ']' :: elem.print) := rfl

theorem TypeRef.print_chan_send :
    (chan start .send elem).print =
      Keyword.chanKw.spelling.toList ++ (Operator.chan.spelling.toList ++ ' ' :: elem.print) := rfl

theorem TypeRef.print_chan_recv :
    (chan start .recv elem).print =
      Operator.chan.spelling.toList ++ (Keyword.chanKw.spelling.toList ++ ' ' :: elem.print) := rfl

theorem TypeRef.print_chan_both :
    (chan start .both elem).print = Keyword.chanKw.spelling.toList ++
      ' ' :: if elem.isRecvChan then '(' :: (elem.print ++ [')']) else elem.print := rfl

theorem Param.print_variadic (inferred : Bool) :
    (Param.mk none inferred true elem).print = Operator.ellipsis.spelling.toList ++ elem.print := rfl

theorem Param.print_named (name : Ident) (variadic : Bool) :
    (Param.mk (some name) false variadic elem).print = name.name ++
      ' ' :: (if variadic then Operator.ellipsis.spelling.toList else []) ++ elem.print := rfl

end Layout

mutual

theorem TypeRef.print_erase (t : TypeRef) : t.erase.print = t.print := by
  cases t with
  | named name => simp only [TypeRef.erase, TypeRef.print_named, NamedType.print_erase]
  | array start length elem =>
    simp only [TypeRef.erase, TypeRef.print_array, length.print_erase, elem.print_erase]
  | slice start elem => simp only [TypeRef.erase, TypeRef.print_slice, elem.print_erase]
  | ellipsisArray start elem => simp only [TypeRef.erase, TypeRef.print_ellipsisArray, elem.print_erase]
  | struct start fields stop =>
    simp only [TypeRef.erase, TypeRef.print_struct, FieldGroup.printAll_erase fields]
  | pointer start elem => simp only [TypeRef.erase, TypeRef.print_pointer, elem.print_erase]
  | func start signature => simp only [TypeRef.erase, TypeRef.print_func, signature.print_erase]
  | interface start elems stop =>
    simp only [TypeRef.erase, TypeRef.print_interface, InterfaceElem.printAll_erase elems]
  | map start key value =>
    simp only [TypeRef.erase, TypeRef.print_map, key.print_erase, value.print_erase]
  | chan start dir elem =>
    cases dir with
    | send => simp only [TypeRef.erase, TypeRef.print_chan_send, elem.print_erase]
    | recv => simp only [TypeRef.erase, TypeRef.print_chan_recv, elem.print_erase]
    | both =>
      simp only [TypeRef.erase, TypeRef.print_chan_both, TypeRef.isRecvChan_erase, elem.print_erase]

theorem FieldGroup.print_erase (f : FieldGroup) : f.erase.print = f.print := by
  obtain ⟨names, type, tag⟩ := f
  have hnames : (names.map Ident.erase).map (·.name) = names.map (·.name) := by
    simp [Ident.erase, Function.comp_def]
  simp only [FieldGroup.erase, FieldGroup.print, hnames, List.isEmpty_map, type.print_erase]
  cases tag <;> rfl

theorem FieldGroup.printAll_erase (fs : List FieldGroup) :
    FieldGroup.printAll (FieldGroup.eraseAll fs) = FieldGroup.printAll fs := by
  cases fs with
  | nil => rfl
  | cons f fs =>
    simp only [FieldGroup.eraseAll, FieldGroup.printAll, f.print_erase, FieldGroup.printAll_erase fs]

theorem InterfaceElem.print_erase (e : InterfaceElem) : e.erase.print = e.print := by
  cases e with
  | method name signature =>
    simp only [InterfaceElem.erase, InterfaceElem.print, signature.print_erase]
    rfl
  | embedded name => simp only [InterfaceElem.erase, InterfaceElem.print, NamedType.print_erase]

theorem InterfaceElem.printAll_erase (es : List InterfaceElem) :
    InterfaceElem.printAll (InterfaceElem.eraseAll es) = InterfaceElem.printAll es := by
  cases es with
  | nil => rfl
  | cons e es =>
    simp only [InterfaceElem.eraseAll, InterfaceElem.printAll, e.print_erase,
      InterfaceElem.printAll_erase es]

theorem Signature.print_erase (s : Signature) : s.erase.print = s.print := by
  obtain ⟨args, results⟩ := s
  cases results with
  | none => simp only [Signature.erase, Signature.print, args.print_erase]
  | some results =>
    simp only [Signature.erase, Signature.print, args.print_erase, results.printResult_erase]

theorem ParamList.print_erase (l : ParamList) : l.erase.print = l.print := by
  obtain ⟨start, params, stop⟩ := l
  simp only [ParamList.erase, ParamList.print, Param.printAll_erase params]

theorem ParamList.printResult_erase (l : ParamList) : l.erase.printResult = l.printResult := by
  obtain ⟨start, params, stop⟩ := l
  simp only [ParamList.erase, ParamList.printResult, Param.printAll_erase params,
    ParamList.isBare_eraseAll _ _ start stop]

theorem Param.print_erase (p : Param) : p.erase.print = p.print := by
  obtain ⟨name, inferred, variadic, type⟩ := p
  cases name with
  | none => simp only [Param.erase, Option.map_none, Param.print, type.print_erase]
  | some name =>
    cases inferred with
    | true =>
      simp only [Param.erase, Option.map_some, Param.print]
      rfl
    | false =>
      simp only [Param.erase, Option.map_some, Param.print, type.print_erase]
      rfl

theorem Param.printAll_erase (ps : List Param) :
    Param.printAll (Param.eraseAll ps) = Param.printAll ps := by
  cases ps with
  | nil => rfl
  | cons p ps => simp only [Param.eraseAll, Param.printAll, p.print_erase, Param.printAll_erase ps]

end

@[simp] theorem FieldGroup.eraseAll_eq_map (fs : List FieldGroup) :
    FieldGroup.eraseAll fs = fs.map FieldGroup.erase := by
  induction fs with
  | nil => rfl
  | cons f fs ih => simp [FieldGroup.eraseAll, ih]

@[simp] theorem InterfaceElem.eraseAll_eq_map (es : List InterfaceElem) :
    InterfaceElem.eraseAll es = es.map InterfaceElem.erase := by
  induction es with
  | nil => rfl
  | cons e es ih => simp [InterfaceElem.eraseAll, ih]

@[simp] theorem Param.eraseAll_eq_map (ps : List Param) : Param.eraseAll ps = ps.map Param.erase := by
  induction ps with
  | nil => rfl
  | cons p ps ih => simp [Param.eraseAll, ih]

def Block.erase (b : Block) : Block := ⟨.nowhere, b.tokens.map Token.erase, .nowhere⟩

def FuncDecl.erase (f : FuncDecl) : FuncDecl :=
  ⟨.nowhere, f.receiver.map ParamList.erase, f.name.erase, f.signature.erase, f.body.map Block.erase⟩

def Decl.erase : Decl → Decl
  | .func f => .func f.erase

def ImportName.erase : ImportName → ImportName
  | .dot _ => .dot .nowhere
  | .blank _ => .blank .nowhere
  | .named name => .named name.erase

def Import.erase (i : Import) : Import :=
  ⟨.nowhere, i.name.map ImportName.erase, i.path.erase⟩

def File.erase (f : File) : File :=
  ⟨.nowhere, f.package.erase, f.imports.map Import.erase, f.decls.map Decl.erase⟩

/-- Positions and the ways to write a semicolon leave no trace in what is printed. -/
theorem Block.print_erase (b : Block) : b.erase.print = b.print := by
  have htokens : ∀ ts : List Token,
      (ts.map Token.erase).flatMap (fun t =>
        if t.kind = .delimiter .semicolon then [' ', ';'] else ' ' :: t.text) =
      ts.flatMap (fun t => if t.kind = .delimiter .semicolon then [' ', ';'] else ' ' :: t.text) := by
    intro ts
    induction ts with
    | nil => rfl
    | cons t ts ih =>
      by_cases hk : t.kind = .delimiter .semicolon <;> simp [Token.erase, hk, ← ih]
  simp only [Block.erase, Block.print, htokens]

theorem FuncDecl.print_eq (f : FuncDecl) :
    f.print = Keyword.funcKw.spelling.toList ++ [' '] ++
      (f.receiver.map fun l => l.print ++ [' ']).getD [] ++ f.name.name ++ f.signature.print ++
      (f.body.map fun b => ' ' :: b.print).getD [] := by
  obtain ⟨start, receiver, name, signature, body⟩ := f
  cases receiver <;> cases body <;> rfl

theorem FuncDecl.print_erase (f : FuncDecl) : f.erase.print = f.print := by
  simp only [FuncDecl.print_eq, FuncDecl.erase, Ident.erase, Signature.print_erase, Option.map_map,
    Function.comp_def, ParamList.print_erase, Block.print_erase]

theorem Decl.print_erase (d : Decl) : d.erase.print = d.print := by
  obtain ⟨f⟩ := d
  exact f.print_erase

theorem Import.print_erase (i : Import) : i.erase.print = i.print := by
  obtain ⟨start, name, path⟩ := i
  cases name with
  | none => rfl
  | some name => cases name <;> rfl

theorem File.print_eq (f : File) :
    f.print = Keyword.packageKw.spelling.toList ++ [' '] ++ f.package.name ++ '\n' ::
      ((if f.imports.isEmpty then [] else '\n' :: f.imports.flatMap fun i => i.print ++ ['\n']) ++
        f.decls.flatMap fun d => '\n' :: d.print ++ ['\n']) := rfl

theorem File.print_erase (f : File) : f.erase.print = f.print := by
  simp only [File.print_eq, File.erase, Ident.erase, List.flatMap_map, List.isEmpty_map,
    Import.print_erase, Decl.print_erase]

end GoSyntax
