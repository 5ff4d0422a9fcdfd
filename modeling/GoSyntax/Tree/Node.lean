import GoSyntax.Tree.Declaration

/-! Trees of every sort seen as nodes with children, and walks over them. Parameter lists, fields,
methods and qualified names are no nodes of their own: what they hold belongs to the node around
them. -/
namespace GoSyntax

inductive Node
  | file (f : File)
  | importSpec (i : Import)
  | decl (d : Decl)
  | func (f : FuncDecl)
  | signature (s : Signature)
  | param (p : Param)
  | type (t : TypeRef)
  | expr (e : Expr)
  | block (b : Block)
  | ident (i : Ident)

namespace Node

def ofParams (l : ParamList) : List Node := l.params.map .param

def ofNamed (n : NamedType) : List Node := n.idents.map .ident

def ofField (f : FieldGroup) : List Node := f.names.map .ident ++ [.type f.type]

def ofElem : InterfaceElem → List Node
  | .method name sig => [.ident name, .signature sig]
  | .embedded name => ofNamed name

def ofImportName : ImportName → List Node
  | .named name => [.ident name]
  | .dot _ | .blank _ => []

def typeChildren : TypeRef → List Node
  | .named name => ofNamed name
  | .array _ length elem => [.expr length, .type elem]
  | .slice _ elem | .ellipsisArray _ elem | .pointer _ elem | .chan _ _ elem => [.type elem]
  | .struct _ fields _ => fields.flatMap ofField
  | .func _ sig => [.signature sig]
  | .interface _ elems _ => elems.flatMap ofElem
  | .map _ key value => [.type key, .type value]

def exprChildren : Expr → List Node
  | .ident i => [.ident i]
  | .literal _ => []
  | .selector base field => [.expr base, .ident field]
  | .paren _ inner _ => [.expr inner]
  | .unary _ _ operand => [.expr operand]
  | .binary _ left right => [.expr left, .expr right]
  | .call function args _ => .expr function :: args.map .expr

/-- The nodes right below a node, in source order. -/
def children : Node → List Node
  | file f => .ident f.package :: (f.imports.map .importSpec ++ f.decls.map .decl)
  | importSpec i => (i.name.map ofImportName).getD []
  | decl (.func f) => [.func f]
  | func f =>
    (f.receiver.map ofParams).getD [] ++
      .ident f.name :: .signature f.signature :: f.body.toList.map .block
  | signature s => ofParams s.args ++ (s.results.map ofParams).getD []
  | param p => p.name.toList.map .ident ++ [.type p.type]
  | type t => typeChildren t
  | expr e => exprChildren e
  | block _ | ident _ => []

/-- The size of what a node holds. -/
noncomputable def weight : Node → Nat
  | file f => sizeOf f
  | importSpec i => sizeOf i
  | decl d => sizeOf d
  | func f => sizeOf f
  | signature s => sizeOf s
  | param p => sizeOf p
  | type t => sizeOf t
  | expr e => sizeOf e
  | block b => sizeOf b
  | ident i => sizeOf i

@[simp] theorem weight_file (f : File) : (file f).weight = sizeOf f := rfl
@[simp] theorem weight_importSpec (i : Import) : (importSpec i).weight = sizeOf i := rfl
@[simp] theorem weight_decl (d : Decl) : (decl d).weight = sizeOf d := rfl
@[simp] theorem weight_func (f : FuncDecl) : (func f).weight = sizeOf f := rfl
@[simp] theorem weight_signature (s : Signature) : (signature s).weight = sizeOf s := rfl
@[simp] theorem weight_param (p : Param) : (param p).weight = sizeOf p := rfl
@[simp] theorem weight_type (t : TypeRef) : (type t).weight = sizeOf t := rfl
@[simp] theorem weight_expr (e : Expr) : (expr e).weight = sizeOf e := rfl
@[simp] theorem weight_block (b : Block) : (block b).weight = sizeOf b := rfl
@[simp] theorem weight_ident (i : Ident) : (ident i).weight = sizeOf i := rfl

theorem weight_of_mem_ofParams {l : ParamList} {c : Node} (h : c ∈ ofParams l) :
    c.weight < sizeOf l := by
  obtain ⟨start, params, stop⟩ := l
  obtain ⟨p, hp, rfl⟩ := List.mem_map.1 h
  have : sizeOf p < sizeOf params := List.sizeOf_lt_of_mem hp
  simp only [weight_param, ParamList.mk.sizeOf_spec]
  omega

theorem weight_of_mem_ofNamed {n : NamedType} {c : Node} (h : c ∈ ofNamed n) :
    c.weight < sizeOf n := by
  obtain ⟨package, name⟩ := n
  obtain ⟨i, hi, rfl⟩ := List.mem_map.1 h
  simp only [weight_ident, NamedType.mk.sizeOf_spec]
  rcases List.mem_append.1 hi with hi | hi
  · obtain rfl := Option.mem_toList.1 hi
    simp only [Option.some.sizeOf_spec]
    omega
  · obtain rfl := List.mem_singleton.1 hi
    omega

theorem weight_of_mem_ofField {f : FieldGroup} {c : Node} (h : c ∈ ofField f) :
    c.weight < sizeOf f := by
  obtain ⟨names, type, tag⟩ := f
  simp only [FieldGroup.mk.sizeOf_spec]
  rcases List.mem_append.1 h with h | h
  · obtain ⟨i, hi, rfl⟩ := List.mem_map.1 h
    have : sizeOf i < sizeOf names := List.sizeOf_lt_of_mem hi
    simp only [weight_ident]
    omega
  · obtain rfl := List.mem_singleton.1 h
    simp only [weight_type]
    omega

theorem weight_of_mem_ofElem {e : InterfaceElem} {c : Node} (h : c ∈ ofElem e) :
    c.weight < sizeOf e := by
  cases e with
  | method name sig =>
    simp only [ofElem, List.mem_cons, List.not_mem_nil, or_false] at h
    rcases h with rfl | rfl <;>
      simp only [weight_ident, weight_signature, InterfaceElem.method.sizeOf_spec] <;> omega
  | embedded name =>
    have := weight_of_mem_ofNamed h
    simp only [InterfaceElem.embedded.sizeOf_spec]
    omega

theorem weight_of_mem_ofImportName {n : ImportName} {c : Node} (h : c ∈ ofImportName n) :
    c.weight < sizeOf n := by
  cases n with
  | dot pos => exact absurd h List.not_mem_nil
  | blank pos => exact absurd h List.not_mem_nil
  | named name =>
    obtain rfl := List.mem_singleton.1 h
    simp only [weight_ident, ImportName.named.sizeOf_spec]
    omega

theorem weight_of_mem_typeChildren {t : TypeRef} {c : Node} (h : c ∈ typeChildren t) :
    c.weight < sizeOf t := by
  cases t with
  | named name =>
    have := weight_of_mem_ofNamed h
    simp only [TypeRef.named.sizeOf_spec]
    omega
  | array start length elem =>
    simp only [typeChildren, List.mem_cons, List.not_mem_nil, or_false] at h
    rcases h with rfl | rfl <;>
      simp only [weight_expr, weight_type, TypeRef.array.sizeOf_spec] <;> omega
  | slice start elem =>
    obtain rfl := List.mem_singleton.1 h
    simp only [weight_type, TypeRef.slice.sizeOf_spec]
    omega
  | ellipsisArray start elem =>
    obtain rfl := List.mem_singleton.1 h
    simp only [weight_type, TypeRef.ellipsisArray.sizeOf_spec]
    omega
  | pointer start elem =>
    obtain rfl := List.mem_singleton.1 h
    simp only [weight_type, TypeRef.pointer.sizeOf_spec]
    omega
  | chan start dir elem =>
    obtain rfl := List.mem_singleton.1 h
    simp only [weight_type, TypeRef.chan.sizeOf_spec]
    omega
  | func start sig =>
    obtain rfl := List.mem_singleton.1 h
    simp only [weight_signature, TypeRef.func.sizeOf_spec]
    omega
  | map start key value =>
    simp only [typeChildren, List.mem_cons, List.not_mem_nil, or_false] at h
    rcases h with rfl | rfl <;> simp only [weight_type, TypeRef.map.sizeOf_spec] <;> omega
  | struct start fields stop =>
    obtain ⟨f, hf, hc⟩ := List.mem_flatMap.1 h
    have := weight_of_mem_ofField hc
    have : sizeOf f < sizeOf fields := List.sizeOf_lt_of_mem hf
    simp only [TypeRef.struct.sizeOf_spec]
    omega
  | interface start elems stop =>
    obtain ⟨e, he, hc⟩ := List.mem_flatMap.1 h
    have := weight_of_mem_ofElem hc
    have : sizeOf e < sizeOf elems := List.sizeOf_lt_of_mem he
    simp only [TypeRef.interface.sizeOf_spec]
    omega

theorem weight_of_mem_exprChildren {e : Expr} {c : Node} (h : c ∈ exprChildren e) :
    c.weight < sizeOf e := by
  cases e with
  | ident i =>
    obtain rfl := List.mem_singleton.1 h
    simp only [weight_ident, Expr.ident.sizeOf_spec]
    omega
  | literal l => exact absurd h List.not_mem_nil
  | selector base field =>
    simp only [exprChildren, List.mem_cons, List.not_mem_nil, or_false] at h
    rcases h with rfl | rfl <;>
      simp only [weight_expr, weight_ident, Expr.selector.sizeOf_spec] <;> omega
  | paren start inner stop =>
    obtain rfl := List.mem_singleton.1 h
    simp only [weight_expr, Expr.paren.sizeOf_spec]
    omega
  | unary start op operand =>
    obtain rfl := List.mem_singleton.1 h
    simp only [weight_expr, Expr.unary.sizeOf_spec]
    omega
  | binary op left right =>
    simp only [exprChildren, List.mem_cons, List.not_mem_nil, or_false] at h
    rcases h with rfl | rfl <;> simp only [weight_expr, Expr.binary.sizeOf_spec] <;> omega
  | call function args stop =>
    rcases List.mem_cons.1 h with rfl | h
    · simp only [weight_expr, Expr.call.sizeOf_spec]
      omega
    · obtain ⟨a, ha, rfl⟩ := List.mem_map.1 h
      have : sizeOf a < sizeOf args := List.sizeOf_lt_of_mem ha
      simp only [weight_expr, Expr.call.sizeOf_spec]
      omega

theorem weight_of_mem_fileChildren {f : File} {c : Node} (h : c ∈ children (file f)) :
    c.weight < sizeOf f := by
  obtain ⟨start, package, imports, decls⟩ := f
  simp only [File.mk.sizeOf_spec]
  rcases List.mem_cons.1 h with rfl | h
  · simp only [weight_ident]
    omega
  · rcases List.mem_append.1 h with h | h
    · obtain ⟨i, hi, rfl⟩ := List.mem_map.1 h
      have : sizeOf i < sizeOf imports := List.sizeOf_lt_of_mem hi
      simp only [weight_importSpec]
      omega
    · obtain ⟨d, hd, rfl⟩ := List.mem_map.1 h
      have : sizeOf d < sizeOf decls := List.sizeOf_lt_of_mem hd
      simp only [weight_decl]
      omega

/-- The nodes of a parameter list that may be missing. -/
theorem weight_of_mem_optionParams {l : Option ParamList} {c : Node}
    (h : c ∈ (l.map ofParams).getD []) : c.weight < sizeOf l := by
  cases l with
  | none => exact absurd h List.not_mem_nil
  | some l =>
    have : c.weight < sizeOf l := weight_of_mem_ofParams h
    simp only [Option.some.sizeOf_spec]
    omega

theorem weight_of_mem_funcChildren {f : FuncDecl} {c : Node} (h : c ∈ children (func f)) :
    c.weight < sizeOf f := by
  obtain ⟨start, receiver, name, sig, body⟩ := f
  simp only [FuncDecl.mk.sizeOf_spec]
  rcases List.mem_append.1 h with h | h
  · have : c.weight < sizeOf receiver := weight_of_mem_optionParams h
    omega
  · rcases List.mem_cons.1 h with rfl | h
    · simp only [weight_ident]
      omega
    · rcases List.mem_cons.1 h with rfl | h
      · simp only [weight_signature]
        omega
      · obtain ⟨b, hb, rfl⟩ := List.mem_map.1 h
        obtain rfl := Option.mem_toList.1 hb
        simp only [weight_block, Option.some.sizeOf_spec]
        omega

/-- Children are smaller than the node they belong to. -/
theorem weight_of_mem_children {n c : Node} (h : c ∈ n.children) : c.weight < n.weight := by
  cases n with
  | file f => exact weight_of_mem_fileChildren h
  | importSpec i =>
    obtain ⟨start, name, path⟩ := i
    cases name with
    | none => exact absurd h List.not_mem_nil
    | some name =>
      have : c.weight < sizeOf name := weight_of_mem_ofImportName h
      simp only [weight_importSpec, Import.mk.sizeOf_spec, Option.some.sizeOf_spec]
      omega
  | decl d =>
    obtain ⟨f⟩ := d
    obtain rfl := List.mem_singleton.1 h
    simp only [weight_func, weight_decl, Decl.func.sizeOf_spec]
    omega
  | func f => exact weight_of_mem_funcChildren h
  | signature s =>
    obtain ⟨args, results⟩ := s
    simp only [weight_signature, Signature.mk.sizeOf_spec]
    rcases List.mem_append.1 h with h | h
    · have : c.weight < sizeOf args := weight_of_mem_ofParams h
      omega
    · have : c.weight < sizeOf results := weight_of_mem_optionParams h
      omega
  | param p =>
    obtain ⟨name, inferred, variadic, type⟩ := p
    simp only [weight_param, Param.mk.sizeOf_spec]
    rcases List.mem_append.1 h with h | h
    · obtain ⟨i, hi, rfl⟩ := List.mem_map.1 h
      obtain rfl := Option.mem_toList.1 hi
      simp only [weight_ident, Option.some.sizeOf_spec]
      omega
    · obtain rfl := List.mem_singleton.1 h
      simp only [weight_type]
      omega
  | type t => exact weight_of_mem_typeChildren h
  | expr e => exact weight_of_mem_exprChildren h
  | block b => exact absurd h List.not_mem_nil
  | ident i => exact absurd h List.not_mem_nil

/-- The nodes at and below `n`, each before those below it, entering a child only where `follow`
allows the way to it from its parent. -/
def walk (follow : Node → Node → Bool) (n : Node) : List Node :=
  n :: (n.children.filter (follow n)).attach.flatMap fun c => walk follow c.1
termination_by n.weight
decreasing_by exact weight_of_mem_children ((List.mem_filter.1 c.2).1)

theorem walk_eq (follow : Node → Node → Bool) (n : Node) :
    n.walk follow = n :: (n.children.filter (follow n)).flatMap (walk follow) := by
  rw [walk]
  simp [List.flatMap]

/-- Every node at and below `n`. -/
def everything (n : Node) : List Node := n.walk fun _ _ => true

end Node
end GoSyntax
