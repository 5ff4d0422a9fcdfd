import GoSyntax.Proofs.Tree.Laid

/-! The pieces of a tree, and how they are met on a walk over its nodes. -/
namespace GoSyntax

namespace Slot

variable {α : Type} {c : Piece} {row : List Slot}

theorem mem_pieces : c ∈ pieces row ↔ .part c ∈ row := by
  refine List.mem_filterMap.trans ⟨?_, fun h => ⟨_, h, rfl⟩⟩
  rintro ⟨s, hs, hc⟩
  cases s with
  | part d => rwa [Option.some.inj hc] at hs
  | _ => cases hc

theorem part_mem_list {f : α → List Slot} {kinds : List Kind} {l : List α} :
    .part c ∈ list f kinds l ↔ ∃ a ∈ l, .part c ∈ f a := by
  rw [← mem_pieces, pieces_list, List.mem_flatMap]
  simp only [mem_pieces]

end Slot

/-- The pieces of a tree, at its top and below. -/
inductive Tree.Holds (t : Tree) : Piece → Prop
  | top {p : Piece} (h : p ∈ Slot.pieces t.slots) : Holds t p
  | child {p c : Piece} (h : Holds t p) (hc : c ∈ p.children) : Holds t c

/-- The pieces that a node is, or that it holds if it has no extent of its own. -/
def Node.pieces : Node → List Piece
  | .file f => Slot.pieces f.slots
  | .importSpec i => Slot.pieces i.slots
  | .decl d => [.decl d]
  | .func f => Slot.pieces f.slots
  | .signature s => [.signature s]
  | .param p => p.name.toList.map .ident ++ [.type p.type]
  | .type t => [.type t]
  | .expr e => [.expr e]
  | .block b => [.block b]
  | .ident i => [.ident i]

namespace Tree

variable {t : Tree} {n m : Node} {p c : Piece}

theorem Holds.part (h : t.Holds p) (hc : .part c ∈ p.slots) : t.Holds c :=
  .child h (List.mem_append_left _ (Slot.mem_pieces.2 hc))

/-- All pieces of the node are pieces of the tree. -/
def Meets (t : Tree) (n : Node) : Prop := ∀ c ∈ n.pieces, t.Holds c

theorem Holds.meets (h : t.Holds c) (hn : n.pieces = [c]) : t.Meets n := by
  intro d hd
  rw [hn, List.mem_singleton] at hd
  rwa [hd]

theorem meets_named {x : NamedType} (h : t.Holds (.named x)) : ∀ m ∈ Node.ofNamed x, t.Meets m := by
  intro m hm
  obtain ⟨i, hi, rfl⟩ := List.mem_map.1 hm
  refine (h.part (c := .ident i) ?_).meets rfl
  simp only [NamedType.idents, List.mem_append, Option.mem_toList, List.mem_singleton] at hi
  rcases hi with hi | rfl
  · simp [Piece.slots, NamedType.slots, hi]
  · simp [Piece.slots, NamedType.slots]

/-- The types of parameters are children of the list, whether they were copied or not. -/
theorem meets_params {l : ParamList} (h : t.Holds (.params l)) :
    ∀ m ∈ Node.ofParams l, t.Meets m := by
  intro m hm c hc
  obtain ⟨d, hd, rfl⟩ := List.mem_map.1 hm
  have hslots : ∀ c, .part c ∈ d.slots → t.Holds c := fun c hc => h.part (by
    simp only [Piece.slots, ParamList.slots, List.mem_cons, List.mem_append]
    exact .inr (.inl (Slot.part_mem_list.2 ⟨d, hd, hc⟩)))
  rcases List.mem_append.1 hc with hc | hc
  · obtain ⟨i, hi, rfl⟩ := List.mem_map.1 hc
    exact hslots _ (by simp [Param.slots, Option.mem_toList.1 hi])
  · obtain rfl := List.mem_singleton.1 hc
    cases hi : d.inferred with
    | false => exact hslots _ (by simp [Param.slots, hi])
    | true =>
      refine .child h (List.mem_append_right _ (List.mem_map.2 ⟨d, ?_, rfl⟩))
      exact List.mem_filter.2 ⟨hd, hi⟩

theorem meets_typeChildren {x : TypeRef} (h : t.Holds (.type x)) :
    ∀ m ∈ Node.typeChildren x, t.Meets m := by
  intro m hm
  cases x with
  | named x => exact meets_named (h.part (by simp [Piece.slots, TypeRef.slots])) m hm
  | struct start fields stop =>
    obtain ⟨f, hf, hm⟩ := List.mem_flatMap.1 hm
    have hslots : ∀ {c}, .part c ∈ f.slots →
        .part c ∈ (Piece.type (.struct start fields stop)).slots := fun hc => by
      simp only [Piece.slots, TypeRef.slots, List.mem_cons, List.mem_append]
      exact .inr (.inr (.inl (Slot.part_mem_list.2 ⟨f, hf, hc⟩)))
    rcases List.mem_append.1 hm with hm | hm
    · obtain ⟨i, hi, rfl⟩ := List.mem_map.1 hm
      refine (h.part (hslots (c := .ident i) ?_)).meets rfl
      exact List.mem_append_left _ (Slot.part_mem_list.2 ⟨i, hi, List.mem_singleton.2 rfl⟩)
    · obtain rfl := List.mem_singleton.1 hm
      exact (h.part (hslots (c := .type f.type) (by simp [FieldGroup.slots]))).meets rfl
  | interface start elems stop =>
    obtain ⟨e, he, hm⟩ := List.mem_flatMap.1 hm
    have hslots : ∀ {c}, .part c ∈ e.slots →
        .part c ∈ (Piece.type (.interface start elems stop)).slots := fun hc => by
      simp only [Piece.slots, TypeRef.slots, List.mem_cons, List.mem_append]
      exact .inr (.inr (.inl (Slot.part_mem_list.2 ⟨e, he, hc⟩)))
    cases e with
    | method name sig =>
      simp only [Node.ofElem, List.mem_cons, List.not_mem_nil, or_false] at hm
      rcases hm with rfl | rfl
      · exact (h.part (hslots (c := .ident name) (by simp [InterfaceElem.slots]))).meets rfl
      · exact (h.part (hslots (c := .signature sig) (by simp [InterfaceElem.slots]))).meets rfl
    | embedded x =>
      exact meets_named (h.part (hslots (c := .named x) (by simp [InterfaceElem.slots]))) m hm
  | array | slice | ellipsisArray | pointer | func | map | chan =>
    simp only [Node.typeChildren, List.mem_cons, List.not_mem_nil, or_false] at hm
    rcases hm with rfl | rfl <;>
      exact (h.part (by simp [Piece.slots, TypeRef.slots])).meets rfl

theorem meets_exprChildren {e : Expr} (h : t.Holds (.expr e)) :
    ∀ m ∈ Node.exprChildren e, t.Meets m := by
  intro m hm
  cases e with
  | literal => cases hm
  | call function args stop =>
    rcases List.mem_cons.1 hm with rfl | hm
    · exact (h.part (c := .expr function) (by simp [Piece.slots, Expr.slots])).meets rfl
    · obtain ⟨a, ha, rfl⟩ := List.mem_map.1 hm
      refine (h.part (c := .expr a) ?_).meets rfl
      simp only [Piece.slots, Expr.slots, List.mem_cons, List.mem_append]
      exact .inr (.inr (.inl (Slot.part_mem_list.2 ⟨a, ha, List.mem_singleton.2 rfl⟩)))
  | ident | selector | paren | unary | binary =>
    simp only [Node.exprChildren, List.mem_cons, List.not_mem_nil, or_false] at hm
    rcases hm with rfl | rfl <;>
      exact (h.part (by simp [Piece.slots, Expr.slots])).meets rfl

/-- What a function holds is held by its declaration. -/
theorem meets_funcChildren {f : FuncDecl} (h : t.Meets (.func f)) :
    ∀ m ∈ (Node.func f).children, t.Meets m := by
  intro m hm
  have hslots : ∀ {c}, .part c ∈ f.slots → t.Holds c := fun hc => h _ (Slot.mem_pieces.2 hc)
  rcases List.mem_append.1 hm with hm | hm
  · cases hr : f.receiver with
    | none =>
      rw [hr] at hm
      cases hm
    | some l =>
      rw [hr] at hm
      exact meets_params (hslots (by simp [FuncDecl.slots, hr])) m hm
  · rcases List.mem_cons.1 hm with rfl | hm
    · exact (hslots (c := .ident f.name) (by simp [FuncDecl.slots])).meets rfl
    · rcases List.mem_cons.1 hm with rfl | hm
      · exact (hslots (c := .signature f.signature) (by simp [FuncDecl.slots])).meets rfl
      · obtain ⟨b, hb, rfl⟩ := List.mem_map.1 hm
        refine (hslots (c := .block b) ?_).meets rfl
        simp [FuncDecl.slots, Option.mem_toList.1 hb]

theorem meets_fileChildren {f : File} (h : t.Meets (.file f)) :
    ∀ m ∈ (Node.file f).children, t.Meets m := by
  intro m hm c hc
  refine h c (Slot.mem_pieces.2 ?_)
  simp only [File.slots, List.mem_cons, List.mem_append, Slot.part_mem_list]
  rcases List.mem_cons.1 hm with rfl | hm
  · obtain rfl := List.mem_singleton.1 hc
    simp
  · rcases List.mem_append.1 hm with hm | hm
    · obtain ⟨i, hi, rfl⟩ := List.mem_map.1 hm
      exact .inr (.inr (.inl ⟨i, hi, Slot.mem_pieces.1 hc⟩))
    · obtain ⟨d, hd, rfl⟩ := List.mem_map.1 hm
      obtain rfl := List.mem_singleton.1 hc
      exact .inr (.inr (.inr ⟨d, hd, .inl rfl⟩))

/-- From a node on to its children no piece is lost. -/
theorem Meets.children (h : t.Meets n) : ∀ m ∈ n.children, t.Meets m := by
  cases n with
  | file f => exact meets_fileChildren h
  | importSpec i =>
    intro m hm c hc
    obtain ⟨start, name, path⟩ := i
    refine h c ?_
    match name with
    | none | some (.dot _) | some (.blank _) => cases hm
    | some (.named name) =>
      obtain rfl := List.mem_singleton.1 hm
      obtain rfl := List.mem_singleton.1 hc
      exact List.mem_cons_self
  | decl d =>
    intro m hm c hc
    obtain ⟨f⟩ := d
    obtain rfl := List.mem_singleton.1 hm
    exact (h _ List.mem_cons_self).part (Slot.mem_pieces.1 hc)
  | func f => exact meets_funcChildren h
  | signature s =>
    intro m hm
    have hs := h _ List.mem_cons_self
    rcases List.mem_append.1 hm with hm | hm
    · exact meets_params (hs.part (by simp [Piece.slots, Signature.slots])) m hm
    · cases hr : s.results with
      | none =>
        rw [hr] at hm
        cases hm
      | some l =>
        rw [hr] at hm
        exact meets_params (hs.part (by simp [Piece.slots, Signature.slots, hr])) m hm
  | param d =>
    intro m hm c hc
    refine h c ?_
    rcases List.mem_append.1 hm with hm | hm
    · obtain ⟨i, hi, rfl⟩ := List.mem_map.1 hm
      obtain rfl := List.mem_singleton.1 hc
      exact List.mem_append_left _ (List.mem_map_of_mem hi)
    · obtain rfl := List.mem_singleton.1 hm
      obtain rfl := List.mem_singleton.1 hc
      exact List.mem_append_right _ List.mem_cons_self
  | type x => exact meets_typeChildren (h _ List.mem_cons_self)
  | expr e => exact meets_exprChildren (h _ List.mem_cons_self)
  | block b => exact fun m hm => absurd hm List.not_mem_nil
  | ident i => exact fun m hm => absurd hm List.not_mem_nil

theorem Meets.everything (h : t.Meets n) : ∀ m ∈ n.everything, t.Meets m := by
  induction hw : n.weight using Nat.strongRecOn generalizing n with
  | ind w ih =>
    intro m hm
    rw [Node.everything, Node.walk_eq] at hm
    rcases List.mem_cons.1 hm with rfl | hm
    · exact h
    · obtain ⟨c, hc, hm⟩ := List.mem_flatMap.1 hm
      have hc := (List.mem_filter.1 hc).1
      exact ih c.weight (hw ▸ Node.weight_of_mem_children hc) (h.children c hc) rfl m hm

/-- Every node that a walk over the tree comes to is a piece of the tree or holds pieces of it. -/
theorem meets_everything (t : Tree) : ∀ n ∈ t.roots.flatMap Node.everything, t.Meets n := by
  intro n hn
  obtain ⟨r, hr, hn⟩ := List.mem_flatMap.1 hn
  refine Meets.everything ?_ n hn
  have htop : ∀ {c}, .part c ∈ t.slots → t.Holds c := fun hc => .top (Slot.mem_pieces.2 hc)
  cases t with
  | file f =>
    obtain rfl := List.mem_singleton.1 hr
    exact fun c hc => .top hc
  | func f =>
    obtain rfl := List.mem_singleton.1 hr
    exact fun c hc => (htop (c := .decl (.func f)) (by simp [slots])).part (Slot.mem_pieces.1 hc)
  | params l => exact meets_params (htop (by simp [slots])) r hr
  | nothing => cases hr
  | decl | signature | type | expr | block | ident =>
    obtain rfl := List.mem_singleton.1 hr
    intro c hc
    obtain rfl := List.mem_singleton.1 hc
    exact htop (by simp [slots])

end Tree
end GoSyntax
