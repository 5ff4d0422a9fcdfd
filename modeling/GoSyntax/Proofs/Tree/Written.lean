import GoSyntax.Tree.Survey
import GoSyntax.Proofs.Grammar.Entries

/-! Trees and the tokens they were read from. Every token belongs to the innermost node around it,
and the nodes of a row take their tokens one after the other. -/
namespace GoSyntax

/-- Nodes whose own tokens are no identifiers. -/
def Node.isPlain : Node → Bool
  | .ident _ | .block _ => false
  | .importSpec ⟨_, some (.blank _), _⟩ => false
  | _ => true

/-- The nodes that are written below a node: its children but for types that were inferred. -/
def Node.parts (n : Node) : List Node := n.children.filter n.isWritten

theorem Node.parts_eq {n : Node} (h : n.isParam = false) : n.parts = n.children := by
  refine List.filter_eq_self.2 fun c _ => ?_
  cases n with
  | param p => cases h
  | _ => rfl

/-- The row of nodes is written as the tokens. -/
inductive Written : List Node → List Token → Prop
  | nil : Written [] []
  | mark {ns : List Node} {t : Token} {ts : List Token} (hk : t.kind ≠ .identifier)
    (h : Written ns ts) : Written ns (t :: ts)
  | ident {ns : List Node} {t : Token} {ts : List Token} (hk : t.kind = .identifier)
    (h : Written ns ts) : Written (.ident (.ofToken t) :: ns) (t :: ts)
  | node {n : Node} {ns : List Node} {ts us : List Token} (hn : n.isPlain = true)
    (hc : Written n.parts ts) (h : Written ns us) : Written (n :: ns) (ts ++ us)
  | block {b : Block} {ns : List Node} {opening closing : Token} {us : List Token}
    (ho : opening.kind = .delimiter .lbrace) (hc : closing.kind = .delimiter .rbrace)
    (hstart : b.start = opening.pos) (hstop : b.stop = closing.stop) (h : Written ns us) :
    Written (.block b :: ns) (opening :: (b.tokens ++ closing :: us))
  | blank {start : Position} {path : StringLit} {ns : List Node} {t : Token} {us : List Token}
    (hk : t.kind = .identifier) (htext : t.text = ['_']) (h : Written ns us) :
    Written (.importSpec ⟨start, some (.blank t.pos), path⟩ :: ns) (t :: us)

namespace Written

variable {n : Node} {ns ms : List Node} {t : Token} {ts us : List Token}

theorem append (h : Written ns ts) (h' : Written ms us) : Written (ns ++ ms) (ts ++ us) := by
  induction h with
  | nil => exact h'
  | mark hk _ ih => exact .mark hk ih
  | ident hk _ ih => exact .ident hk ih
  | node hn hc _ _ ih =>
    rw [List.append_assoc]
    exact .node hn hc ih
  | block ho hc hstart hstop _ ih => simpa using Written.block ho hc hstart hstop ih
  | blank hk htext _ ih => exact .blank hk htext ih

theorem snoc (h : Written ns ts) (hk : t.kind ≠ .identifier) : Written ns (ts ++ [t]) := by
  have hall := h.append (.mark hk .nil)
  rwa [List.append_nil] at hall

theorem of_ident (hk : t.kind = .identifier) : Written [.ident (.ofToken t)] [t] := .ident hk .nil

/-- What is written below a node is written as the node. -/
theorem wrap (hn : n.isPlain = true) (h : Written n.parts ts) : Written [n] ts := by
  rw [← List.append_nil ts]
  exact .node hn h .nil

/-- What is written as a node is written below it. -/
theorem unwrap (h : Written [n] ts) (hn : n.isPlain = true) : Written n.parts ts := by
  generalize hrow : [n] = row at h
  induction h with
  | nil => cases hrow
  | mark hk _ ih => exact .mark hk (ih hrow)
  | ident => cases hrow; cases hn
  | node _ hc h =>
    cases hrow
    have hall := hc.append h
    rwa [List.append_nil] at hall
  | block => cases hrow; cases hn
  | blank => cases hrow; cases hn

theorem uncons (h : Written (n :: ns) ts) :
    ∃ us vs, ts = us ++ vs ∧ Written [n] us ∧ Written ns vs := by
  generalize hrow : n :: ns = row at h
  induction h with
  | nil => cases hrow
  | mark hk _ ih =>
    obtain ⟨us, vs, rfl, hus, hvs⟩ := ih hrow
    exact ⟨_ :: us, vs, rfl, .mark hk hus, hvs⟩
  | @ident _ t ts hk h =>
    cases hrow
    exact ⟨[t], ts, rfl, of_ident hk, h⟩
  | @node _ _ ts us hn hc h =>
    cases hrow
    exact ⟨ts, us, rfl, wrap hn hc, h⟩
  | @block b _ opening closing us ho hc hstart hstop h =>
    cases hrow
    exact ⟨opening :: (b.tokens ++ [closing]), us, by simp, .block ho hc hstart hstop .nil, h⟩
  | @blank _ _ _ t us hk htext h =>
    cases hrow
    exact ⟨[t], us, rfl, .blank hk htext .nil, h⟩

/-- A row that is cut in two cuts its tokens in two. -/
theorem split (h : Written (ns ++ ms) ts) :
    ∃ us vs, ts = us ++ vs ∧ Written ns us ∧ Written ms vs := by
  induction ns generalizing ts with
  | nil => exact ⟨[], ts, rfl, .nil, h⟩
  | cons n ns ih =>
    obtain ⟨us, vs, rfl, hn, hrest⟩ := h.uncons
    obtain ⟨vs, ws, rfl, hns, hms⟩ := ih hrest
    exact ⟨us ++ vs, ws, (List.append_assoc ..).symm, hn.append hns, hms⟩

/-- A node of a row has its part of the tokens. -/
theorem of_mem (h : Written ns ts) (hn : n ∈ ns) :
    ∃ us vs ws, ts = us ++ vs ++ ws ∧ Written [n] vs := by
  obtain ⟨before, behind, rfl⟩ := List.append_of_mem hn
  obtain ⟨us, vs, rfl, -, hrest⟩ := h.split
  obtain ⟨vs, ws, rfl, hvs, -⟩ := hrest.uncons
  exact ⟨us, vs, ws, (List.append_assoc ..).symm, hvs⟩

end Written

namespace Parse.Entry

open Parse (Entry)

/-- The nodes that an entry is written as, whatever becomes of it. -/
def parts : Entry → List Node
  | lone name => [.ident name]
  | variadic type | plain type | bare type => [.type type]
  | named name _ type => [.ident name, .type type]

variable {e : Entry} {es : List Entry} {ps : List Param} {ts : List Token}

theorem written_typeRef (h : GoSyntax.Written e.parts ts) (hn : e.isNamed = false) :
    GoSyntax.Written [.type e.typeRef] ts := by
  unfold parts at h
  split at h
  · exact .wrap rfl h
  · exact h
  · exact h
  · exact h
  · cases hn

theorem Resolves.written {carried : Option TypeRef} (h : Resolves es ps carried)
    (hw : GoSyntax.Written (es.flatMap parts) ts) : GoSyntax.Written (ps.map .param) ts := by
  induction h generalizing ts with
  | nil => exact hw
  | named name v type _ ih =>
    obtain ⟨us, vs, rfl, hparts, hrest⟩ := hw.split
    exact .node rfl hparts (ih hrest)
  | bare name _ ih =>
    obtain ⟨us, vs, rfl, hparts, hrest⟩ := hw.split
    exact .node rfl hparts (ih hrest)

/-- Parameters are written as the entries that they were made of: a name that took the type of
another one is written as just that name. -/
theorem Settles.written {namesRequired : Bool} (h : Settles namesRequired es ps)
    (hw : GoSyntax.Written (es.flatMap parts) ts) : GoSyntax.Written (ps.map .param) ts := by
  cases h with
  | names _ _ hres => exact hres.written hw
  | types hv hn hr =>
    have hunnamed : ∀ e ∈ es, e.isNamed = false := fun e he =>
      Bool.eq_false_iff.2 fun hnamed => hn ⟨e, he, hnamed⟩
    -- that no entry is named is all that the induction on the entries can keep
    clear hv hn hr
    induction es generalizing ts with
    | nil => exact hw
    | cons e es ih =>
      obtain ⟨he, hes⟩ := List.forall_mem_cons.1 hunnamed
      obtain ⟨us, vs, rfl, hparts, hrest⟩ := hw.split
      exact .node rfl (written_typeRef hparts he) (ih hrest hes)

end Parse.Entry
end GoSyntax
