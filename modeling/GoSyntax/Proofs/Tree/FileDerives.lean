import GoSyntax.Proofs.Grammar.FileComplete

/-! The grammar of files, without the rules that read them. -/
namespace GoSyntax

open Parse (Entry importWords blockWords groupWords)

/-- The words of an import behind the keyword: a name that it goes by, if any, and its path. A name
that is blank is no name. -/
inductive SpecDerives : Import → List Word → Prop
  | mk {i : Import} {form : LiteralForm} (hf : form.isString = true)
    (hn : ∀ name, i.name = some (.named name) → name.isBlank = false) :
    SpecDerives i (importWords form i)

/-- The words behind the keyword of an import declaration: one import, or a group of them in
parentheses with semicolons between them, and perhaps behind the last. -/
inductive ImportDerives : List Import → List Word → Prop
  | single {i : Import} {ws : List Word} (h : SpecDerives i ws) :
    ImportDerives [i] (ws ++ [.delimiter .semicolon])
  | group {specs : List (Import × List Word)} {ws : List Word}
    (h : ∀ i ∈ specs, SpecDerives i.1 i.2)
    (hs : Separated (.delimiter .semicolon) (specs.map Prod.snd) ws) :
    ImportDerives (specs.map Prod.fst)
      (.delimiter .lparen :: (ws ++ [.delimiter .rparen, .delimiter .semicolon]))

/-- The words of a receiver, a list of exactly one entry. -/
inductive ReceiverDerives : Option ParamList → List Word → Prop
  | absent : ReceiverDerives none []
  | list {e : Entry × List Word} {l : ParamList} {ws : List Word} (h : ListDerives true [e] l ws) :
    ReceiverDerives (some l) ws

/-- The words of a body, in which only the braces have to match. -/
inductive BodyDerives : Option Block → List Word → Prop
  | absent : BodyDerives none []
  | block {b : Block} {room : Nat} (hb : Braced room 0 b.tokens)
    (he : ∀ t ∈ b.tokens, t.kind ≠ .endOfFile) : BodyDerives (some b) (blockWords b)

/-- The words of a function with the semicolon behind it. -/
inductive FuncDerives : FuncDecl → List Word → Prop
  | mk {receiver : Option ParamList} {args : ParamList} {results : Option ParamList}
    {body : Option Block} {entries : List (Entry × List Word)} {us vs ws xs : List Word}
    (start : Position) (name : Ident) (hr : ReceiverDerives receiver us)
    (ha : ListDerives true entries args vs) (ho : Derives (.results results) ws)
    (hb : BodyDerives body xs) :
    FuncDerives ⟨start, receiver, name, ⟨args, results⟩, body⟩
      (.keyword .funcKw :: (us ++ .identifier name.name ::
        (vs ++ (ws ++ (xs ++ [.delimiter .semicolon])))))

/-- The words of declarations, with semicolons wherever one likes. -/
inductive DeclsDerive : List Decl → List Word → Prop
  | nil : DeclsDerive [] []
  | stray {ds : List Decl} {ws : List Word} (h : DeclsDerive ds ws) :
    DeclsDerive ds (.delimiter .semicolon :: ws)
  | func {f : FuncDecl} {ds : List Decl} {vs ws : List Word} (hf : FuncDerives f vs)
    (h : DeclsDerive ds ws) : DeclsDerive (.func f :: ds) (vs ++ ws)

/-- The words of a file, up to the end of the source. The imports of all groups make one list. -/
inductive FileDerives : File → List Word → Prop
  | mk {groups : List (List Import × List Word)} {decls : List Decl} {ws : List Word}
    (start : Position) (package : Ident) (hi : ∀ g ∈ groups, ImportDerives g.1 g.2)
    (hd : DeclsDerive decls ws) :
    FileDerives ⟨start, package, (groups.map Prod.fst).flatten, decls⟩
      (.keyword .packageKw :: .identifier package.name :: .delimiter .semicolon ::
        (groupWords groups ++ (ws ++ [.endOfFile])))

/-- The one parameter of a receiver has a name, and a type of its own. -/
theorem ReceiverDerives.named {l : ParamList} {ws : List Word} (h : ReceiverDerives (some l) ws) :
    ∃ x name, l.params = [x] ∧ x.name = some name ∧ x.inferred = false := by
  cases h with
  | @list e _ _ h =>
    obtain ⟨start, ps, stop⟩ := l
    have hsettles := h.settles
    simp only [List.map_cons, List.map_nil] at hsettles
    generalize e.1 = entry at hsettles
    cases hsettles with
    | types _ _ hr => cases hr rfl
    | names _ _ hres =>
      cases hres with
      | named name v type hnil =>
        cases hnil
        exact ⟨_, name, rfl, rfl, rfl⟩
      | bare name hnil => cases hnil

theorem DeclsDerive.func_of_mem {ds : List Decl} {ws : List Word} {f : FuncDecl}
    (h : DeclsDerive ds ws) (hf : .func f ∈ ds) : ∃ vs, FuncDerives f vs := by
  induction h with
  | nil => cases hf
  | stray _ ih => exact ih hf
  | func hg _ ih =>
    rcases List.mem_cons.1 hf with heq | hf
    · cases heq
      exact ⟨_, hg⟩
    · exact ih hf

/-- No function has a receiver but of one parameter, with a name and a type of its own. -/
theorem FileDerives.receiver {f : File} {ws : List Word} {g : FuncDecl} {l : ParamList}
    (h : FileDerives f ws) (hg : g ∈ f.funcs) (hl : g.receiver = some l) :
    ∃ x name, l.params = [x] ∧ x.name = some name ∧ x.inferred = false := by
  obtain ⟨start, package, -, hdecls⟩ := h
  obtain ⟨⟨g'⟩, hmem, rfl⟩ := List.mem_map.1 hg
  obtain ⟨vs, hfunc⟩ := hdecls.func_of_mem hmem
  obtain ⟨start, name, hr, -, -, -⟩ := hfunc
  cases hl
  exact hr.named

end GoSyntax
