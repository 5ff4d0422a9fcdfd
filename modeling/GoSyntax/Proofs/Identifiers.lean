import GoSyntax.Proofs.Lexer.Places
import GoSyntax.Proofs.Tree.Written

/-! The identifiers of a file are those that its source is written with, each once and in order. -/
namespace GoSyntax

/-- Whether a place is between the braces of a body, the opening one included. -/
def Block.encloses (b : Block) (pos : Position) : Bool :=
  decide (b.start ≤ pos) && !decide (b.stop ≤ pos)

/-- The body stands among the tokens: an opening brace where it starts, its own tokens, and a
closing brace where it ends. -/
def Block.StandsIn (b : Block) (ts : List Token) : Prop :=
  ∃ us opening closing vs, ts = us ++ opening :: (b.tokens ++ closing :: vs) ∧
    opening.kind = .delimiter .lbrace ∧ closing.kind = .delimiter .rbrace ∧
      b.start = opening.pos ∧ b.stop = closing.stop

theorem Block.StandsIn.within {b : Block} {ts : List Token} (h : b.StandsIn ts)
    (us vs : List Token) : b.StandsIn (us ++ ts ++ vs) := by
  obtain ⟨us', opening, closing, vs', rfl, hbraces⟩ := h
  exact ⟨us ++ us', opening, closing, vs' ++ vs, by simp, hbraces⟩

/-- Whether a place is that of the blank name of an import. -/
def Import.isBlankAt (i : Import) (pos : Position) : Bool :=
  match i.name with
  | some (.blank blank) => blank == pos
  | _ => false

/-- Whether a place is inside the body of a function. -/
def FuncDecl.encloses (g : FuncDecl) (pos : Position) : Bool := g.body.any (·.encloses pos)

/-- Whether an identifier at this place is no node of the file: it is in the body of a function, or
it is the blank name of an import. -/
def File.hides (f : File) (pos : Position) : Bool :=
  f.funcs.any (·.encloses pos) || f.imports.any (·.isBlankAt pos)

namespace Node

/-- Whether an identifier at this place is no node although it is written with the node. -/
def hides : Node → Position → Bool
  | .file f, pos => f.hides pos
  | .importSpec i, pos => i.isBlankAt pos
  | .decl (.func g), pos | .func g, pos => g.encloses pos
  | .block b, pos => b.encloses pos
  | _, _ => false

/-- Nodes inside of types hide nothing. -/
def isInner : Node → Bool
  | .signature _ | .param _ | .type _ | .expr _ | .ident _ => true
  | _ => false

theorem hides_of_isInner {n : Node} (h : n.isInner = true) (pos : Position) :
    n.hides pos = false := by
  cases n with
  | signature | param | type | expr | ident => rfl
  | _ => cases h

theorem isInner_ofNamed (x : NamedType) : ∀ c ∈ ofNamed x, c.isInner = true := by
  intro c hc
  obtain ⟨i, -, rfl⟩ := List.mem_map.1 hc
  rfl

theorem isInner_ofParams (l : ParamList) : ∀ c ∈ ofParams l, c.isInner = true := by
  intro c hc
  obtain ⟨p, -, rfl⟩ := List.mem_map.1 hc
  rfl

theorem isInner_optionParams (l : Option ParamList) :
    ∀ c ∈ (l.map ofParams).getD [], c.isInner = true := by
  cases l with
  | none => simp
  | some l => exact isInner_ofParams l

theorem isInner_typeChildren (t : TypeRef) : ∀ c ∈ typeChildren t, c.isInner = true := by
  intro c hc
  cases t with
  | named x => exact isInner_ofNamed x c hc
  | struct start fields stop =>
    obtain ⟨f, -, hc⟩ := List.mem_flatMap.1 hc
    rcases List.mem_append.1 hc with hc | hc
    · obtain ⟨i, -, rfl⟩ := List.mem_map.1 hc
      rfl
    · obtain rfl := List.mem_singleton.1 hc
      rfl
  | interface start elems stop =>
    obtain ⟨e, -, hc⟩ := List.mem_flatMap.1 hc
    cases e with
    | method name sig =>
      simp only [ofElem, List.mem_cons, List.not_mem_nil, or_false] at hc
      rcases hc with rfl | rfl <;> rfl
    | embedded x => exact isInner_ofNamed x c hc
  | _ =>
    simp only [typeChildren, List.mem_cons, List.not_mem_nil, or_false] at hc
    rcases hc with rfl | rfl <;> rfl

theorem isInner_exprChildren (e : Expr) : ∀ c ∈ exprChildren e, c.isInner = true := by
  intro c hc
  cases e with
  | call function args stop =>
    rcases List.mem_cons.1 hc with rfl | hc
    · rfl
    · obtain ⟨a, -, rfl⟩ := List.mem_map.1 hc
      rfl
  | literal => cases hc
  | _ =>
    simp only [exprChildren, List.mem_cons, List.not_mem_nil, or_false] at hc
    rcases hc with rfl | rfl <;> rfl

theorem isInner_parts {n : Node} (h : n.isInner = true) : ∀ c ∈ n.parts, c.isInner = true := by
  intro c hc
  have hc := (List.mem_filter.1 hc).1
  cases n with
  | signature x =>
    rcases List.mem_append.1 hc with hc | hc
    · exact isInner_ofParams x.args c hc
    · exact isInner_optionParams x.results c hc
  | param p =>
    rcases List.mem_append.1 hc with hc | hc
    · obtain ⟨i, -, rfl⟩ := List.mem_map.1 hc
      rfl
    · obtain rfl := List.mem_singleton.1 hc
      rfl
  | type t => exact isInner_typeChildren t c hc
  | expr e => exact isInner_exprChildren e c hc
  | ident i => cases hc
  | _ => cases h

theorem any_hides_of_isInner {ns : List Node} (h : ∀ n ∈ ns, n.isInner = true) (pos : Position) :
    ns.any (·.hides pos) = false :=
  List.any_eq_false.2 fun n hn => by simp [hides_of_isInner (h n hn)]

/-- What a node hides is hidden below it. -/
theorem hides_eq {n : Node} (h : n.isPlain = true) (pos : Position) :
    n.hides pos = n.parts.any (·.hides pos) := by
  have hinner : n.isInner = true → n.hides pos = n.parts.any (·.hides pos) := fun hn => by
    rw [hides_of_isInner hn, any_hides_of_isInner (isInner_parts hn)]
  cases n with
  | file f =>
    rw [parts_eq rfl]
    simp [hides, File.hides, File.funcs, children, Bool.or_comm, Function.comp_def]
  | importSpec i =>
    obtain ⟨start, name, path⟩ := i
    cases name with
    | none => rfl
    | some name =>
      cases name with
      | blank => cases h
      | _ => rfl
  | decl d =>
    obtain ⟨g⟩ := d
    exact (Bool.or_false _).symm
  | func g =>
    rw [parts_eq rfl, children, List.any_append,
      any_hides_of_isInner (isInner_optionParams g.receiver)]
    cases hbody : g.body <;> simp [hides, FuncDecl.encloses, hbody]
  | block b => cases h
  | _ => exact hinner rfl

theorem writtenIdents_eq {n : Node} (h : n.isPlain = true) :
    n.writtenIdents = n.parts.flatMap writtenIdents := by
  have hnone : n.ident? = none := by
    cases n with
    | ident => cases h
    | _ => rfl
  rw [writtenIdents, walk_eq, List.filterMap_cons_none hnone, List.filterMap_flatMap]
  rfl

end Node

/-- The tokens stand one behind the other, each in one place: columns are counted exactly, and only
semicolons and the end of a source can be without text. -/
structure Token.Spread (ts : List Token) : Prop where
  column : ∀ t ∈ ts, t.pos.column ≤ counterMax
  text : ∀ t ∈ ts, t.kind ≠ .delimiter .semicolon → t.kind ≠ .endOfFile → t.text ≠ []
  pairs : ts.Pairwise Token.Before

namespace Token.Spread

variable {t : Token} {ts us : List Token}

theorem sublist (h : Spread ts) (hs : us.Sublist ts) : Spread us :=
  ⟨fun t ht => h.column t (hs.subset ht), fun t ht => h.text t (hs.subset ht),
    h.pairs.sublist hs⟩

theorem left (h : Spread (ts ++ us)) : Spread ts := h.sublist (List.sublist_append_left ts us)

theorem right (h : Spread (ts ++ us)) : Spread us := h.sublist (List.sublist_append_right ts us)

theorem tail (h : Spread (t :: ts)) : Spread ts := h.sublist (List.sublist_cons_self t ts)

theorem before (h : Spread (ts ++ us)) (ht : t ∈ ts) : ∀ u ∈ us, t.Before u :=
  (List.pairwise_append.1 h.pairs).2.2 t ht

theorem identifier_ne_nil (h : Spread ts) (ht : t ∈ ts) (hk : t.kind = .identifier) : t.text ≠ [] :=
  h.text t ht (by simp [hk]) (by simp [hk])

end Token.Spread

/-- The identifiers among tokens that are hidden by none of the nodes. -/
def shownIdents (ns : List Node) (ts : List Token) : List Ident :=
  (ts.filter fun t => t.kind == .identifier && !ns.any (·.hides t.pos)).map .ofToken

section Shown

variable {ns ms : List Node} {t : Token} {ts us : List Token}

theorem shownIdents_append :
    shownIdents ns (ts ++ us) = shownIdents ns ts ++ shownIdents ns us := by
  rw [shownIdents, List.filter_append, List.map_append]
  rfl

theorem shownIdents_cons_of_ne (hk : t.kind ≠ .identifier) :
    shownIdents ns (t :: ts) = shownIdents ns ts := by
  rw [shownIdents, List.filter_cons_of_neg (by simp [hk])]
  rfl

theorem shownIdents_congr (h : ∀ t ∈ ts, t.kind = .identifier →
    ns.any (·.hides t.pos) = ms.any (·.hides t.pos)) : shownIdents ns ts = shownIdents ms ts := by
  unfold shownIdents
  refine congrArg (List.map _) (List.filter_congr fun t ht => ?_)
  by_cases hk : t.kind = .identifier
  · rw [h t ht hk]
  · rw [beq_false_of_ne hk, Bool.false_and, Bool.false_and]

theorem shownIdents_eq_nil (h : ∀ t ∈ ts, t.kind = .identifier →
    ns.any (·.hides t.pos) = true) : shownIdents ns ts = [] := by
  refine List.map_eq_nil_iff.2 (List.filter_eq_nil_iff.2 fun t ht hshown => ?_)
  rw [Bool.and_eq_true, beq_iff_eq] at hshown
  rw [h t ht hshown.1] at hshown
  cases hshown.2

end Shown

namespace Written

variable {ns : List Node} {t : Token} {ts us : List Token} {pos : Position}

/-- What is hidden lies between the tokens that the nodes are written as. -/
theorem bounds_of_hidden (h : Written ns ts) (hs : Token.Spread ts)
    (hh : ns.any (·.hides pos) = true) : (∃ o ∈ ts, o.pos ≤ pos) ∧
      ∃ c ∈ ts, c.text ≠ [] ∧ (¬c.stop ≤ pos ∨ pos = c.pos) := by
  induction h with
  | nil => cases hh
  | mark hk _ ih =>
    obtain ⟨⟨o, ho, hle⟩, c, hc, hend⟩ := ih hs.tail hh
    exact ⟨⟨o, .tail _ ho, hle⟩, c, .tail _ hc, hend⟩
  | ident hk _ ih =>
    obtain ⟨⟨o, ho, hle⟩, c, hc, hend⟩ := ih hs.tail hh
    exact ⟨⟨o, .tail _ ho, hle⟩, c, .tail _ hc, hend⟩
  | node hn _ _ ihc ih =>
    rw [List.any_cons, Node.hides_eq hn, Bool.or_eq_true] at hh
    rcases hh with hh | hh
    · obtain ⟨⟨o, ho, hle⟩, c, hc, hend⟩ := ihc hs.left hh
      exact ⟨⟨o, List.mem_append_left _ ho, hle⟩, c, List.mem_append_left _ hc, hend⟩
    · obtain ⟨⟨o, ho, hle⟩, c, hc, hend⟩ := ih hs.right hh
      exact ⟨⟨o, List.mem_append_right _ ho, hle⟩, c, List.mem_append_right _ hc, hend⟩
  | @block b ns opening closing us ho hc hstart hstop _ ih =>
    rw [List.any_cons, Bool.or_eq_true] at hh
    rcases hh with hh | hh
    · simp only [Node.hides, Block.encloses, hstart, hstop, Bool.and_eq_true, decide_eq_true_eq,
        Bool.not_eq_true', decide_eq_false_iff_not] at hh
      have hmem : closing ∈ opening :: (b.tokens ++ closing :: us) := by simp
      refine ⟨⟨opening, List.mem_cons_self, hh.1⟩, closing, hmem, ?_, .inl hh.2⟩
      exact hs.text closing hmem (by simp [hc]) (by simp [hc])
    · have hrest : Token.Spread us := hs.tail.right.tail
      obtain ⟨⟨o, ho, hle⟩, c, hc, hend⟩ := ih hrest hh
      exact ⟨⟨o, by simp [ho], hle⟩, c, by simp [hc], hend⟩
  | @blank _ _ ns t us hk _ _ ih =>
    rw [List.any_cons, Bool.or_eq_true] at hh
    rcases hh with hh | hh
    · obtain rfl : t.pos = pos := by simpa [Node.hides, Import.isBlankAt] using hh
      have hmem : t ∈ t :: us := List.mem_cons_self
      exact ⟨⟨t, hmem, Position.le_refl _⟩, t, hmem, hs.identifier_ne_nil hmem hk, .inr rfl⟩
    · obtain ⟨⟨o, ho, hle⟩, c, hc, hend⟩ := ih hs.tail hh
      exact ⟨⟨o, .tail _ ho, hle⟩, c, .tail _ hc, hend⟩

theorem not_hidden_before (h : Written ns us) (hs : Token.Spread us) (ht : t.text ≠ [])
    (hb : ∀ u ∈ us, t.Before u) : ns.any (·.hides t.pos) = false := by
  refine Bool.eq_false_iff.2 fun hh => ?_
  obtain ⟨⟨o, ho, hle⟩, -⟩ := h.bounds_of_hidden hs hh
  exact (hb o ho).2 ht hle

theorem not_hidden_behind (h : Written ns ts) (hs : Token.Spread ts)
    (hb : ∀ u ∈ ts, u.Before t) : ns.any (·.hides t.pos) = false := by
  refine Bool.eq_false_iff.2 fun hh => ?_
  obtain ⟨-, c, hc, hne, hend⟩ := h.bounds_of_hidden hs hh
  rcases hend with hend | hend
  · exact hend (hb c hc).1
  · exact (hb c hc).2 hne (hend ▸ Position.le_refl _)

/-- A body hides the identifiers in it, and no others. -/
theorem encloses_iff {b : Block} {opening closing : Token} (hstart : b.start = opening.pos)
    (hstop : b.stop = closing.stop) : b.encloses pos = true ↔
      opening.pos ≤ pos ∧ ¬closing.stop ≤ pos := by
  simp [Block.encloses, hstart, hstop]

/-- The identifiers of nodes are those among the tokens that they are written as. -/
theorem idents_eq (h : Written ns ts) (hs : Token.Spread ts) :
    ns.flatMap Node.writtenIdents = shownIdents ns ts := by
  induction h with
  | nil => rfl
  | mark hk _ ih => rw [ih hs.tail, shownIdents_cons_of_ne hk]
  | @ident ns t ts hk h ih =>
    have hself : (Node.ident (.ofToken t)).writtenIdents = [.ofToken t] := by
      simp [Node.writtenIdents, Node.walk_eq, Node.children, Node.ident?]
    have hshown : (Node.ident (.ofToken t) :: ns).any (·.hides t.pos) = false :=
      h.not_hidden_before hs.tail (hs.identifier_ne_nil List.mem_cons_self hk)
        (List.pairwise_cons.1 hs.pairs).1
    rw [List.flatMap_cons, hself, ih hs.tail, shownIdents, shownIdents,
      List.filter_cons_of_pos (by rw [hk, hshown]; rfl)]
    rfl
  | @node n ns ts us hn hc h ihc ih =>
    -- what the node hides stands among its own tokens, what the others hide among theirs
    rw [List.flatMap_cons, Node.writtenIdents_eq hn, ihc hs.left, ih hs.right, shownIdents_append]
    congr 1
    · refine shownIdents_congr fun t ht hk => ?_
      have hne := hs.left.identifier_ne_nil ht hk
      rw [List.any_cons, Node.hides_eq hn, h.not_hidden_before hs.right hne (hs.before ht),
        Bool.or_false]
    · refine shownIdents_congr fun t ht hk => ?_
      have hbehind := hc.not_hidden_behind hs.left fun u hu => hs.before hu t ht
      rw [List.any_cons, Node.hides_eq hn, hbehind, Bool.false_or]
  | @block b ns opening closing us ho hc hstart hstop h ih =>
    have hself : (Node.block b).writtenIdents = [] := by
      simp [Node.writtenIdents, Node.walk_eq, Node.children, Node.ident?]
    have hmem : closing ∈ opening :: (b.tokens ++ closing :: us) := by simp
    obtain ⟨hopening, -⟩ := List.pairwise_cons.1 hs.pairs
    have hopen := hs.text opening List.mem_cons_self (by simp [ho]) (by simp [ho])
    have hclose := hs.column closing hmem
    have hinside : shownIdents (.block b :: ns) b.tokens = [] := by
      refine shownIdents_eq_nil fun t ht hk => ?_
      have hmem' : t ∈ b.tokens ++ closing :: us := List.mem_append_left _ ht
      have hstarts := Position.le_of_not_le ((hopening t hmem').2 hopen)
      have hends : ¬closing.stop ≤ t.pos := fun hle =>
        (hs.tail.before ht closing List.mem_cons_self).2 (hs.tail.identifier_ne_nil hmem' hk)
          (Position.le_trans (Position.le_moved hclose _) hle)
      rw [List.any_cons, Node.hides, (encloses_iff hstart hstop).2 ⟨hstarts, hends⟩, Bool.true_or]
    have hbehind : shownIdents (.block b :: ns) us = shownIdents ns us := by
      refine shownIdents_congr fun t ht _ => ?_
      have hends := (List.pairwise_cons.1 hs.tail.right.pairs).1 t ht
      have hout : b.encloses t.pos = false := Bool.eq_false_iff.2 fun hin =>
        ((encloses_iff hstart hstop).1 hin).2 hends.1
      rw [List.any_cons, Node.hides, hout, Bool.false_or]
    rw [List.flatMap_cons, hself, List.nil_append, ih hs.tail.right.tail,
      shownIdents_cons_of_ne (by simp [ho]), shownIdents_append, hinside, List.nil_append,
      shownIdents_cons_of_ne (by simp [hc]), hbehind]
  | @blank start path ns t us hk _ h ih =>
    have hself : (Node.importSpec ⟨start, some (.blank t.pos), path⟩).writtenIdents = [] := by
      simp [Node.writtenIdents, Node.walk_eq, Node.children, Node.ofImportName, Node.ident?]
    have hne := hs.identifier_ne_nil List.mem_cons_self hk
    have hbehind : shownIdents (.importSpec ⟨start, some (.blank t.pos), path⟩ :: ns) us =
        shownIdents ns us := by
      refine shownIdents_congr fun u hu _ => ?_
      have hafter := ((List.pairwise_cons.1 hs.pairs).1 u hu).2 hne
      have hother : t.pos ≠ u.pos := fun heq => hafter (heq ▸ Position.le_refl _)
      simp [Node.hides, Import.isBlankAt, hother]
    rw [List.flatMap_cons, hself, List.nil_append, ih hs.tail, ← hbehind, shownIdents, shownIdents,
      List.filter_cons_of_neg (by simp [Node.hides, Import.isBlankAt])]

/-- What a body is written as, with tokens of others around it. -/
theorem body_stands {b : Block} (h : Written [.block b] ts) : b.StandsIn ts := by
  generalize hrow : [Node.block b] = row at h
  induction h with
  | nil => cases hrow
  | @mark _ t _ _ _ ih => simpa using (ih hrow).within [t] []
  | ident => cases hrow
  | node hn => cases hrow; cases hn
  | block ho hc hstart hstop => cases hrow; exact ⟨[], _, _, _, rfl, ho, hc, hstart, hstop⟩
  | blank => cases hrow

/-- The body of a function of a file stands among the tokens of the file. -/
theorem bodies_stand {f : File} (h : Written [.file f] ts) :
    ∀ g ∈ f.funcs, ∀ b, g.body = some b → b.StandsIn ts := by
  intro g hg b hb
  obtain ⟨⟨g⟩, hd, rfl⟩ := List.mem_map.1 hg
  have hfile := h.unwrap rfl
  rw [Node.parts_eq rfl] at hfile
  have hmem : .decl (.func g) ∈ (Node.file f).children := by simp [Node.children, hd]
  obtain ⟨us, vs, ws, rfl, hdecl⟩ := hfile.of_mem hmem
  have hfunc := (hdecl.unwrap rfl).unwrap rfl
  rw [Node.parts_eq rfl] at hfunc
  obtain ⟨us', vs, ws', rfl, hbody⟩ := hfunc.of_mem (n := .block b) (by simp [Node.children, hb])
  exact (hbody.body_stands.within us' ws').within us ws

theorem blank_stands {i : Import} (h : Written [.importSpec i] ts)
    (hi : i.name = some (.blank pos)) :
    ∃ t ∈ ts, t.kind = .identifier ∧ t.text = ['_'] ∧ t.pos = pos := by
  generalize hrow : [Node.importSpec i] = row at h
  induction h with
  | nil => cases hrow
  | mark _ _ ih =>
    obtain ⟨t, ht, hblank⟩ := ih hrow
    exact ⟨t, .tail _ ht, hblank⟩
  | ident => cases hrow
  | node hn =>
    cases hrow
    obtain ⟨start, name, path⟩ := i
    cases hi
    cases hn
  | block => cases hrow
  | @blank _ _ _ t _ hk htext =>
    cases hrow
    cases hi
    exact ⟨t, List.mem_cons_self, hk, htext, rfl⟩

/-- The blank name of an import of a file is written as a blank among the tokens of the file. -/
theorem blanks_stand {f : File} (h : Written [.file f] ts) :
    ∀ i ∈ f.imports, ∀ pos, i.name = some (.blank pos) →
      ∃ t ∈ ts, t.kind = .identifier ∧ t.text = ['_'] ∧ t.pos = pos := by
  intro i hi pos hname
  have hfile := h.unwrap rfl
  rw [Node.parts_eq rfl] at hfile
  obtain ⟨us, vs, ws, rfl, hspec⟩ := hfile.of_mem (n := .importSpec i) (by simp [Node.children, hi])
  obtain ⟨t, ht, hblank⟩ := hspec.blank_stands hname
  exact ⟨t, by simp [ht], hblank⟩

end Written

/-- A read that fails leaves a fault among the characters. -/
theorem Utf8.read_mem_decodeFrom {reason : String} {octets : List Octet} (open? : Option Sequence)
    (h : .error reason ∈ octets) : .error (.read reason) ∈ decodeFrom open? octets := by
  induction octets generalizing open? with
  | nil => cases h
  | cons o octets ih =>
    cases o with
    | error reason' =>
      have heq : decodeFrom open? (.error reason' :: octets) =
          .error (.read reason') :: decodeFrom none octets := by
        cases open? <;> rfl
      rw [heq]
      rcases List.mem_cons.1 h with h | h
      · cases h
        exact List.mem_cons_self
      · exact List.mem_cons_of_mem _ (ih none h)
    | ok b =>
      have h : .error reason ∈ octets := (List.mem_cons.1 h).resolve_left (by simp)
      cases open? with
      | none =>
        simp only [decodeFrom]
        split
        · exact List.mem_cons_of_mem _ (ih none h)
        · exact ih _ h
      | some s =>
        simp only [decodeFrom]
        split
        · split
          · exact List.mem_cons_of_mem _ (ih none h)
          · exact ih _ h
        · exact List.mem_cons_of_mem _ (ih none h)

/-- A feed that does not fail delivers bytes. -/
theorem Feed.exists_bytes {feed : Feed} (h : ∀ reason, .error reason ∉ feed.octets) :
    ∃ bytes : List UInt8, feed.octets = bytes.map .ok ∧ bytes.length = feed.byteCount := by
  induction feed with
  | nil => exact ⟨[], rfl, rfl⟩
  | cons d feed ih =>
    have hcons : octets (d :: feed) = d.octets ++ octets feed := List.flatMap_cons
    rw [hcons] at h ⊢
    obtain ⟨bytes, hbytes, hcount⟩ := ih fun reason hr => h reason (List.mem_append_right _ hr)
    cases d with
    | data more =>
      refine ⟨more ++ bytes, ?_, by simp [byteCount, hcount]⟩
      rw [hbytes, List.map_append]
      rfl
    | interruption => exact ⟨bytes, hbytes, hcount⟩
    | failure reason => exact absurd (List.mem_append_left _ (List.mem_singleton.2 rfl)) (h reason)

/-- A source that is read to its end did not fail on the way. -/
theorem Lexer.exists_bytes {file : String} {feed : Feed} {x : Lexer} {ts : List Token}
    (hx : Lexer.ofFeed file feed = .ok x) (ht : x.tokens = .ok ts) :
    ∃ bytes : List UInt8, feed.octets = bytes.map .ok ∧ bytes.length = feed.byteCount := by
  obtain ⟨hfresh, hmark, hsplit⟩ := Lexer.fresh_of_ofFeed hx
  have htidy := hfresh.tidy (by rw [Cursor.offset, hmark]; rfl)
  have hbreaks := (hfresh.yields ht).breaks_nil htidy
  have hdecode := Break.split_nil ((congrArg Prod.snd hsplit).symm.trans hbreaks)
  refine Feed.exists_bytes fun reason hr => ?_
  have hmem : .error (.read reason) ∈ Utf8.decode feed.octets := Utf8.read_mem_decodeFrom none hr
  rw [hdecode] at hmem
  obtain ⟨c, -, hc⟩ := List.mem_map.1 hmem
  cases hc

/-- The tokens that a parser sees of a source stand one behind the other. -/
theorem Parser.spread_visible {m : Mark} {p : Parser} {ts : List Token}
    {rest : List (Except Error Token)} (hplaced : Token.Placed m ts) (hgood : p.Good)
    (hstream : p.stream = (ts.filterMap Token.visible?).map .ok ++ rest) :
    Token.Spread (ts.filterMap Token.visible?) where
  column v hv := by
    obtain ⟨t, ht, hvis⟩ := List.mem_filterMap.1 hv
    rw [(Token.place_visible hvis).1]
    exact hplaced.column t ht
  text v hv hsemi hend := by
    have hmem : .ok v ∈ p.stream := by
      rw [hstream]
      exact List.mem_append_left _ (List.mem_map_of_mem hv)
    exact ((lawful_of_mem_stream hgood hmem).stands hend hsemi).ne_nil
  pairs := by
    refine hplaced.pairwise.filterMap _ fun t u h v hv w hw => ?_
    obtain ⟨hvpos, hvtext⟩ := Token.place_visible hv
    obtain ⟨hwpos, -⟩ := Token.place_visible hw
    rw [Token.Before, Token.stop] at h ⊢
    rwa [hvpos, hvtext, hwpos]

/-- A file that is read has a source whose tokens are read one by one. -/
theorem exists_of_parseFeed {limit : Nat} {file : String} {feed : Feed} {f : File}
    (h : parseFeed limit file feed = .ok f) : ∃ x p q, Lexer.ofFeed file feed = .ok x ∧
      Parser.ofFeed limit file feed = .ok p ∧ Parser.ofLexer limit x = .ok p ∧
        Parse.file p = .ok f q := by
  unfold parseFeed at h
  cases hp : Parser.ofFeed limit file feed with
  | error e => simp [hp, bind, Except.bind] at h
  | ok p =>
    simp only [hp, bind, Except.bind] at h
    cases hx : Lexer.ofFeed file feed with
    | error e => simp [Parser.ofFeed, hx, bind, Except.bind] at hp
    | ok x =>
      have hlexer : Parser.ofLexer limit x = .ok p := by
        simpa only [Parser.ofFeed, hx, bind, Except.bind] using hp
      cases hr : Parse.file p with
      | error e q => simp [hr, throw, throwThe, MonadExceptOf.throw] at h
      | ok g q =>
        obtain rfl : g = f := by simpa [hr, pure, Except.pure] using h
        exact ⟨x, p, q, rfl, rfl, hlexer, hr⟩

/-- The identifiers of a file that was read, those of inferred types left out, are the identifiers
among the visible tokens of its source, each once and in order, but for those in the bodies of
functions and for the blank names of imports. Bodies reach from brace to brace, and blank names are
written as such. -/
theorem file_idents_in_source_order {limit : Nat} {file : String} {feed : Feed} {f : File}
    (hlen : feed.byteCount < counterMax) (h : parseFeed limit file feed = .ok f) :
    ∃ x ts, Lexer.ofFeed file feed = .ok x ∧ x.tokens = .ok ts ∧
      (Node.file f).writtenIdents = ((ts.filterMap Token.visible?).filter fun t =>
        t.kind == .identifier && !f.hides t.pos).map Ident.ofToken ∧
      (∀ g ∈ f.funcs, ∀ b, g.body = some b → b.StandsIn (ts.filterMap Token.visible?)) ∧
      ∀ i ∈ f.imports, ∀ pos, i.name = some (.blank pos) →
        ∃ t ∈ ts.filterMap Token.visible?, t.kind = .identifier ∧ t.text = ['_'] ∧ t.pos = pos := by
  obtain ⟨x, p, q, hx, hfeed, hp, hf⟩ := exists_of_parseFeed h
  obtain ⟨hgood, -, -⟩ := Parser.good_of_ofFeed hfeed
  obtain ⟨hfresh, -, -⟩ := Lexer.fresh_of_ofFeed hx
  obtain ⟨ts, stop, hl, hn⟩ := hfresh.exists_leads
  obtain ⟨⟨t, rfl⟩, hwritten⟩ := Parser.written_of_file hl hn hp hgood hf
  have htokens : x.tokens = .ok (ts ++ [t]) := hfresh.tokens_eq hl hn
  have hk : t.kind = .endOfFile := hl.stop_kind t rfl
  have hseen : (ts ++ [t]).filterMap Token.visible? = ts.filterMap Token.visible? ++ [t] := by
    simp [Token.visible?_endOfFile hk]
  have hspread : Token.Spread ((ts ++ [t]).filterMap Token.visible?) := by
    obtain ⟨bytes, hbytes, hcount⟩ := Lexer.exists_bytes hx htokens
    obtain ⟨hplaced, -⟩ := Lexer.placed_of_ofFeed hbytes (by rwa [hcount]) hx hl
    obtain ⟨more, hstream⟩ := Parser.stream_of_ofLexer hl hn hp
    have hstream : p.stream = ((ts ++ [t]).filterMap Token.visible?).map .ok ++ more := by
      rw [hstream, hseen, List.map_append, List.append_assoc]
      rfl
    exact Parser.spread_visible hplaced hgood hstream
  have hall : Written [.file f] ((ts ++ [t]).filterMap Token.visible?) := by
    rw [hseen]
    exact hwritten.snoc (by simp [hk])
  refine ⟨x, ts ++ [t], hx, htokens, ?_, hall.bodies_stand, hall.blanks_stand⟩
  calc (Node.file f).writtenIdents
      = [Node.file f].flatMap Node.writtenIdents := (List.flatMap_singleton ..).symm
    _ = shownIdents [.file f] ((ts ++ [t]).filterMap Token.visible?) := hall.idents_eq hspread
    _ = _ := by simp [shownIdents, Node.hides]

/-- A blank import, two parameters of one type and a body with a name in it. -/
def hidingSource : Text := "package a;import _ \"b\";func f(x,y T){z}".toList

/-- Of seven identifiers the blank name and the one in the body are no nodes, and the type that two
parameters share is met once. -/
theorem file_idents_in_source_order_hiding :
    ∃ f x ts, parseFeed 8 "a.go" (.ofText hidingSource) = .ok f ∧
      Lexer.ofFeed "a.go" (.ofText hidingSource) = .ok x ∧ x.tokens = .ok ts ∧
      (Node.file f).writtenIdents = ((ts.filterMap Token.visible?).filter fun t =>
        t.kind == .identifier && !f.hides t.pos).map Ident.ofToken ∧
      (Node.file f).writtenIdents.map Ident.name = [['a'], ['f'], ['x'], ['y'], ['T']] := by
  have hread : ((parseFeed 8 "a.go" (.ofText hidingSource)).map fun f =>
      (Node.file f).writtenIdents.map Ident.name).toOption =
        some [['a'], ['f'], ['x'], ['y'], ['T']] := by decide +kernel
  cases h : parseFeed 8 "a.go" (.ofText hidingSource) with
  | error e =>
    rw [h] at hread
    cases hread
  | ok f =>
    obtain ⟨x, ts, hx, ht, hidents, -, -⟩ := file_idents_in_source_order (by decide +kernel) h
    rw [h] at hread
    exact ⟨f, x, ts, rfl, hx, ht, hidents, Option.some.inj hread⟩

end GoSyntax
