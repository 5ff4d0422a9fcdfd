import GoSyntax.Grammar.Type
import GoSyntax.Proofs.Grammar.Entries
import GoSyntax.Proofs.Grammar.ExprSound

/-! The rules for types, parameters and signatures give only trees of the grammar. -/
namespace GoSyntax
namespace Parse

open GoSyntax.Parser

/-- Whether a type can open with a token of this kind. -/
def opensType : Kind → Bool
  | .identifier | .delimiter .lparen | .delimiter .lbracket | .operator .mul | .operator .chan => true
  | .keyword .structKw | .keyword .funcKw | .keyword .interfaceKw | .keyword .mapKw
  | .keyword .chanKw => true
  | _ => false

/-- What is known of a type that was read from `p` on: a receiving channel that does not open with
its arrow stands in parentheses. -/
structure TypeAt (p : Parser) (t : TypeRef) : Prop where
  fits : Part.Fits p.room (.type t)
  opens : opensType p.peek.kind = true
  paren : t.isRecvChan = true → p.peek.kind ≠ .operator .chan →
    ∃ s, p.room = s + 1 ∧ Part.Fits s (.type t)

/-- The rule finds a type if one opens here. -/
def Finds (type? : Parse (Option TypeRef)) : Prop :=
  ∀ p : Parser, p.Good → Sure type? p fun r _ =>
    match r with
    | some t => TypeAt p t
    | none => opensType p.peek.kind = false

section Rules

variable {type? : Parse (Option TypeRef)} (ht : Finds type?) {p q : Parser}

include ht

theorem sure_required (hp : p.Good) : Sure (required type?) p fun t _ => TypeAt p t := by
  refine (ht p hp).bind fun r q hq hr => ?_
  cases r with
  | some t => exact .pure hq.good hr
  | none => exact sure_unexpected hq.good _

omit ht in
theorem lawful_of_bareIdent {t : TypeRef} {i : Ident} {s : Nat} (h : Part.Fits s (.type t))
    (hi : t.bareIdent? = some i) : t = .named ⟨none, i⟩ ∧ i.Lawful := by
  obtain rfl := TypeRef.eq_of_bareIdent hi
  cases h with
  | named hn => exact ⟨rfl, hn.name⟩

theorem sure_typeOrName (hp : p.Good) : Sure (typeOrName type?) p fun r _ =>
    TypeAt p r.1 ∧ ∀ i, r.2 = some i → r.1 = .named ⟨none, i⟩ ∧ i.Lawful := by
  refine (sure_peekIs hp _).bind ?_
  rintro b _ - ⟨-, rfl⟩
  refine (sure_required ht hp).bind fun t q hq h => .pure hq.good ⟨h, ?_⟩
  intro i hi
  cases b with
  | true => exact lawful_of_bareIdent h.fits hi
  | false => cases hi

/-- The type of an entry fits, and so does its name. -/
structure EntryFits (s : Nat) (e : Entry) : Prop where
  proper : e.Proper
  type : Part.Fits s (.type e.typeRef)
  name : match e with
    | .lone i | .named i _ _ => i.Lawful
    | _ => True

theorem sure_entry (hp : p.Good) : Sure (entry type?) p fun e _ => EntryFits p.room e := by
  rw [entry_eq]
  refine (sure_consumeIf hp (by simp)).bind fun b q₁ h₁ hb => ?_
  rcases hb with ⟨rfl, -, -⟩ | ⟨rfl, -, rfl⟩
  · refine (sure_required ht h₁.good).bind fun t q₂ h₂ h => .pure h₂.good ⟨.variadic t, ?_, trivial⟩
    have hfits := h.fits
    rwa [h₁.room] at hfits
  · refine (sure_typeOrName ht hp).bind ?_
    rintro ⟨t, i?⟩ q₁ h₁ ⟨hty, hi⟩
    cases i? with
    | none => exact .pure h₁.good ⟨.plain t, hty.fits, trivial⟩
    | some i =>
      obtain ⟨heq, hlaw⟩ := hi i rfl
      have heq : t = .named ⟨none, i⟩ := heq
      subst heq
      refine (sure_peek h₁.good).bind ?_
      rintro _ _ - ⟨rfl, rfl⟩
      split
      · exact .pure h₁.good ⟨.lone i, hty.fits, hlaw⟩
      · refine (sure_consumeIf h₁.good (by simp)).bind fun b q₂ h₂ _ => ?_
        refine (sure_required ht h₂.good).bind fun t q₃ h₃ h => .pure h₃.good ⟨.named i b t, ?_, hlaw⟩
        have hfits := h.fits
        rwa [h₂.room, h₁.room] at hfits

omit ht in
theorem run_of_resolves {es : List Entry} {ps : List Param} {c : Option TypeRef} {s : Nat}
    (h : Entry.Resolves es ps c) (hes : ∀ e ∈ es, EntryFits s e) (hv : earlyVariadic? es = none)
    (hne : es ≠ []) :
    Param.Run ps ∧ ∀ p ∈ ps, Part.Fits s (.type p.type) := by
  induction h with
  | nil => exact absurd rfl hne
  | @named es ps c name v type h ih =>
    have he := hes _ List.mem_cons_self
    cases es with
    | nil =>
      cases h
      exact ⟨.last he.name v type, List.forall_mem_singleton.2 he.type⟩
    | cons d es =>
      obtain ⟨hrun, hfits⟩ := ih (fun e h => hes e (List.mem_cons_of_mem _ h))
        (earlyVariadic?_tail hv) (by simp)
      obtain ⟨t, rfl⟩ := h.carried_some (by simp)
      obtain ⟨q, qs, rfl, -⟩ := h.head
      have hvar : v = false := earlyVariadic?_eq_none hv (l := []) rfl (by simp)
      subst hvar
      exact ⟨.typed he.name type hrun, List.forall_mem_cons.2 ⟨he.type, hfits⟩⟩
  | @bare es ps type name h ih =>
    have he := hes _ List.mem_cons_self
    cases es with
    | nil => cases h
    | cons d es =>
      obtain ⟨hrun, hfits⟩ := ih (fun e h => hes e (List.mem_cons_of_mem _ h))
        (earlyVariadic?_tail hv) (by simp)
      obtain ⟨q, qs, rfl, rfl⟩ := h.head
      exact ⟨.inferred he.name hrun, List.forall_mem_cons.2 ⟨hfits q List.mem_cons_self, hfits⟩⟩

omit ht in
theorem row_of_unnamed {es : List Entry} (hv : earlyVariadic? es = none) :
    Param.Row (es.map Entry.unnamed) := by
  induction es with
  | nil => exact .nil
  | cons e es ih =>
    cases es with
    | nil => exact .last _ _
    | cons d es =>
      have hvar : e.isVariadic = false := earlyVariadic?_eq_none hv (l := []) rfl (by simp)
      have hrow := ih (earlyVariadic?_tail hv)
      simp only [List.map_cons, Entry.unnamed, hvar] at hrow ⊢
      exact .cons _ hrow

/-- Names are given where they are required. -/
def Named (namesRequired : Bool) (ps : List Param) : Prop :=
  namesRequired = true → ps = [] ∨ Param.Run ps

omit ht in
theorem sure_params {es : List Entry} {s : Nat} (hp : p.Good) (start : Position)
    (namesRequired : Bool) (hes : ∀ e ∈ es, EntryFits s e) :
    Sure (params start namesRequired es) p fun ps _ =>
      (Param.Row ps ∨ Param.Run ps) ∧ Named namesRequired ps ∧
        ∀ p ∈ ps, Part.Fits s (.type p.type) := by
  cases hv : earlyVariadic? es with
  | some e =>
    unfold Sure
    rw [params_of_early _ _ hv]
    exact ⟨fun _ => .refl hp, rfl⟩
  | none =>
    cases hn : es.any Entry.isNamed with
    | true =>
      rw [params_of_named _ _ hv hn]
      have hne : es ≠ [] := by
        rintro rfl
        cases hn
      have hkept : ∀ log, Kept p { p with log } :=
        fun log => ⟨good_setLog hp log, rfl, rfl, Nat.le_refl _, fun _ => rfl⟩
      have hres : Sure (resolve es) p fun r _ => Entry.Resolves es r.1 r.2 := by
        unfold Sure
        rcases resolve_cases (fun e he => (hes e he).proper) p with ⟨ps, c, log, hr, h⟩ | ⟨e, log, hr, -⟩
        · rw [hr]
          exact ⟨hkept log, h⟩
        · rw [hr]
          exact ⟨fun _ => hkept log, rfl⟩
      refine hres.map fun r q _ h => ?_
      obtain ⟨hrun, hfits⟩ := run_of_resolves h hes hv hne
      exact ⟨Or.inr hrun, fun _ => Or.inr hrun, hfits⟩
    | false =>
      rw [params_of_unnamed _ _ hv hn]
      split
      · exact sure_problemAt hp _ _
      · rename_i hreq
        refine .pure hp ⟨Or.inl (row_of_unnamed hv), ?_, ?_⟩
        · rintro rfl
          refine Or.inl ?_
          simpa using hreq
        · intro q hq
          obtain ⟨e, he, rfl⟩ := List.mem_map.1 hq
          exact (hes e he).type

theorem sure_paramList (hp : p.Good) (namesRequired : Bool) :
    Sure (paramList type? namesRequired) p fun l _ =>
      Part.Fits p.room (.params l) ∧ Named namesRequired l.params := by
  refine Sure.nested hp fun hlt => ?_
  have hroom := room_enter hlt
  refine (sure_require hp.enter _ _).bind fun t q₁ h₁ _ => ?_
  have hlist : Sure (commaList (.delimiter .rparen) (entry type?)) q₁
      fun es _ => ∀ e ∈ es, EntryFits q₁.room e := by
    refine Sure.commaList h₁.good fun q hq => (sure_entry ht hq.good).mono fun e _ _ he => ?_
    rwa [hq.room] at he
  refine hlist.bind fun es q₂ h₂ hes => ?_
  refine (sure_require h₂.good _ _).bind fun c q₃ h₃ _ => ?_
  refine (sure_params h₃.good t.pos namesRequired hes).bind fun ps q₄ h₄ hps => ?_
  refine .pure h₄.good ⟨?_, hps.2.1⟩
  rw [← hroom, ← h₁.room]
  exact .params hps.1 hps.2.2

omit ht in
/-- A type that stands alone in parentheses can stand there without them. -/
theorem bareResult_of_params {l : ParamList} {s : Nat} (h : Part.Fits s (.params l))
    (hb : l.isBare = true) : Part.Fits s (.results l) := by
  cases h with
  | @params s start stop ps hn hfits =>
    match ps, hb with
    | [q], hb =>
      rcases hn with hrow | hrun
      · cases hrow with
        | last v t =>
          obtain rfl : v = false := by simpa [ParamList.isBare] using hb
          exact .bareResult ((hfits _ List.mem_cons_self).mono (Nat.le_succ s))
      · cases hrun with
        | last _ v t => cases hb

theorem sure_results (hp : p.Good) : Sure (results type?) p fun r _ =>
    ∀ l, r = some l → Part.Fits p.room (.results l) := by
  refine (sure_peekIs hp _).bind ?_
  rintro b _ - ⟨-, rfl⟩
  cases b with
  | true =>
    refine (sure_paramList ht hp false).map fun l q _ hl => ?_
    rintro _ ⟨⟩
    cases hb : l.isBare with
    | false => exact .listResult hb hl.1
    | true => exact bareResult_of_params hl.1 hb
  | false =>
    refine (ht p hp).bind fun r q hq hr => .pure hq.good ?_
    cases r with
    | none => simp
    | some t =>
      rintro _ ⟨⟩
      exact .bareResult hr.fits

theorem sure_signature (hp : p.Good) (namesRequired : Bool) :
    Sure (signature type? namesRequired) p fun s _ =>
      Part.Fits p.room (.signature s) ∧ Named namesRequired s.args.params := by
  refine Sure.nested hp fun hlt => ?_
  have hroom := room_enter hlt
  refine (sure_paramList ht hp.enter namesRequired).bind fun args q₁ h₁ hargs => ?_
  refine (sure_results ht h₁.good).bind fun r q₂ h₂ hr => .pure h₂.good ⟨?_, hargs.2⟩
  rw [← hroom]
  refine .signature hargs.1 fun l hl => ?_
  have hfits := hr l hl
  rwa [h₁.room] at hfits

omit ht in
theorem sure_namedType (hp : p.Good) : Sure namedType p fun n _ => n.Lawful := by
  refine (sure_ident hp _).bind fun i q₁ h₁ hi => ?_
  refine (sure_consumeIf h₁.good (by simp)).bind fun b q₂ h₂ _ => ?_
  cases b with
  | true =>
    refine (sure_ident h₂.good _).bind fun j q₃ h₃ hj => .pure h₃.good ⟨?_, hj.1⟩
    rintro _ ⟨⟩
    exact hi.1
  | false => exact .pure h₂.good ⟨by simp, hi.1⟩

omit ht in
theorem sure_tag (hp : p.Good) : Sure tag? p fun r _ => ∀ t, r = some t → t.Lawful := by
  refine (sure_peek hp).bind ?_
  rintro _ _ - ⟨rfl, rfl⟩
  split
  · rename_i hk
    refine Sure.map (Q := fun s _ => s.Lawful) ?_ ?_
    · refine (sure_advance hp).bind ?_
      rintro t q hq ⟨rfl, -⟩
      exact (sure_stringLit hq.good hp.peek hk).mono fun s _ _ hs => hs.1
    · rintro s q - hs _ ⟨⟩
      exact hs
  · exact .pure hp (by simp)

/-- What is known inside of a rule for types that was entered at `p`. -/
structure BodyAt (p : Parser) (t : TypeRef) : Prop where
  fits : Part.Fits (p.room + 1) (.type t)
  paren : t.isRecvChan = true → p.peek.kind ≠ .operator .chan → Part.Fits p.room (.type t)

omit ht in
theorem BodyAt.of_fits {t : TypeRef} (h : Part.Fits (p.room + 1) (.type t))
    (hr : t.isRecvChan = false) : BodyAt p t :=
  ⟨h, fun h' => by rw [hr] at h'; cases h'⟩

theorem sure_parenType (hp : p.Good) : Sure (parenType type?) p fun t _ => BodyAt p t := by
  refine (sure_advance hp).bind fun _ q₁ h₁ _ => ?_
  refine (sure_required ht h₁.good).bind fun t q₂ h₂ h => ?_
  refine (sure_require h₂.good _ _).bind fun _ q₃ h₃ _ => .pure h₃.good ?_
  have hfits := h.fits
  rw [h₁.room] at hfits
  exact ⟨hfits.mono (Nat.le_succ _), fun _ _ => hfits⟩

/-- An element is read at the same depth, wherever it stands. -/
theorem sure_elem (hq : Kept p q) : Sure (required type?) q fun t _ =>
    Part.Fits p.room (.type t) ∧ (t.isRecvChan = true → q.peek.kind ≠ .operator .chan →
      ∃ s, p.room = s + 1 ∧ Part.Fits s (.type t)) := by
  refine (sure_required ht hq.good).mono fun t _ _ h => ?_
  rw [← hq.room]
  exact ⟨h.fits, h.paren⟩

theorem sure_bracketType (hp : p.Good) : Sure (bracketType type?) p fun t _ => BodyAt p t := by
  refine (sure_advance hp).bind fun _ q₁ h₁ _ => ?_
  refine (sure_consumeIf h₁.good (by simp)).bind fun b q₂ h₂ _ => ?_
  have hk₂ := h₁.trans h₂
  cases b with
  | true =>
    exact (sure_elem ht hk₂).bind fun t q₃ h₃ h => .pure h₃.good (.of_fits (.slice h.1) rfl)
  | false =>
    refine (sure_consumeIf h₂.good (by simp)).bind fun b q₃ h₃ _ => ?_
    have hk₃ := hk₂.trans h₃
    cases b with
    | true =>
      refine (sure_require h₃.good _ _).bind fun _ q₄ h₄ _ => ?_
      exact (sure_elem ht (hk₃.trans h₄)).bind fun t q₅ h₅ h =>
        .pure h₅.good (.of_fits (.ellipsisArray h.1) rfl)
    | false =>
      refine (sure_expr h₃.good).bind fun e q₄ h₄ he => ?_
      rw [hk₃.room] at he
      refine (sure_require h₄.good _ _).bind fun _ q₅ h₅ _ => ?_
      exact (sure_elem ht ((hk₃.trans h₄).trans h₅)).bind fun t q₆ h₆ h =>
        .pure h₆.good (.of_fits (.array he h.1) rfl)

theorem sure_mapType (hp : p.Good) : Sure (mapType type?) p fun t _ => BodyAt p t := by
  refine (sure_advance hp).bind fun _ q₁ h₁ _ => ?_
  refine (sure_require h₁.good _ _).bind fun _ q₂ h₂ _ => ?_
  have hk₂ := h₁.trans h₂
  refine (sure_elem ht hk₂).bind fun k q₃ h₃ hk => ?_
  refine (sure_require h₃.good _ _).bind fun _ q₄ h₄ _ => ?_
  exact (sure_elem ht ((hk₂.trans h₃).trans h₄)).bind fun v q₅ h₅ hv =>
    .pure h₅.good (.of_fits (.map hk.1 hv.1) rfl)

omit ht in
theorem sure_chanDir {opening : Token} (hp : p.Good) : Sure (chanDir opening) p fun d q =>
    (d = .recv → opening.kind = .operator .chan) ∧
      (d = .both → q.peek.kind ≠ .operator .chan) := by
  unfold chanDir
  split
  · rename_i hk
    exact (sure_require hp _ _).bind fun _ q₁ h₁ _ => .pure h₁.good ⟨fun _ => hk, by simp⟩
  · refine (sure_consumeIf hp (by simp)).bind fun b q₁ h₁ hb => ?_
    rcases hb with ⟨rfl, -, -⟩ | ⟨rfl, hne, rfl⟩
    · exact .pure h₁.good ⟨by simp, by simp⟩
    · exact .pure hp ⟨by simp, fun _ => hne⟩

theorem sure_chanType (hp : p.Good) : Sure (chanType type?) p fun t _ => BodyAt p t := by
  refine (sure_advance hp).bind ?_
  rintro _ q₁ h₁ ⟨rfl, -⟩
  refine (sure_chanDir h₁.good).bind fun d q₂ h₂ hd => ?_
  refine (sure_elem ht (h₁.trans h₂)).bind fun t q₃ h₃ h => .pure h₃.good ⟨?_, ?_⟩
  · by_cases hboth : d = .both ∧ t.isRecvChan = true
    · obtain ⟨rfl, hrecv⟩ := hboth
      obtain ⟨s, hs, hfits⟩ := h.2 hrecv (hd.2 rfl)
      rw [hs]
      exact .chanOfRecv hrecv hfits
    · refine .chan (fun hdir => ?_) h.1
      cases hr : t.isRecvChan with
      | false => rfl
      | true => exact absurd ⟨hdir, hr⟩ hboth
  · intro hr hne
    cases d with
    | recv => exact absurd (hd.1 rfl) hne
    | send => cases hr
    | both => cases hr

theorem sure_fieldGroup (hp : p.Good) :
    Sure (fieldGroup type?) p fun f _ => Part.Fits p.room (.field f) := by
  rw [fieldGroup_eq]
  refine (sure_typeOrName ht hp).bind ?_
  rintro ⟨t, i?⟩ q₁ h₁ ⟨hty, hi⟩
  refine (sure_peek h₁.good).bind ?_
  rintro _ _ - ⟨rfl, rfl⟩
  dsimp only
  split
  · rename_i name _
    obtain ⟨-, hlaw⟩ := hi name rfl
    have hnames : Sure (openedList (.delimiter .comma) (identifier .fieldName)) q₁
        fun names _ => ∀ i ∈ names, i.Lawful :=
      Sure.openedList h₁.good (by simp) fun q hq => (sure_ident hq.good _).mono fun _ _ _ h => h.1
    refine hnames.bind fun names q₂ h₂ hnames => ?_
    refine (sure_elem ht (h₁.trans h₂)).bind fun t' q₃ h₃ h => ?_
    refine (sure_tag h₃.good).bind fun tag q₄ h₄ htag => .pure h₄.good ?_
    exact .field (List.forall_mem_cons.2 ⟨hlaw, hnames⟩) htag h.1
  · refine (sure_tag h₁.good).bind fun tag q₂ h₂ htag => .pure h₂.good ?_
    exact .field (by simp) htag hty.fits

theorem sure_structBody (hp : p.Good) (start : Position) :
    Sure (structBody type? start) p fun t _ =>
      Part.Fits (p.room + 2) (.type t) ∧ t.isRecvChan = false := by
  refine (sure_require hp _ _).bind fun _ q₁ h₁ _ => ?_
  have hfields : Sure (termList (.delimiter .rbrace) .fieldEnd (fieldGroup type?)) q₁
      fun fields _ => ∀ f ∈ fields, Part.Fits p.room (.field f) := by
    refine Sure.termList h₁.good fun q hq => (sure_fieldGroup ht hq.good).mono fun f _ _ hf => ?_
    rwa [hq.room, h₁.room] at hf
  refine hfields.bind fun fields q₂ h₂ hfs => ?_
  exact (sure_require h₂.good _ _).bind fun _ q₃ h₃ _ => .pure h₃.good ⟨.struct hfs, rfl⟩

theorem sure_interfaceElem (hp : p.Good) :
    Sure (interfaceElem type?) p fun e _ => Part.Fits p.room (.elem e) := by
  refine (sure_ident hp _).bind fun i q₁ h₁ hi => ?_
  refine (sure_consumeIf h₁.good (by simp)).bind fun b q₂ h₂ _ => ?_
  cases b with
  | true =>
    refine (sure_ident h₂.good _).bind fun j q₃ h₃ hj => .pure h₃.good (.embedded ⟨?_, hj.1⟩)
    rintro _ ⟨⟩
    exact hi.1
  | false =>
    refine (sure_peekIs h₂.good _).bind ?_
    rintro b _ - ⟨-, rfl⟩
    cases b with
    | true =>
      refine (sure_signature ht h₂.good false).bind fun s q₃ h₃ hs => .pure h₃.good ?_
      have hfits := hs.1
      rw [h₂.room, h₁.room] at hfits
      exact .method hi.1 hfits
    | false => exact .pure h₂.good (.embedded ⟨by simp, hi.1⟩)

theorem sure_interfaceBody (hp : p.Good) (start : Position) :
    Sure (interfaceBody type? start) p fun t _ =>
      Part.Fits (p.room + 2) (.type t) ∧ t.isRecvChan = false := by
  refine (sure_require hp _ _).bind fun _ q₁ h₁ _ => ?_
  have helems : Sure (termList (.delimiter .rbrace) .elementEnd (interfaceElem type?)) q₁
      fun elems _ => ∀ e ∈ elems, Part.Fits p.room (.elem e) := by
    refine Sure.termList h₁.good fun q hq => (sure_interfaceElem ht hq.good).mono fun e _ _ he => ?_
    rwa [hq.room, h₁.room] at he
  refine helems.bind fun elems q₂ h₂ hes => ?_
  exact (sure_require h₂.good _ _).bind fun _ q₃ h₃ _ => .pure h₃.good ⟨.interface hes, rfl⟩

omit ht in
/-- A body in braces takes a level of its own. -/
theorem sure_braces {m : Parse TypeRef} (hq : Kept p q)
    (hm : ∀ q : Parser, q.Good → Sure m q fun t _ =>
      Part.Fits (q.room + 2) (.type t) ∧ t.isRecvChan = false) :
    Sure (nested m) q fun t _ => BodyAt p t := by
  refine Sure.nested hq.good fun hlt => ?_
  have hroom := room_enter hlt
  refine (hm _ hq.good.enter).mono fun t _ _ h => .of_fits ?_ h.2
  rw [← hq.room, ← hroom]
  exact h.1

theorem sure_typeBody (hp : p.Good) : Sure (typeBody type?) p fun r _ =>
    match r with
    | some t => BodyAt p t ∧ opensType p.peek.kind = true
    | none => opensType p.peek.kind = false := by
  have hmap : ∀ {m : Parse TypeRef} {q : Parser}, opensType p.peek.kind = true →
      Sure m q (fun t _ => BodyAt p t) → Sure (some <$> m) q fun r _ =>
        match r with
        | some t => BodyAt p t ∧ opensType p.peek.kind = true
        | none => opensType p.peek.kind = false :=
    fun hk hm => hm.map fun t _ _ h => ⟨h, hk⟩
  refine (sure_peek hp).bind ?_
  rintro _ _ - ⟨rfl, rfl⟩
  split
  · rename_i hk
    exact hmap (by rw [hk]; rfl) (sure_parenType ht hp)
  · rename_i hk
    refine (sure_namedType hp).map fun n _ _ hn => ⟨.of_fits (.named hn) rfl, ?_⟩
    rw [hk]
    rfl
  · rename_i hk
    exact hmap (by rw [hk]; rfl) (sure_bracketType ht hp)
  · rename_i hk
    refine (sure_advance hp).bind fun t q₁ h₁ _ => hmap (by rw [hk]; rfl) ?_
    exact sure_braces h₁ fun q hq => sure_structBody ht hq t.pos
  · rename_i hk
    refine (sure_advance hp).bind fun t q₁ h₁ _ => ?_
    refine (sure_elem ht h₁).map fun t' _ _ h => ⟨.of_fits (.pointer h.1) rfl, ?_⟩
    rw [hk]
    rfl
  · rename_i hk
    refine (sure_advance hp).bind fun t q₁ h₁ _ => ?_
    refine (sure_signature ht h₁.good false).map fun sig _ _ h => ⟨.of_fits (.func ?_) rfl, ?_⟩
    · have hfits := h.1
      rwa [h₁.room] at hfits
    · rw [hk]
      rfl
  · rename_i hk
    refine (sure_advance hp).bind fun t q₁ h₁ _ => hmap (by rw [hk]; rfl) ?_
    exact sure_braces h₁ fun q hq => sure_interfaceBody ht hq t.pos
  · rename_i hk
    exact hmap (by rw [hk]; rfl) (sure_mapType ht hp)
  · rename_i hk
    exact hmap (by rw [hk]; rfl) (sure_chanType ht hp)
  · rename_i hk
    exact hmap (by rw [hk]; rfl) (sure_chanType ht hp)
  · refine .pure hp ?_
    cases hk : p.peek.kind <;> simp_all [opensType]

end Rules

variable {p : Parser}

theorem finds_typeRule (room : Nat) : Finds (typeRule room) := by
  induction room with
  | zero => exact fun p hp => sure_tooDeep hp
  | succ room ih =>
    intro p hp
    refine Sure.nested hp fun hlt => ?_
    have hroom := room_enter hlt
    refine (sure_typeBody ih hp.enter).mono fun r _ _ h => ?_
    cases r with
    | none => exact h
    | some t =>
      refine ⟨?_, h.2, fun hr hne => ⟨_, hroom.symm, h.1.paren hr hne⟩⟩
      rw [← hroom]
      exact h.1.fits

theorem finds_type : Finds type? := fun p hp => finds_typeRule p.room p hp

end Parse
end GoSyntax
