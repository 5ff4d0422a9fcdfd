import GoSyntax.Grammar.Type
import GoSyntax.Proofs.Grammar.Tracks

/-! What the rules for types and signatures read and what they may blame. -/
namespace GoSyntax
namespace Parse

open GoSyntax.Parser

variable {p q : Parser} {o : Outlook} {r k n : Nat}

/-- Entries that make no parameter list are to blame by themselves, or the list is. -/
theorem pos_of_params {start : Position} {namesRequired : Bool} {es : List Entry} {e : Error}
    (hes : ∀ e ∈ es, e.Proper) (h : params start namesRequired es p = .error e q) :
    (e.pos = start ∨ ∃ d ∈ es, e.pos = d.typeRef.start) ∧
      ∃ problem, e.cause = .grammar problem := by
  cases hv : earlyVariadic? es with
  | some d =>
    rw [params_of_early start namesRequired hv] at h
    cases h
    obtain ⟨l, r, rfl, -⟩ := earlyVariadic?_eq_some hv
    exact ⟨.inr ⟨d, by simp, rfl⟩, _, rfl⟩
  | none =>
    cases hn : es.any Entry.isNamed with
    | true =>
      rw [params_of_named start namesRequired hv hn, map_eq_pure_bind] at h
      rcases resolve_cases hes p with ⟨ps, c, log, hr, -⟩ | ⟨d, log, hr, l, r, -, -, rfl, -⟩
      · rw [bind_ok hr] at h
        cases h
      · rw [bind_error hr] at h
        cases h
        exact ⟨.inr ⟨d, by simp, rfl⟩, _, rfl⟩
    | false =>
      rw [params_of_unnamed start namesRequired hv hn] at h
      split at h
      · cases h
        exact ⟨.inl rfl, _, rfl⟩
      · cases h

theorem tracks_params {start : Position} {namesRequired : Bool} {es : List Entry}
    (hstart : o.place start) (hes : ∀ e ∈ es, e.Proper ∧ o.place e.typeRef.start) :
    Tracks o n (params start namesRequired es) p fun ps ts _ =>
      Entry.Settles namesRequired es ps ∧ ts = [] := by
  unfold Tracks
  cases h : params start namesRequired es p with
  | ok ps q =>
    obtain ⟨hsettles, log, rfl⟩ := Entry.settles_of_params (fun e he => (hes e he).1) h
    exact ⟨[], ⟨rfl, by simp, rfl, rfl⟩, hsettles, rfl⟩
  | error e q =>
    obtain ⟨hpos, problem, hcause⟩ := pos_of_params (fun e he => (hes e he).1) h
    refine Or.inr ⟨?_, by simp [hcause, Cause.IsLexical], ?_⟩
    · rcases hpos with hpos | ⟨d, hd, hpos⟩
      · rwa [hpos]
      · rw [hpos]
        exact (hes d hd).2
    · intro hdeep
      rw [Error.isTooDeep, hcause] at hdeep
      cases hdeep

theorem tracks_namedType (hp : p.Ready o r k n) : Tracks o n namedType p fun x ts _ =>
    o.place x.start ∧ Written (Node.ofNamed x) ts := by
  refine (tracks_identifier hp _).bind ?_
  rintro _ _ q₁ h₁ ⟨rfl, hfirst, rfl⟩
  refine (tracks_consumeIf (h₁.ready hp) (by simp)).bind fun b ts q₂ h₂ hb => ?_
  rcases hb with ⟨rfl, hk, rfl⟩ | ⟨rfl, rfl, rfl⟩
  · refine (tracks_identifier (h₂.ready (h₁.ready hp)) _).bind ?_
    rintro _ _ q₃ - ⟨rfl, hname, rfl⟩
    exact .pure ⟨hp.place, .ident hfirst (.mark (by simp [hk]) (.of_ident hname))⟩
  · exact .pure ⟨hp.place, .of_ident hfirst⟩

theorem tracks_tag (hp : p.Ready o r k n) : Tracks o n tag? p fun _ ts _ => Written [] ts := by
  refine tracks_peek.bind ?_
  rintro _ _ _ - ⟨rfl, rfl, rfl⟩
  split
  · rename_i hk
    have hkind : p.peek.kind ≠ .endOfFile ∧ p.peek.kind ≠ .identifier := by
      constructor <;> intro h <;> rw [h] at hk <;> cases hk
    refine Tracks.map (Q := fun _ ts _ => Written [] ts) ?_ fun _ _ _ _ h => h
    refine (tracks_advance hp hkind.1).bind ?_
    rintro _ _ q - ⟨rfl, rfl⟩
    refine (tracks_stringLit hp.place).mono ?_
    rintro _ _ q' - rfl
    exact .mark hkind.2 .nil
  · exact .pure .nil

theorem tracks_chanDir {opening : Token} (hp : p.Ready o r k n) :
    Tracks o n (chanDir opening) p fun _ ts _ => Written [] ts := by
  unfold chanDir
  split
  · refine (tracks_require hp _ (by simp)).bind ?_
    rintro _ _ q - ⟨rfl, hk, rfl⟩
    exact .pure (.mark (by simp [hk]) .nil)
  · refine (tracks_consumeIf hp (by simp)).bind fun b ts q _ hb => ?_
    rcases hb with ⟨rfl, hk, rfl⟩ | ⟨rfl, rfl, rfl⟩
    · exact .pure (.mark (by simp [hk]) .nil)
    · exact .pure .nil

/-- Members in braces are read one by one. -/
theorem tracks_members {α : Type} {item : Parse α} {row : α → List Node}
    (hitem : ∀ q : Parser, q.Ready o r 2 n → Tracks o n item q fun a ts _ => Written (row a) ts)
    (hp : p.Ready o r 2 n) (wanted wanted' wanted'' : Expected) (f : List α → Position → TypeRef) :
    Tracks o n (do
      let _ ← require wanted [.delimiter .lbrace]
      let l ← termList (.delimiter .rbrace) wanted' item
      let closing ← require wanted'' [.delimiter .rbrace]
      return f l closing.stop) p fun t ts _ =>
        ∃ l stop, t = f l stop ∧ Written (l.flatMap row) ts := by
  refine (tracks_require hp _ (by simp)).bind ?_
  rintro _ _ q₁ h₁ ⟨rfl, hopen, rfl⟩
  have hp₁ := h₁.ready hp
  have hitem' : ∀ q : Parser, q.Ready o r 2 n → Tracks o n item q
      fun a ts _ => True ∧ Written (row a) ts := fun q hq =>
    (hitem q hq).mono fun _ _ _ _ h => ⟨trivial, h⟩
  refine (Tracks.termList hitem' hp₁).bind ?_
  rintro l ts q₂ h₂ ⟨-, hl⟩
  refine (tracks_require (h₂.ready hp₁) _ (by simp)).bind ?_
  rintro _ _ q₃ - ⟨rfl, hclose, rfl⟩
  exact .pure ⟨l, _, rfl, .mark (by simp [hopen]) (hl.snoc (by simp [hclose]))⟩

/-- The rule reads the type that it finds where levels are left, and nothing if it finds none. -/
def Locates (o : Outlook) (r : Nat) (type? : Parse (Option TypeRef)) : Prop :=
  ∀ n (p : Parser), p.Ready o r 2 n → Tracks o n type? p fun x ts _ =>
    match x with
    | some t => o.place t.start ∧ Written [.type t] ts
    | none => ts = []

section Rules

variable {type? : Parse (Option TypeRef)} (hd : Locates o r type?)

include hd

theorem tracks_requiredType (hp : p.Ready o r 2 n) : Tracks o n (required type?) p fun t ts _ =>
    o.place t.start ∧ Written [.type t] ts := by
  refine (hd n p hp).bind fun x ts q hq hx => ?_
  cases x with
  | some t => exact .pure (by simpa using hx)
  | none => exact tracks_unexpected (hq.ready hp) _

theorem tracks_typeOrName (hp : p.Ready o r 2 n) : Tracks o n (typeOrName type?) p fun x ts _ =>
    o.place x.1.start ∧ Written [.type x.1] ts ∧
      ∀ i, x.2 = some i → x.1 = .named ⟨none, i⟩ := by
  refine (tracks_peekIs .identifier).bind ?_
  rintro b _ _ - ⟨-, rfl, rfl⟩
  refine (tracks_requiredType hd hp).bind ?_
  rintro t ts q - ⟨hstart, ht⟩
  refine .pure ⟨hstart, by simpa using ht, fun i hi => ?_⟩
  exact TypeRef.eq_of_bareIdent ((Option.ite_none_right_eq_some).1 hi).2

theorem tracks_entry (hp : p.Ready o r 2 n) : Tracks o n (entry type?) p fun e ts _ =>
    (e.Proper ∧ o.place e.typeRef.start) ∧ Written e.parts ts := by
  rw [entry_eq]
  refine (tracks_consumeIf hp (by simp)).bind fun b ts q₁ h₁ hb => ?_
  rcases hb with ⟨rfl, hk, rfl⟩ | ⟨rfl, rfl, rfl⟩
  · refine (tracks_requiredType hd (h₁.ready hp)).bind ?_
    rintro t ts q₂ - ⟨hstart, ht⟩
    rw [← List.append_nil ts] at ht
    exact .pure ⟨⟨.variadic t, hstart⟩, .mark (by simp [hk]) ht⟩
  · refine (tracks_typeOrName hd hp).bind ?_
    rintro ⟨t, ident?⟩ ts q₁ h₁ ⟨hstart, ht, hident⟩
    have hp₁ := h₁.ready hp
    cases ident? with
    | none => exact .pure ⟨⟨.plain t, hstart⟩, by simpa [Entry.parts] using ht⟩
    | some name =>
      obtain rfl := hident name rfl
      have hname : Written [.ident name] ts := ht.unwrap rfl
      refine tracks_peek.bind ?_
      rintro _ _ _ - ⟨rfl, rfl, rfl⟩
      split
      · exact .pure ⟨⟨.lone name, hstart⟩, by simpa [Entry.parts] using hname⟩
      · refine (tracks_consumeIf hp₁ (by simp)).bind fun b us q₂ h₂ hb => ?_
        have hus : Written [] us := by
          rcases hb with ⟨-, hk, rfl⟩ | ⟨-, rfl, -⟩
          · exact .mark (by simp [hk]) .nil
          · exact .nil
        refine (tracks_requiredType hd (h₂.ready hp₁)).bind ?_
        rintro t' vs q₃ - ⟨hstart', ht'⟩
        refine .pure ⟨⟨.named name b t', hstart'⟩, ?_⟩
        simpa [Entry.parts] using hname.append (hus.append ht')

/-- A parameter list reads its parenthesis at least. -/
theorem tracks_paramList (hp : p.Ready o r 1 n) (namesRequired : Bool) :
    Tracks o n (paramList type? namesRequired) p fun l ts _ =>
      o.place l.start ∧ ts ≠ [] ∧ Written (Node.ofParams l) ts := by
  refine .nested hp fun n' hp' => ?_
  have hp' := hp'.mono (Nat.sub_le r 1) (Nat.le_refl 0)
  refine (tracks_require hp' _ (by simp)).bind ?_
  rintro _ _ q₁ h₁ ⟨rfl, hopen, rfl⟩
  have hopen : p.peek.kind = .delimiter .lparen := hopen
  have hp₁ := h₁.gain hp'
  refine (Tracks.commaList (fun q hq => tracks_entry hd hq) hp₁).bind ?_
  rintro es ts q₂ h₂ ⟨hstarts, hes⟩
  refine (tracks_require (h₂.ready hp₁) _ (by simp)).bind ?_
  rintro _ _ q₃ - ⟨rfl, hclose, rfl⟩
  refine (tracks_params hp'.place hstarts).bind ?_
  rintro ps _ q₄ - ⟨hsettles, rfl⟩
  refine .pure ⟨hp'.place, by simp, ?_⟩
  have hall := (hsettles.written hes).snoc (t := q₂.peek) (by simp [hclose])
  simpa [Node.ofParams] using hall.mark (t := p.peek) (by simp [hopen])

theorem tracks_results (hp : p.Ready o r 2 n) : Tracks o n (results type?) p fun x ts _ =>
    Written ((x.map Node.ofParams).getD []) ts := by
  refine (tracks_peekIs _).bind ?_
  rintro b _ _ - ⟨-, rfl, rfl⟩
  cases b with
  | true =>
    refine (tracks_paramList hd (hp.less (by omega)) false).map ?_
    rintro l ts q - ⟨-, -, hl⟩
    exact hl
  | false =>
    refine (hd n p hp).bind fun x ts q _ hx => .pure ?_
    rw [List.append_nil, List.nil_append]
    cases x with
    | some t => exact .wrap rfl hx.2
    | none =>
      obtain rfl : ts = [] := hx
      exact .nil

theorem tracks_signature (hp : p.Ready o r 2 n) (namesRequired : Bool) :
    Tracks o n (signature type? namesRequired) p fun x ts _ => Written [.signature x] ts := by
  refine .nested hp fun n' hp' => ?_
  have hp' := hp'.mono (Nat.sub_le r 1) (Nat.le_refl 1)
  refine (tracks_paramList hd hp' namesRequired).bind ?_
  rintro args ts q₁ h₁ ⟨-, hne, hargs⟩
  obtain ⟨t, us, rfl⟩ := List.exists_cons_of_ne_nil hne
  refine (tracks_results hd ((h₁.gain hp').less (by omega))).bind fun x vs q₂ _ hx => .pure ?_
  refine .wrap rfl ?_
  rw [Node.parts_eq rfl]
  simpa [Node.children] using hargs.append hx

theorem tracks_fieldGroup (hp : p.Ready o r 2 n) :
    Tracks o n (fieldGroup type?) p fun f ts _ => Written (Node.ofField f) ts := by
  rw [fieldGroup_eq]
  refine (tracks_typeOrName hd hp).bind ?_
  rintro ⟨t, ident?⟩ ts q₁ h₁ ⟨-, ht, hident⟩
  have hp₁ := h₁.ready hp
  refine tracks_peek.bind ?_
  rintro _ _ _ - ⟨rfl, rfl, rfl⟩
  dsimp only
  split
  · rename_i name _
    obtain rfl := hident name rfl
    have hname : Written [.ident name] ts := ht.unwrap rfl
    have hitem : ∀ q : Parser, q.Ready o r 2 n → Tracks o n (identifier .fieldName) q
        fun i ts _ => True ∧ Written [.ident i] ts := by
      intro q hq
      refine (tracks_identifier hq _).mono ?_
      rintro _ _ q' - ⟨rfl, hk, rfl⟩
      exact ⟨trivial, .of_ident hk⟩
    refine (Tracks.openedList hitem (by simp) (by simp) hp₁).bind ?_
    rintro names us q₂ h₂ ⟨-, hnames⟩
    have hp₂ := h₂.ready hp₁
    refine (tracks_requiredType hd hp₂).bind ?_
    rintro t' vs q₃ h₃ ⟨-, ht'⟩
    refine (tracks_tag (h₃.ready hp₂)).bind fun tag ws q₄ _ htag => .pure ?_
    simpa [Node.ofField, ← List.map_eq_flatMap] using
      hname.append (hnames.append (ht'.append htag))
  · refine (tracks_tag hp₁).bind fun tag us q₂ _ htag => .pure ?_
    simpa [Node.ofField] using ht.append htag

theorem tracks_interfaceElem (hp : p.Ready o r 2 n) :
    Tracks o n (interfaceElem type?) p fun e ts _ => Written (Node.ofElem e) ts := by
  refine (tracks_identifier hp _).bind ?_
  rintro _ _ q₁ h₁ ⟨rfl, hname, rfl⟩
  have hp₁ := h₁.ready hp
  refine (tracks_consumeIf hp₁ (by simp)).bind fun b ts q₂ h₂ hb => ?_
  rcases hb with ⟨rfl, hk, rfl⟩ | ⟨rfl, rfl, rfl⟩
  · refine (tracks_identifier (h₂.ready hp₁) _).bind ?_
    rintro _ _ q₃ - ⟨rfl, hname', rfl⟩
    exact .pure (.ident hname (.mark (by simp [hk]) (.of_ident hname')))
  · refine (tracks_peekIs _).bind ?_
    rintro b _ _ - ⟨-, rfl, rfl⟩
    cases b with
    | true =>
      refine (tracks_signature hd hp₁ false).bind fun x ts q₂ _ hx => .pure ?_
      rw [List.append_nil]
      exact .ident hname hx
    | false => exact .pure (.of_ident hname)

theorem tracks_parenType (hp : p.Ready o r 1 n) (hk : p.peek.kind = .delimiter .lparen) :
    Tracks o n (parenType type?) p fun t ts _ => o.place t.start ∧ Written [.type t] ts := by
  refine (tracks_advance hp (by simp [hk])).bind ?_
  rintro _ _ q₁ h₁ ⟨rfl, rfl⟩
  have hp₁ : q₁.Ready o r 2 n := (h₁.gain hp).less (by omega)
  refine (tracks_requiredType hd hp₁).bind ?_
  rintro t ts q₂ h₂ ⟨hstart, ht⟩
  refine (tracks_require (h₂.ready hp₁) _ (by simp)).bind ?_
  rintro _ _ q₃ - ⟨rfl, hclose, rfl⟩
  exact .pure ⟨hstart, .mark (by simp [hk]) (ht.snoc (by simp [hclose]))⟩

theorem tracks_bracketType (hp : p.Ready o r 1 n) (hk : p.peek.kind = .delimiter .lbracket) :
    Tracks o n (bracketType type?) p fun t ts _ => o.place t.start ∧ Written [.type t] ts := by
  have hopen : p.peek.kind ≠ .identifier := by simp [hk]
  refine (tracks_advance hp (by simp [hk])).bind ?_
  rintro _ _ q₁ h₁ ⟨rfl, rfl⟩
  have hp₁ : q₁.Ready o r 2 n := (h₁.gain hp).less (by omega)
  refine (tracks_consumeIf hp₁ (by simp)).bind fun b ts q₂ h₂ hb => ?_
  rcases hb with ⟨rfl, hclose, rfl⟩ | ⟨rfl, rfl, rfl⟩
  · refine (tracks_requiredType hd (h₂.ready hp₁)).bind ?_
    rintro t ts q₃ - ⟨-, ht⟩
    refine .pure ⟨hp.place, .wrap rfl ?_⟩
    rw [List.append_nil]
    exact .mark hopen (.mark (by simp [hclose]) ht)
  · refine (tracks_consumeIf hp₁ (by simp)).bind fun b ts q₂ h₂ hb => ?_
    rcases hb with ⟨rfl, hdots, rfl⟩ | ⟨rfl, rfl, rfl⟩
    · have hp₂ := h₂.ready hp₁
      refine (tracks_require hp₂ _ (by simp)).bind ?_
      rintro _ _ q₃ h₃ ⟨rfl, hclose, rfl⟩
      refine (tracks_requiredType hd (h₃.ready hp₂)).bind ?_
      rintro t ts q₄ - ⟨-, ht⟩
      refine .pure ⟨hp.place, .wrap rfl ?_⟩
      rw [List.append_nil]
      exact .mark hopen (.mark (by simp [hdots]) (.mark (by simp [hclose]) ht))
    · refine (tracks_expr hp₁).bind fun length ts q₂ h₂ hlength => ?_
      have hp₂ := h₂.ready hp₁
      refine (tracks_require hp₂ _ (by simp)).bind ?_
      rintro _ _ q₃ h₃ ⟨rfl, hclose, rfl⟩
      refine (tracks_requiredType hd (h₃.ready hp₂)).bind ?_
      rintro t us q₄ - ⟨-, ht⟩
      refine .pure ⟨hp.place, .wrap rfl ?_⟩
      rw [List.append_nil]
      exact .mark hopen (hlength.append (.mark (by simp [hclose]) ht))

theorem tracks_mapType (hp : p.Ready o r 1 n) (hk : p.peek.kind = .keyword .mapKw) :
    Tracks o n (mapType type?) p fun t ts _ => o.place t.start ∧ Written [.type t] ts := by
  refine (tracks_advance hp (by simp [hk])).bind ?_
  rintro _ _ q₁ h₁ ⟨rfl, rfl⟩
  have hp₁ : q₁.Ready o r 2 n := (h₁.gain hp).less (by omega)
  refine (tracks_require hp₁ _ (by simp)).bind ?_
  rintro _ _ q₂ h₂ ⟨rfl, hopen, rfl⟩
  have hp₂ := h₂.ready hp₁
  refine (tracks_requiredType hd hp₂).bind ?_
  rintro key ts q₃ h₃ ⟨-, hkey⟩
  have hp₃ := h₃.ready hp₂
  refine (tracks_require hp₃ _ (by simp)).bind ?_
  rintro _ _ q₄ h₄ ⟨rfl, hclose, rfl⟩
  refine (tracks_requiredType hd (h₄.ready hp₃)).bind ?_
  rintro t us q₅ - ⟨-, ht⟩
  refine .pure ⟨hp.place, .wrap rfl ?_⟩
  rw [List.append_nil]
  exact .mark (by simp [hk]) (.mark (by simp [hopen]) (hkey.append (.mark (by simp [hclose]) ht)))

theorem tracks_chanType (hp : p.Ready o r 1 n)
    (hk : p.peek.kind = .keyword .chanKw ∨ p.peek.kind = .operator .chan) :
    Tracks o n (chanType type?) p fun t ts _ => o.place t.start ∧ Written [.type t] ts := by
  have hkind : p.peek.kind ≠ .endOfFile ∧ p.peek.kind ≠ .identifier := by
    rcases hk with hk | hk <;> simp [hk]
  refine (tracks_advance hp hkind.1).bind ?_
  rintro _ _ q₁ h₁ ⟨rfl, rfl⟩
  have hp₁ : q₁.Ready o r 2 n := (h₁.gain hp).less (by omega)
  refine (tracks_chanDir hp₁).bind fun dir ts q₂ h₂ hdir => ?_
  refine (tracks_requiredType hd (h₂.ready hp₁)).bind ?_
  rintro t us q₃ - ⟨-, ht⟩
  refine .pure ⟨hp.place, .wrap rfl ?_⟩
  rw [List.append_nil]
  exact .mark hkind.2 (hdir.append ht)

theorem tracks_typeBody (hp : p.Ready o r 1 n) : Tracks o n (typeBody type?) p fun x ts _ =>
    match x with
    | some t => o.place t.start ∧ Written [.type t] ts
    | none => ts = [] := by
  refine tracks_peek.bind ?_
  rintro _ _ _ - ⟨rfl, rfl, rfl⟩
  have hafter : ∀ {q : Parser}, p.Passes [p.peek] q → q.Ready o r 3 n := fun h => h.gain hp
  split
  · rename_i hk
    exact (tracks_parenType hd hp hk).map fun t ts q _ ht => ht
  · refine (tracks_namedType hp).map ?_
    rintro x ts q - ⟨hstart, hx⟩
    refine ⟨hstart, .wrap rfl ?_⟩
    rw [Node.parts_eq rfl]
    exact hx
  · rename_i hk
    exact (tracks_bracketType hd hp hk).map fun t ts q _ ht => ht
  · rename_i hk
    refine (tracks_advance hp (by simp [hk])).bind ?_
    rintro _ _ q₁ h₁ ⟨rfl, rfl⟩
    refine Tracks.map (.nested (hafter h₁) fun n' hp' => ?_) fun t ts q _ ht => ht
    refine (tracks_members (fun q hq => tracks_fieldGroup hd hq)
      (hp'.mono (Nat.sub_le r 1) (Nat.le_refl 2)) .structBrace .fieldEnd .structEnd
      (.struct p.peek.pos)).mono ?_
    rintro _ ts q - ⟨fields, stop, rfl, hfields⟩
    refine ⟨hp.place, .wrap rfl ?_⟩
    rw [Node.parts_eq rfl]
    exact .mark (by simp [hk]) hfields
  · rename_i hk
    refine (tracks_advance hp (by simp [hk])).bind ?_
    rintro _ _ q₁ h₁ ⟨rfl, rfl⟩
    refine (tracks_requiredType hd ((hafter h₁).less (by omega))).map ?_
    rintro t ts q - ⟨-, ht⟩
    exact ⟨hp.place, .wrap rfl (.mark (by simp [hk]) ht)⟩
  · rename_i hk
    refine (tracks_advance hp (by simp [hk])).bind ?_
    rintro _ _ q₁ h₁ ⟨rfl, rfl⟩
    refine (tracks_signature hd ((hafter h₁).less (by omega)) false).map fun x ts q _ hx => ?_
    exact ⟨hp.place, .wrap rfl (.mark (by simp [hk]) hx)⟩
  · rename_i hk
    refine (tracks_advance hp (by simp [hk])).bind ?_
    rintro _ _ q₁ h₁ ⟨rfl, rfl⟩
    refine Tracks.map (.nested (hafter h₁) fun n' hp' => ?_) fun t ts q _ ht => ht
    refine (tracks_members (fun q hq => tracks_interfaceElem hd hq)
      (hp'.mono (Nat.sub_le r 1) (Nat.le_refl 2)) .interfaceBrace .elementEnd .interfaceEnd
      (.interface p.peek.pos)).mono ?_
    rintro _ ts q - ⟨elems, stop, rfl, helems⟩
    refine ⟨hp.place, .wrap rfl ?_⟩
    rw [Node.parts_eq rfl]
    exact .mark (by simp [hk]) helems
  · rename_i hk
    exact (tracks_mapType hd hp hk).map fun t ts q _ ht => ht
  · rename_i hk
    exact (tracks_chanType hd hp (.inl hk)).map fun t ts q _ ht => ht
  · rename_i hk
    exact (tracks_chanType hd hp (.inr hk)).map fun t ts q _ ht => ht
  · exact .pure rfl

end Rules

theorem locates_typeRule (r : Nat) : Locates o r (typeRule r) := by
  induction r with
  | zero => exact fun _ _ hp => tracks_tooDeep hp (Nat.le_zero.1 hp.room)
  | succ r ih => exact fun _ _ hp => .nested hp fun _ hp' => tracks_typeBody ih hp'

theorem locates_type (r : Nat) : Locates o r type? :=
  fun n p hp => locates_typeRule p.room n p ⟨hp.along, Nat.le_refl _, hp.levels⟩

end Parse
end GoSyntax
