import GoSyntax.Proofs.Grammar.Lays

/-! What the rules for types and signatures give is laid out in the tokens that they read. -/
namespace GoSyntax

theorem Parser.Passes.head {p q : Parser} {t : Token} {ts : List Token} (h : p.Passes ts q)
    (ht : ts.head? = some t) : t = p.peek := by
  obtain ⟨us, rfl⟩ := List.head?_eq_some_iff.1 ht
  have hstream := h.stream
  simp only [Parser.stream, List.map_cons, List.cons_append, List.cons.injEq, Except.ok.injEq]
    at hstream
  exact hstream.1.symm

namespace Parse

open GoSyntax.Parser

variable {p : Parser} {r n : Nat}

theorem lays_namedType (hp : p.Ready .any r 0 n) :
    Tracks .any n namedType p fun x ts _ => Fills [.part (.named x)] ts := by
  refine (tracks_identifier hp _).bind ?_
  rintro _ _ q₁ h₁ ⟨rfl, hfirst, rfl⟩
  refine (tracks_consumeIf (h₁.ready hp) (by simp)).bind fun b ts q₂ h₂ hb => ?_
  rcases hb with ⟨rfl, hdot, rfl⟩ | ⟨rfl, rfl, rfl⟩
  · refine (tracks_identifier (h₂.ready (h₁.ready hp)) _).bind ?_
    rintro _ _ q₃ - ⟨rfl, hname, rfl⟩
    exact .pure (.qualified hfirst hdot hname)
  · exact .pure (.unqualified hfirst)

/-- A string literal is the token that it was made of. -/
theorem lays_stringLit {t : Token} (hk : t.kind.isString = true) :
    Tracks .any n (stringLit t) p fun x ts _ => ts = [] ∧ Fills [.part (.string x)] [t] := by
  unfold stringLit
  split
  · rename_i value hv
    exact .pure ⟨rfl, .string hk hv⟩
  · exact tracks_refused _

theorem lays_tag (hp : p.Ready .any r 0 n) :
    Tracks .any n tag? p fun x ts _ => Fills (x.toList.map (.part <| .string ·)) ts := by
  refine tracks_peek.bind ?_
  rintro _ _ _ - ⟨rfl, rfl, rfl⟩
  split
  · rename_i hk
    have hend : p.peek.kind ≠ .endOfFile := by
      intro h
      rw [h] at hk
      cases hk
    refine Tracks.map (Q := fun x ts _ => Fills [.part (.string x)] ts) ?_ fun _ _ _ _ h => h
    refine (tracks_advance hp hend).bind ?_
    rintro _ _ q - ⟨rfl, rfl⟩
    refine (lays_stringLit hk).mono ?_
    rintro x _ q' - ⟨rfl, hx⟩
    exact hx
  · exact .pure .nil

/-- The direction of a channel is told by the token that opens the type and perhaps one more. -/
theorem lays_chanDir {opening : Token} (hp : p.Ready .any r 0 n)
    (hk : opening.kind = .keyword .chanKw ∨ opening.kind = .operator .chan) :
    Tracks .any n (chanDir opening) p fun dir ts _ =>
      Laid dir.slots (opening :: ts) (opening :: ts) := by
  unfold chanDir
  split
  · rename_i hopen
    refine (tracks_require hp _ (by simp)).bind ?_
    rintro _ _ q - ⟨rfl, hchan, rfl⟩
    exact .pure (.mark hopen (.mark hchan .nil))
  · rename_i hne
    have hopen := hk.resolve_right hne
    refine (tracks_consumeIf hp (by simp)).bind fun b ts q _ hb => ?_
    rcases hb with ⟨rfl, harrow, rfl⟩ | ⟨rfl, rfl, rfl⟩
    · exact .pure (.mark hopen (.mark harrow .nil))
    · exact .pure (.mark hopen .nil)

/-- Members in braces are laid out one by one, up to the brace that closes them. -/
theorem lays_members {α : Type} {item : Parse α} {f : α → List Slot}
    (hitem : ∀ q : Parser, q.Ready .any r 0 n → Tracks .any n item q fun a ts _ => Fills (f a) ts)
    (hp : p.Ready .any r 0 n) (wanted wanted' wanted'' : Expected)
    (g : List α → Position → TypeRef) :
    Tracks .any n (do
      let _ ← require wanted [.delimiter .lbrace]
      let l ← termList (.delimiter .rbrace) wanted' item
      let closing ← require wanted'' [.delimiter .rbrace]
      return g l closing.stop) p fun t ts _ => ∃ l us own closing, t = g l closing.stop ∧
        ts = us ++ [closing] ∧ closing.kind = .delimiter .rbrace ∧
        Laid (Slot.mark (.delimiter .lbrace) :: Slot.list f [.delimiter .semicolon] l) us own := by
  refine (tracks_require hp _ (by simp)).bind ?_
  rintro _ _ q₁ h₁ ⟨rfl, hopen, rfl⟩
  have hp₁ := h₁.ready hp
  refine (lays_termList [.delimiter .semicolon] hitem (by simp) hp₁).bind ?_
  rintro l ts q₂ h₂ ⟨own, hl⟩
  refine (tracks_require (h₂.ready hp₁) _ (by simp)).bind ?_
  rintro _ _ q₃ - ⟨rfl, hclose, rfl⟩
  exact .pure ⟨l, _, _, q₂.peek, rfl, by simp, hclose, .mark hopen hl⟩

/-- The rule lays out the type that it finds, and reads nothing if it finds none. -/
def LaysType (r n : Nat) (type? : Parse (Option TypeRef)) : Prop :=
  ∀ p : Parser, p.Ready .any r 0 n → Tracks .any n type? p fun x ts _ =>
    match x with
    | some t => Fills [.part (.type t)] ts
    | none => ts = []

section Rules

variable {type? : Parse (Option TypeRef)} (hd : LaysType r n type?)

include hd

theorem lays_required (hp : p.Ready .any r 0 n) :
    Tracks .any n (required type?) p fun t ts _ => Fills [.part (.type t)] ts := by
  refine (hd p hp).bind fun x ts q hq hx => ?_
  cases x with
  | some t => exact .pure (by simpa using hx)
  | none => exact tracks_unexpected (hq.ready hp) _

/-- The identifier that is given is all that was read. -/
theorem lays_typeOrName (hp : p.Ready .any r 0 n) :
    Tracks .any n (typeOrName type?) p fun x ts _ => Fills [.part (.type x.1)] ts ∧
      ∀ i, x.2 = some i → Fills [.part (.ident i)] ts := by
  refine (tracks_peekIs .identifier).bind ?_
  rintro b _ _ - ⟨hb, rfl, rfl⟩
  refine (lays_required hd hp).bind fun t ts q hq ht => .pure ?_
  rw [List.append_nil, List.nil_append]
  refine ⟨ht, fun i hi => ?_⟩
  obtain ⟨rfl, hbare⟩ := (Option.ite_none_right_eq_some).1 hi
  obtain rfl := TypeRef.eq_of_bareIdent hbare
  refine ht.of_bareIdent fun u hu => ?_
  rw [hq.head hu]
  exact hb.1 rfl

theorem lays_entry (hp : p.Ready .any r 0 n) :
    Tracks .any n (entry type?) p fun e ts _ => e.Proper ∧ Fills e.slots ts := by
  rw [entry_eq]
  refine (tracks_consumeIf hp (by simp)).bind fun b ts q₁ h₁ hb => ?_
  rcases hb with ⟨rfl, hdots, rfl⟩ | ⟨rfl, rfl, rfl⟩
  · refine (lays_required hd (h₁.ready hp)).bind fun t ts q₂ _ ht => .pure ⟨.variadic t, ?_⟩
    have hmark : Fills [Slot.mark (.operator .ellipsis)] [p.peek] := ⟨_, .mark hdots .nil⟩
    simpa [Entry.slots] using hmark.append ht
  · refine (lays_typeOrName hd hp).bind ?_
    rintro ⟨t, ident?⟩ ts q₁ h₁ ⟨ht, hident⟩
    have hp₁ := h₁.ready hp
    cases ident? with
    | none => exact .pure ⟨.plain t, by simpa [Entry.slots] using ht⟩
    | some name =>
      have hname := hident name rfl
      refine tracks_peek.bind ?_
      rintro _ _ _ - ⟨rfl, rfl, rfl⟩
      split
      · exact .pure ⟨.lone name, by simpa [Entry.slots] using hname⟩
      · refine (tracks_consumeIf hp₁ (by simp)).bind fun b us q₂ h₂ hb => ?_
        have hdots : Fills (variadicSlots b) us := by
          rcases hb with ⟨rfl, hdots, rfl⟩ | ⟨rfl, rfl, -⟩
          · exact ⟨_, .mark hdots .nil⟩
          · exact .nil
        refine (lays_required hd (h₂.ready hp₁)).bind fun t' vs q₃ _ ht' =>
          .pure ⟨.named name b t', ?_⟩
        simpa [Entry.slots] using hname.append (hdots.append ht')

theorem lays_paramList (hp : p.Ready .any r 0 n) (namesRequired : Bool) :
    Tracks .any n (paramList type? namesRequired) p fun l ts _ => Fills [.part (.params l)] ts := by
  refine .deeper ((tracks_require hp.inside _ (by simp)).bind ?_)
  rintro _ _ q₁ h₁ ⟨rfl, hopen, rfl⟩
  have hp₁ := h₁.ready hp.inside
  refine (lays_commaList [.delimiter .comma] (fun q hq => lays_entry hd hq) (by simp) hp₁).bind ?_
  rintro es ts q₂ h₂ ⟨hproper, hes⟩
  refine (tracks_require (h₂.ready hp₁) _ (by simp)).bind ?_
  rintro _ _ q₃ - ⟨rfl, hclose, rfl⟩
  refine (tracks_params trivial fun e he => ⟨hproper e he, trivial⟩).bind ?_
  rintro ps _ q₄ - ⟨hsettles, rfl⟩
  refine .pure ?_
  obtain ⟨own, hps⟩ := hes.list_congr hsettles.written_alike
  simpa using Fills.closed (.mark hopen hps) hclose
    (Piece.layout_params (l := ⟨_, ps, q₂.peek.stop⟩) hsettles.inferred_written) rfl rfl

theorem lays_results (hp : p.Ready .any r 0 n) : Tracks .any n (results type?) p fun x ts _ =>
    Fills (x.toList.map (.part <| .params ·)) ts := by
  refine (tracks_peekIs _).bind ?_
  rintro b _ _ - ⟨-, rfl, rfl⟩
  cases b with
  | true => exact (lays_paramList hd hp false).map fun l ts q _ hl => hl
  | false =>
    refine (hd p hp).bind fun x ts q _ hx => .pure ?_
    rw [List.append_nil, List.nil_append]
    cases x with
    | some t => exact .same (.bare rfl) hx rfl rfl
    | none =>
      obtain rfl : ts = [] := hx
      exact .nil

theorem lays_signature (hp : p.Ready .any r 0 n) (namesRequired : Bool) :
    Tracks .any n (signature type? namesRequired) p fun x ts _ =>
      Fills [.part (.signature x)] ts := by
  refine .deeper ((lays_paramList hd hp.inside namesRequired).bind fun args ts q₁ h₁ hargs => ?_)
  refine (lays_results hd (h₁.ready hp.inside)).bind fun x us q₂ _ hx => .pure ?_
  rw [List.append_nil]
  cases x with
  | none =>
    obtain ⟨own, hx⟩ := hx
    rw [hx.eq_nil.1, List.append_nil]
    exact .same (.plain rfl) hargs rfl rfl
  | some l =>
    obtain ⟨own, hargs⟩ := hargs
    exact .upTo hargs hx (.plain rfl) hargs.spans.first rfl

theorem lays_fieldGroup (hp : p.Ready .any r 0 n) :
    Tracks .any n (fieldGroup type?) p fun f ts _ => Fills f.slots ts := by
  rw [fieldGroup_eq]
  refine (lays_typeOrName hd hp).bind ?_
  rintro ⟨t, ident?⟩ ts q₁ h₁ ⟨ht, hident⟩
  have hp₁ := h₁.ready hp
  refine tracks_peek.bind ?_
  rintro _ _ _ - ⟨rfl, rfl, rfl⟩
  dsimp only
  split
  · rename_i name _
    have hname := hident name rfl
    have hitem : ∀ q : Parser, q.Ready .any r 0 n → Tracks .any n (identifier .fieldName) q
        fun i ts _ => Fills [.part (.ident i)] ts := by
      intro q hq
      refine (tracks_identifier hq _).mono ?_
      rintro _ _ q' - ⟨rfl, hk, rfl⟩
      exact .ident hk
    refine (lays_openedList [.delimiter .comma] hitem (by simp) (by simp) hp₁).bind
      fun names us q₂ h₂ hnames => ?_
    have hp₂ := h₂.ready hp₁
    refine (lays_required hd hp₂).bind fun t' vs q₃ h₃ ht' => ?_
    refine (lays_tag (h₃.ready hp₂)).bind fun tag ws q₄ _ htag => .pure ?_
    have hall := (Fills.list_cons (f := fun i => [.part (.ident i)]) hname hnames).append
      (ht'.append htag)
    simpa [FieldGroup.slots] using hall
  · refine (lays_tag hp₁).bind fun tag us q₂ _ htag => .pure ?_
    have hnames : Fills (Slot.list (fun i => [.part (.ident i)]) [.delimiter .comma] []) [] :=
      .list_nil _
    simpa [FieldGroup.slots] using hnames.append (ht.append htag)

theorem lays_interfaceElem (hp : p.Ready .any r 0 n) :
    Tracks .any n (interfaceElem type?) p fun e ts _ => Fills e.slots ts := by
  refine (tracks_identifier hp _).bind ?_
  rintro _ _ q₁ h₁ ⟨rfl, hname, rfl⟩
  have hp₁ := h₁.ready hp
  refine (tracks_consumeIf hp₁ (by simp)).bind fun b ts q₂ h₂ hb => ?_
  rcases hb with ⟨rfl, hdot, rfl⟩ | ⟨rfl, rfl, rfl⟩
  · refine (tracks_identifier (h₂.ready hp₁) _).bind ?_
    rintro _ _ q₃ - ⟨rfl, hname', rfl⟩
    exact .pure (.qualified hname hdot hname')
  · refine (tracks_peekIs _).bind ?_
    rintro b _ _ - ⟨-, rfl, rfl⟩
    cases b with
    | true =>
      refine (lays_signature hd hp₁ false).bind fun x ts q₂ _ hx => .pure ?_
      simpa [InterfaceElem.slots] using (Fills.ident hname).append hx
    | false => exact .pure (.unqualified hname)

theorem lays_parenType (hp : p.Ready .any r 0 n) (hk : p.peek.kind = .delimiter .lparen) :
    Tracks .any n (parenType type?) p fun t ts _ => Fills [.part (.type t)] ts := by
  refine (tracks_advance hp (by simp [hk])).bind ?_
  rintro _ _ q₁ h₁ ⟨rfl, rfl⟩
  have hp₁ := h₁.ready hp
  refine (lays_required hd hp₁).bind fun t ts q₂ h₂ ht => ?_
  refine (tracks_require (h₂.ready hp₁) _ (by simp)).bind ?_
  rintro _ _ q₃ - ⟨rfl, hclose, rfl⟩
  exact .pure (by simpa using ht.group hk hclose)

theorem lays_bracketType (hp : p.Ready .any r 0 n) (hk : p.peek.kind = .delimiter .lbracket) :
    Tracks .any n (bracketType type?) p fun t ts _ => Fills [.part (.type t)] ts := by
  refine (tracks_advance hp (by simp [hk])).bind ?_
  rintro _ _ q₁ h₁ ⟨rfl, rfl⟩
  have hp₁ := h₁.ready hp
  refine (tracks_consumeIf hp₁ (by simp)).bind fun b ts q₂ h₂ hb => ?_
  rcases hb with ⟨rfl, hclose, rfl⟩ | ⟨rfl, rfl, rfl⟩
  · refine (lays_required hd (h₂.ready hp₁)).bind fun t ts q₃ _ ht => .pure ?_
    simpa using Fills.upTo (.mark hk (.mark hclose .nil)) ht
      (.plain (p := .type (.slice _ t)) rfl) rfl rfl
  · refine (tracks_consumeIf hp₁ (by simp)).bind fun b ts q₂ h₂ hb => ?_
    rcases hb with ⟨rfl, hdots, rfl⟩ | ⟨rfl, rfl, rfl⟩
    · have hp₂ := h₂.ready hp₁
      refine (tracks_require hp₂ _ (by simp)).bind ?_
      rintro _ _ q₃ h₃ ⟨rfl, hclose, rfl⟩
      refine (lays_required hd (h₃.ready hp₂)).bind fun t ts q₄ _ ht => .pure ?_
      simpa using Fills.upTo (.mark hk (.mark hdots (.mark hclose .nil))) ht
        (.plain (p := .type (.ellipsisArray _ t)) rfl) rfl rfl
    · refine (lays_expr hp₁).bind ?_
      rintro length ts q₂ h₂ ⟨own, hlength⟩
      have hp₂ := h₂.ready hp₁
      refine (tracks_require hp₂ _ (by simp)).bind ?_
      rintro _ _ q₃ h₃ ⟨rfl, hclose, rfl⟩
      refine (lays_required hd (h₃.ready hp₂)).bind fun t us q₄ _ ht => .pure ?_
      have hbrackets := Laid.mark hk (hlength.append (.mark hclose .nil))
      simpa using Fills.upTo hbrackets ht (.plain (p := .type (.array _ length t)) rfl) rfl rfl

theorem lays_mapType (hp : p.Ready .any r 0 n) (hk : p.peek.kind = .keyword .mapKw) :
    Tracks .any n (mapType type?) p fun t ts _ => Fills [.part (.type t)] ts := by
  refine (tracks_advance hp (by simp [hk])).bind ?_
  rintro _ _ q₁ h₁ ⟨rfl, rfl⟩
  have hp₁ := h₁.ready hp
  refine (tracks_require hp₁ _ (by simp)).bind ?_
  rintro _ _ q₂ h₂ ⟨rfl, hopen, rfl⟩
  have hp₂ := h₂.ready hp₁
  refine (lays_required hd hp₂).bind ?_
  rintro key ts q₃ h₃ ⟨own, hkey⟩
  have hp₃ := h₃.ready hp₂
  refine (tracks_require hp₃ _ (by simp)).bind ?_
  rintro _ _ q₄ h₄ ⟨rfl, hclose, rfl⟩
  refine (lays_required hd (h₄.ready hp₃)).bind fun t us q₅ _ ht => .pure ?_
  have hbrackets := Laid.mark hk (.mark hopen (hkey.append (.mark hclose .nil)))
  simpa using Fills.upTo hbrackets ht (.plain (p := .type (.map _ key t)) rfl) rfl rfl

theorem lays_chanType (hp : p.Ready .any r 0 n)
    (hk : p.peek.kind = .keyword .chanKw ∨ p.peek.kind = .operator .chan) :
    Tracks .any n (chanType type?) p fun t ts _ => Fills [.part (.type t)] ts := by
  have hend : p.peek.kind ≠ .endOfFile := by
    rcases hk with hk | hk <;> simp [hk]
  refine (tracks_advance hp hend).bind ?_
  rintro _ _ q₁ h₁ ⟨rfl, rfl⟩
  have hp₁ := h₁.ready hp
  refine (lays_chanDir hp₁ hk).bind fun dir ts q₂ h₂ hdir => ?_
  refine (lays_required hd (h₂.ready hp₁)).bind fun t us q₃ _ ht => .pure ?_
  simpa using Fills.upTo hdir ht (.plain (p := .type (.chan _ dir t)) rfl) rfl rfl

theorem lays_typeBody (hp : p.Ready .any r 0 n) : Tracks .any n (typeBody type?) p fun x ts _ =>
    match x with
    | some t => Fills [.part (.type t)] ts
    | none => ts = [] := by
  refine tracks_peek.bind ?_
  rintro _ _ _ - ⟨rfl, rfl, rfl⟩
  split
  · rename_i hk
    exact (lays_parenType hd hp hk).map fun t ts q _ ht => ht
  · exact (lays_namedType hp).map fun x ts q _ hx => .same (.plain rfl) hx rfl rfl
  · rename_i hk
    exact (lays_bracketType hd hp hk).map fun t ts q _ ht => ht
  · rename_i hk
    refine (tracks_advance hp (by simp [hk])).bind ?_
    rintro _ _ q₁ h₁ ⟨rfl, rfl⟩
    refine Tracks.map (.deeper ?_) fun t ts q _ ht => ht
    refine (lays_members (fun q hq => lays_fieldGroup hd hq) (h₁.ready hp).inside .structBrace
      .fieldEnd .structEnd (.struct p.peek.pos)).mono ?_
    rintro _ _ q - ⟨fields, us, own, closing, rfl, rfl, hclose, hfields⟩
    exact .closed (.mark hk hfields) hclose (.plain rfl) rfl rfl
  · rename_i hk
    refine (tracks_advance hp (by simp [hk])).bind ?_
    rintro _ _ q₁ h₁ ⟨rfl, rfl⟩
    refine (lays_required hd (h₁.ready hp)).map fun t ts q _ ht => ?_
    simpa using Fills.upTo (.mark hk .nil) ht (.plain (p := .type (.pointer _ t)) rfl) rfl rfl
  · rename_i hk
    refine (tracks_advance hp (by simp [hk])).bind ?_
    rintro _ _ q₁ h₁ ⟨rfl, rfl⟩
    refine (lays_signature hd (h₁.ready hp) false).map fun x ts q _ hx => ?_
    simpa using Fills.upTo (.mark hk .nil) hx (.plain (p := .type (.func _ x)) rfl) rfl rfl
  · rename_i hk
    refine (tracks_advance hp (by simp [hk])).bind ?_
    rintro _ _ q₁ h₁ ⟨rfl, rfl⟩
    refine Tracks.map (.deeper ?_) fun t ts q _ ht => ht
    refine (lays_members (fun q hq => lays_interfaceElem hd hq) (h₁.ready hp).inside
      .interfaceBrace .elementEnd .interfaceEnd (.interface p.peek.pos)).mono ?_
    rintro _ _ q - ⟨elems, us, own, closing, rfl, rfl, hclose, helems⟩
    exact .closed (.mark hk helems) hclose (.plain rfl) rfl rfl
  · rename_i hk
    exact (lays_mapType hd hp hk).map fun t ts q _ ht => ht
  · rename_i hk
    exact (lays_chanType hd hp (.inl hk)).map fun t ts q _ ht => ht
  · rename_i hk
    exact (lays_chanType hd hp (.inr hk)).map fun t ts q _ ht => ht
  · exact .pure rfl

end Rules

theorem lays_typeRule (room : Nat) : LaysType r n (typeRule room) := by
  induction room with
  | zero => exact fun _ _ => tracks_of_ok fun _ _ h => by cases h
  | succ room ih => exact fun p hp => .deeper (lays_typeBody ih hp.inside)

theorem lays_type : LaysType r n type? := fun p hp => lays_typeRule p.room p hp

end Parse
end GoSyntax
