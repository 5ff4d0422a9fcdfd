import GoSyntax.Proofs.Grammar.ExprYield
import GoSyntax.Proofs.Grammar.TypeSound
import GoSyntax.Proofs.Tree.Derives

/-! The words that the rules for types take derive the type that they give. -/
namespace GoSyntax

namespace Derives

variable {ws : List Word}

theorem opens_name (n : NamedType) :
    ∃ w vs, nameWords n = w :: vs ∧ Parse.opensType w.kind = true := by
  obtain ⟨w, vs, hw, hk⟩ := nameWords_eq n
  exact ⟨w, vs, hw, by rw [hk]; rfl⟩

theorem opens {t : TypeRef} (h : Derives (.type t) ws) :
    ∃ w vs, ws = w :: vs ∧ Parse.opensType w.kind = true := by
  cases h with
  | named n => exact opens_name n
  | _ => exact ⟨_, _, rfl, rfl⟩

theorem opens_field {f : FieldGroup} (h : Derives (.field f) ws) :
    ∃ w vs, ws = w :: vs ∧ Parse.opensType w.kind = true := by
  cases h with
  | namedField name names _ _ => exact ⟨_, _, rfl, rfl⟩
  | embeddedField h _ =>
    obtain ⟨w, vs, rfl, hw⟩ := h.opens
    exact ⟨w, _, rfl, hw⟩

theorem opens_elem {e : InterfaceElem} (h : Derives (.elem e) ws) :
    ∃ w vs, ws = w :: vs ∧ Parse.opensType w.kind = true := by
  cases h with
  | method name _ => exact ⟨_, _, rfl, rfl⟩
  | embeddedElem n => exact opens_name n

end Derives

namespace Parse

open GoSyntax.Parser

/-- No member of a type in braces opens with a closing bracket. -/
theorem ne_closing {w : Word} (h : opensType w.kind = true) :
    w.kind ≠ .delimiter .rparen ∧ w.kind ≠ .delimiter .rbrace := by
  constructor <;> intro hk <;> rw [hk] at h <;> cases h

/-- The rule takes the words of the type that it finds, and none if it finds no type. -/
def Derived (type? : Parse (Option TypeRef)) : Prop :=
  ∀ p : Parser, p.Good → Takes type? p fun o ws _ =>
    match o with
    | some t => Derives (.type t) ws
    | none => ws = []

section Rules

variable {type? : Parse (Option TypeRef)} (hd : Derived type?) {p : Parser}

include hd

theorem takes_requiredType (hp : p.Good) :
    Takes (required type?) p fun t ws _ => Derives (.type t) ws := by
  refine (hd p hp).bind fun o ws q _ ho => ?_
  cases o with
  | some t => exact .pure (by simpa using ho)
  | none => exact takes_unexpected _

/-- The identifier that is given is all that was taken, and if none is given it was not one. -/
theorem takes_typeOrName (hp : p.Good) : Takes (typeOrName type?) p fun x ws _ =>
    Derives (.type x.1) ws ∧
      match x.2 with
      | some i => ws = [.identifier i.name]
      | none => ∀ name, ws ≠ [.identifier name] := by
  refine (takes_peekIs .identifier).bind ?_
  rintro b _ _ - ⟨hb, rfl, rfl⟩
  refine (takes_requiredType hd hp).bind fun t ws q hq ht => .pure ?_
  rw [List.append_nil, List.nil_append]
  refine ⟨ht, ?_⟩
  -- The token in view at the start is the first of the type's words.
  have hkind : ∀ w vs, ws = w :: vs → w.kind = p.peek.kind := by
    rintro w vs rfl
    rw [hq.head, kind_word]
  cases hi : if b = true then t.bareIdent? else none with
  | some i =>
    obtain ⟨rfl, hbare⟩ := (Option.ite_none_right_eq_some).1 hi
    obtain ⟨w, vs, rfl, -⟩ := ht.opens
    obtain ⟨n, rfl, hwords⟩ := ht.of_identifier ((hkind w vs rfl).trans (hb.1 rfl))
    obtain ⟨package, name⟩ := n
    cases package with
    | some package => cases hbare
    | none =>
      cases hbare
      exact hwords
  | none =>
    rintro name rfl
    obtain ⟨n, rfl, hwords⟩ := ht.of_identifier rfl
    obtain rfl := hb.2 (hkind _ _ rfl).symm
    obtain ⟨package, name'⟩ := n
    cases package with
    | some package => simp [nameWords] at hwords
    | none => cases hi

theorem takes_entry (hp : p.Good) : Takes (entry type?) p fun e ws _ => Derives (.entry e) ws := by
  rw [entry_eq]
  refine (takes_consumeIf hp rfl).bind fun b ws q₁ h₁ hb => ?_
  rcases hb with ⟨rfl, rfl⟩ | ⟨rfl, -, rfl, rfl⟩
  · refine (takes_requiredType hd (h₁.good hp)).bind fun t ws q₂ _ ht => .pure ?_
    simpa using Derives.variadic ht
  · refine (takes_typeOrName hd hp).bind ?_
    rintro ⟨t, ident?⟩ ws q₁ h₁ ⟨ht, hi⟩
    cases ident? with
    | none => exact .pure (by simpa using Derives.plain ht hi)
    | some name =>
      obtain rfl : ws = _ := hi
      refine takes_peek.bind ?_
      rintro _ _ _ - ⟨rfl, rfl, rfl⟩
      split
      · exact .pure (.bare name)
      · refine (takes_consumeIf (h₁.good hp) rfl).bind fun b ws q₂ h₂ hb => ?_
        refine (takes_requiredType hd (h₂.good (h₁.good hp))).bind fun t' ws' q₃ _ ht' => .pure ?_
        rcases hb with ⟨rfl, rfl⟩ | ⟨rfl, -, rfl, rfl⟩
        · simpa using Derives.namedVariadic name ht'
        · simpa using Derives.namedEntry name ht'

omit hd in
theorem takes_params {start : Position} {namesRequired : Bool} {es : List Entry}
    (hes : ∀ e ∈ es, e.Proper) : Takes (params start namesRequired es) p fun ps ws _ =>
      Entry.Settles namesRequired es ps ∧ ws = [] := by
  intro ps q h
  obtain ⟨hsettles, log, rfl⟩ := Entry.settles_of_params hes h
  exact ⟨[], ⟨[], rfl, rfl⟩, hsettles, rfl⟩

theorem takes_list (hp : p.Good) (namesRequired : Bool) :
    Takes (paramList type? namesRequired) p fun l ws _ =>
      ∃ entries, ListDerives namesRequired entries l ws := by
  refine .nested ?_
  have hp' : p.enter.Good := hp.enter
  refine (takes_fixed hp' _ rfl).bind ?_
  rintro opening _ q₁ h₁ rfl
  have hp₁ := h₁.good hp'
  refine (Takes.commaList hp₁ fun q hq => takes_entry hd hq).bind ?_
  rintro _ ws q₂ h₂ ⟨pairs, rfl, hpairs, hsep⟩
  refine (takes_fixed (h₂.good hp₁) _ rfl).bind ?_
  rintro closing _ q₃ - rfl
  have hproper : ∀ e ∈ pairs.map Prod.fst, e.Proper :=
    List.forall_mem_map.2 fun pair hpair => (hpairs pair hpair).proper
  refine (takes_params hproper).bind ?_
  rintro ps _ q₄ - ⟨hsettles, rfl⟩
  exact .pure ⟨pairs, hpairs, hsettles, ws, hsep, by simp⟩

theorem takes_paramList (hp : p.Good) :
    Takes (paramList type? false) p fun l ws _ => Derives (.params l) ws := by
  refine (takes_list hd hp false).mono ?_
  rintro l ws q - ⟨entries, h⟩
  exact h.derives

theorem takes_results (hp : p.Good) :
    Takes (results type?) p fun o ws _ => Derives (.results o) ws := by
  refine (takes_peekIs _).bind ?_
  rintro b _ _ - ⟨-, rfl, rfl⟩
  cases b with
  | true => exact (takes_paramList hd hp).map fun l ws q _ hl => .listResult hl
  | false =>
    refine (hd p hp).bind fun o ws q _ ho => .pure ?_
    rw [List.append_nil, List.nil_append]
    cases o with
    | some t => exact .bareResult _ _ ho
    | none =>
      obtain rfl : ws = [] := ho
      exact .noResult

theorem takes_listAndResults (hp : p.Good) (namesRequired : Bool) :
    Takes (signature type? namesRequired) p fun x ws _ => ∃ entries vs us,
      ListDerives namesRequired entries x.args vs ∧ Derives (.results x.results) us ∧
        ws = vs ++ us := by
  refine .nested ?_
  have hp' : p.enter.Good := hp.enter
  refine (takes_list hd hp' namesRequired).bind ?_
  rintro args vs q₁ h₁ ⟨entries, hargs⟩
  refine (takes_results hd (h₁.good hp')).bind fun o us q₂ _ ho => .pure ?_
  exact ⟨entries, vs, us, hargs, ho, by simp⟩

theorem takes_signature (hp : p.Good) :
    Takes (signature type? false) p fun x ws _ => Derives (.signature x) ws := by
  refine (takes_listAndResults hd hp false).mono ?_
  rintro ⟨args, results⟩ _ q - ⟨entries, vs, us, hargs, hresults, rfl⟩
  exact .signature hargs.derives hresults

omit hd in
theorem takes_namedType (hp : p.Good) : Takes namedType p fun n ws _ => ws = nameWords n := by
  refine (takes_identifier hp _).bind ?_
  rintro first _ q₁ h₁ ⟨-, rfl⟩
  refine (takes_consumeIf (h₁.good hp) rfl).bind fun b ws q₂ h₂ hb => ?_
  rcases hb with ⟨rfl, rfl⟩ | ⟨rfl, -, rfl, rfl⟩
  · refine (takes_identifier (h₂.good (h₁.good hp)) _).bind ?_
    rintro name _ q₃ - ⟨-, rfl⟩
    exact .pure rfl
  · exact .pure rfl

omit hd in
theorem takes_tag (hp : p.Good) : Takes tag? p fun o ws _ => TagWords o ws := by
  refine takes_peek.bind ?_
  rintro _ _ _ - ⟨rfl, rfl, rfl⟩
  split
  · rename_i hk
    obtain ⟨form, hform⟩ : ∃ form, p.peek.kind = .literal form := by
      cases hkind : p.peek.kind with
      | literal form => exact ⟨form, rfl⟩
      | _ => rw [hkind] at hk; cases hk
    refine Takes.map (Q := fun x ws _ => TagWords (some x) ws) ?_ fun x ws q _ hx => hx
    refine (takes_advance hp (by simp [hform])).bind ?_
    rintro _ _ q - ⟨rfl, rfl⟩
    unfold stringLit
    split
    · rename_i x hvalue
      refine .pure ?_
      have hword : p.peek.word = stringWord form ⟨p.peek.pos, p.peek.text, x⟩ := by
        rw [Token.word_of_ne (by simp [hform]), hform, hvalue]
        rfl
      rw [hword]
      exact .some (by rwa [hform] at hk)
    · rintro _ _ ⟨⟩
  · exact .pure .none

theorem takes_fieldGroup (hp : p.Good) :
    Takes (fieldGroup type?) p fun f ws _ => Derives (.field f) ws := by
  rw [fieldGroup_eq]
  refine (takes_typeOrName hd hp).bind ?_
  rintro ⟨t, ident?⟩ ws q₁ h₁ ⟨ht, hi⟩
  have hp₁ := h₁.good hp
  refine takes_peek.bind ?_
  rintro _ _ _ - ⟨rfl, rfl, rfl⟩
  dsimp only
  split
  · rename_i name _
    obtain rfl : ws = _ := hi
    refine (Takes.openedList (f := fun i : Ident => [.identifier i.name]) hp₁ rfl
      fun q hq => (takes_identifier hq _).mono fun i vs q' _ hi => hi.2).bind ?_
    rintro names _ q₂ h₂ rfl
    have hp₂ := h₂.good hp₁
    refine (takes_requiredType hd hp₂).bind fun t' vs q₃ h₃ ht' => ?_
    refine (takes_tag (h₃.good hp₂)).bind fun tag ts q₄ _ htag => .pure ?_
    simpa [moreNames] using Derives.namedField name names ht' htag
  · refine (takes_tag hp₁).bind fun tag ts q₂ _ htag => .pure ?_
    simpa using Derives.embeddedField ht htag

theorem takes_interfaceElem (hp : p.Good) :
    Takes (interfaceElem type?) p fun e ws _ => Derives (.elem e) ws := by
  refine (takes_identifier hp _).bind ?_
  rintro name _ q₁ h₁ ⟨-, rfl⟩
  have hp₁ := h₁.good hp
  refine (takes_consumeIf hp₁ rfl).bind fun b ws q₂ h₂ hb => ?_
  rcases hb with ⟨rfl, rfl⟩ | ⟨rfl, -, rfl, rfl⟩
  · refine (takes_identifier (h₂.good hp₁) _).bind ?_
    rintro name' _ q₃ - ⟨-, rfl⟩
    exact .pure (.embeddedElem ⟨some name, name'⟩)
  · refine (takes_peekIs _).bind ?_
    rintro b _ _ - ⟨-, rfl, rfl⟩
    cases b with
    | true =>
      refine (takes_signature hd hp₁).bind fun x ws q₂ _ hx => .pure ?_
      simpa using Derives.method name hx
    | false => exact .pure (.embeddedElem ⟨none, name⟩)

omit hd in
/-- Members in braces are taken one by one. -/
theorem takes_members {α : Type} {item : Parse α} {P : α → List Word → Prop} (hp : p.Good)
    (hitem : ∀ q : Parser, q.Good → Takes item q fun a ws _ => P a ws)
    (hopens : ∀ a ws, P a ws → ∃ w vs, ws = w :: vs ∧ opensType w.kind = true)
    (wanted wanted' wanted'' : Expected) (f : List α → Position → TypeRef) :
    Takes (do
      let _ ← require wanted [.delimiter .lbrace]
      let l ← termList (.delimiter .rbrace) wanted' item
      let closing ← require wanted'' [.delimiter .rbrace]
      return f l closing.stop) p fun t ws _ => ∃ (pairs : List (α × List Word)) (us : List Word)
        (stop : Position), t = f (pairs.map Prod.fst) stop ∧ (∀ i ∈ pairs, P i.1 i.2) ∧
          Separated (.delimiter .semicolon) (pairs.map Prod.snd) us ∧
          ws = .delimiter .lbrace :: (us ++ [.delimiter .rbrace]) := by
  refine (takes_fixed hp _ rfl).bind ?_
  rintro _ _ q₁ h₁ rfl
  have hp₁ := h₁.good hp
  refine (Takes.termList hp₁ hitem fun a ws ha => ?_).bind ?_
  · obtain ⟨w, vs, rfl, hw⟩ := hopens a ws ha
    exact ⟨w, vs, rfl, ne_closing hw⟩
  · rintro _ us q₂ h₂ ⟨pairs, rfl, hpairs, hsep⟩
    refine (takes_fixed (h₂.good hp₁) _ rfl).bind ?_
    rintro closing _ q₃ - rfl
    exact .pure ⟨pairs, us, closing.stop, rfl, hpairs, hsep, by simp⟩

theorem takes_structBody (hp : p.Good) (start : Position) :
    Takes (structBody type? start) p fun t ws _ =>
      Derives (.type t) (.keyword .structKw :: ws) := by
  refine (takes_members hp (fun q hq => takes_fieldGroup hd hq) (fun _ _ => Derives.opens_field)
    .structBrace .fieldEnd .structEnd (.struct start)).mono ?_
  rintro _ _ q - ⟨pairs, us, stop, rfl, hpairs, hsep, rfl⟩
  exact .struct start stop hpairs hsep

theorem takes_interfaceBody (hp : p.Good) (start : Position) :
    Takes (interfaceBody type? start) p fun t ws _ =>
      Derives (.type t) (.keyword .interfaceKw :: ws) := by
  refine (takes_members hp (fun q hq => takes_interfaceElem hd hq) (fun _ _ => Derives.opens_elem)
    .interfaceBrace .elementEnd .interfaceEnd (.interface start)).mono ?_
  rintro _ _ q - ⟨pairs, us, stop, rfl, hpairs, hsep, rfl⟩
  exact .interface start stop hpairs hsep

theorem takes_parenType (hp : p.Good) (hk : p.peek.kind = .delimiter .lparen) :
    Takes (parenType type?) p fun t ws _ => Derives (.type t) ws := by
  refine (takes_advance_fixed hp hk rfl).bind ?_
  rintro _ _ q₁ h₁ ⟨-, rfl⟩
  have hp₁ := h₁.good hp
  refine (takes_requiredType hd hp₁).bind fun t ws q₂ h₂ ht => ?_
  refine (takes_fixed (h₂.good hp₁) _ rfl).bind ?_
  rintro _ _ q₃ - rfl
  exact .pure (by simpa using ht.paren)

theorem takes_bracketType (hp : p.Good) (hk : p.peek.kind = .delimiter .lbracket) :
    Takes (bracketType type?) p fun t ws _ => Derives (.type t) ws := by
  refine (takes_advance_fixed hp hk rfl).bind ?_
  rintro opening _ q₁ h₁ ⟨-, rfl⟩
  have hp₁ := h₁.good hp
  refine (takes_consumeIf hp₁ rfl).bind fun b ws q₂ h₂ hb => ?_
  rcases hb with ⟨rfl, rfl⟩ | ⟨rfl, -, rfl, rfl⟩
  · refine (takes_requiredType hd (h₂.good hp₁)).bind fun t ws q₃ _ ht => .pure ?_
    simpa using Derives.slice opening.pos ht
  · refine (takes_consumeIf hp₁ rfl).bind fun b ws q₂ h₂ hb => ?_
    rcases hb with ⟨rfl, rfl⟩ | ⟨rfl, -, rfl, rfl⟩
    · have hp₂ := h₂.good hp₁
      refine (takes_fixed hp₂ _ rfl).bind ?_
      rintro _ _ q₃ h₃ rfl
      refine (takes_requiredType hd (h₃.good hp₂)).bind fun t ws q₄ _ ht => .pure ?_
      simpa using Derives.ellipsisArray opening.pos ht
    · refine (takes_canonical hp₁).bind ?_
      rintro length ws q₂ h₂ ⟨hcanonical, hyield⟩
      have hp₂ := h₂.good hp₁
      refine (takes_fixed hp₂ _ rfl).bind ?_
      rintro _ _ q₃ h₃ rfl
      refine (takes_requiredType hd (h₃.good hp₂)).bind fun t ws q₄ _ ht => .pure ?_
      simpa using Derives.array opening.pos hcanonical hyield ht

theorem takes_mapType (hp : p.Good) (hk : p.peek.kind = .keyword .mapKw) :
    Takes (mapType type?) p fun t ws _ => Derives (.type t) ws := by
  refine (takes_advance_fixed hp hk rfl).bind ?_
  rintro opening _ q₁ h₁ ⟨-, rfl⟩
  have hp₁ := h₁.good hp
  refine (takes_fixed hp₁ _ rfl).bind ?_
  rintro _ _ q₂ h₂ rfl
  have hp₂ := h₂.good hp₁
  refine (takes_requiredType hd hp₂).bind fun key vs q₃ h₃ hkey => ?_
  have hp₃ := h₃.good hp₂
  refine (takes_fixed hp₃ _ rfl).bind ?_
  rintro _ _ q₄ h₄ rfl
  refine (takes_requiredType hd (h₄.good hp₃)).bind fun t ws q₅ _ ht => .pure ?_
  simpa using Derives.map opening.pos hkey ht

omit hd in
/-- What tells the direction of a channel: an arrow before or behind the keyword, or none. -/
theorem takes_chanDir {opening : Token} (hp : p.Good) : Takes (chanDir opening) p fun dir ws q =>
    if opening.kind = .operator .chan then dir = .recv ∧ ws = [.keyword .chanKw]
    else dir = .send ∧ ws = [.operator .chan] ∨
      dir = .both ∧ ws = [] ∧ q.peek.kind ≠ .operator .chan := by
  unfold chanDir
  split
  · refine (takes_fixed hp _ rfl).bind ?_
    rintro _ _ q - rfl
    exact .pure ⟨rfl, rfl⟩
  · refine (takes_consumeIf hp rfl).bind fun b ws q _ hb => ?_
    rcases hb with ⟨rfl, rfl⟩ | ⟨rfl, hne, rfl, rfl⟩
    · exact .pure (.inl ⟨rfl, rfl⟩)
    · exact .pure (.inr ⟨rfl, rfl, hne⟩)

theorem takes_chanType (hp : p.Good)
    (hk : p.peek.kind = .keyword .chanKw ∨ p.peek.kind = .operator .chan) :
    Takes (chanType type?) p fun t ws _ => Derives (.type t) ws := by
  have hfixed : p.peek.kind.isFixed = true := by
    rcases hk with hk | hk <;> rw [hk] <;> rfl
  refine (takes_advance_fixed hp rfl hfixed).bind ?_
  rintro _ _ q₁ h₁ ⟨rfl, rfl⟩
  have hp₁ := h₁.good hp
  refine (takes_chanDir hp₁).bind fun dir vs q₂ h₂ hdir => ?_
  refine (takes_requiredType hd (h₂.good hp₁)).bind fun t ws q₃ h₃ ht => .pure ?_
  rcases hk with hk | hk
  · rw [if_neg (by simp [hk])] at hdir
    rcases hdir with ⟨rfl, rfl⟩ | ⟨rfl, rfl, hne⟩
    · simpa [hk] using Derives.chanSend p.peek.pos ht
    · -- The first word of the element is the one that was in view and is no arrow.
      have hw : ∀ w ∈ ws.head?, w.kind ≠ .operator .chan := by
        intro w hw
        obtain ⟨v, vs, rfl, -⟩ := ht.opens
        cases hw
        rwa [h₃.head, kind_word]
      simpa [hk] using Derives.chanBoth p.peek.pos ht hw
  · rw [if_pos hk] at hdir
    obtain ⟨rfl, rfl⟩ := hdir
    simpa [hk] using Derives.chanRecv p.peek.pos ht

theorem takes_typeBody (hp : p.Good) : Takes (typeBody type?) p fun o ws _ =>
    match o with
    | some t => Derives (.type t) ws
    | none => ws = [] := by
  refine takes_peek.bind ?_
  rintro _ _ _ - ⟨rfl, rfl, rfl⟩
  split
  · rename_i hk
    exact (takes_parenType hd hp hk).map fun t ws q _ ht => ht
  · refine (takes_namedType hp).map ?_
    rintro n _ q - rfl
    exact .named n
  · rename_i hk
    exact (takes_bracketType hd hp hk).map fun t ws q _ ht => ht
  · rename_i hk
    refine (takes_advance_fixed hp hk rfl).bind ?_
    rintro opening _ q₁ h₁ ⟨-, rfl⟩
    exact Takes.map (.nested (takes_structBody hd (h₁.good hp).enter opening.pos))
      fun t ws q _ ht => ht
  · rename_i hk
    refine (takes_advance_fixed hp hk rfl).bind ?_
    rintro opening _ q₁ h₁ ⟨-, rfl⟩
    exact (takes_requiredType hd (h₁.good hp)).map fun t ws q _ ht => .pointer opening.pos ht
  · rename_i hk
    refine (takes_advance_fixed hp hk rfl).bind ?_
    rintro opening _ q₁ h₁ ⟨-, rfl⟩
    exact (takes_signature hd (h₁.good hp)).map fun x ws q _ hx => .func opening.pos hx
  · rename_i hk
    refine (takes_advance_fixed hp hk rfl).bind ?_
    rintro opening _ q₁ h₁ ⟨-, rfl⟩
    exact Takes.map (.nested (takes_interfaceBody hd (h₁.good hp).enter opening.pos))
      fun t ws q _ ht => ht
  · rename_i hk
    exact (takes_mapType hd hp hk).map fun t ws q _ ht => ht
  · rename_i hk
    exact (takes_chanType hd hp (.inl hk)).map fun t ws q _ ht => ht
  · rename_i hk
    exact (takes_chanType hd hp (.inr hk)).map fun t ws q _ ht => ht
  · exact .pure rfl

end Rules

theorem derived_typeRule (room : Nat) : Derived (typeRule room) := by
  induction room with
  | zero => exact fun _ _ => takes_tooDeep
  | succ room ih => exact fun p hp => .nested (takes_typeBody ih hp.enter)

theorem derived_type : Derived type? := fun p hp => derived_typeRule p.room p hp

theorem takes_type {p : Parser} (hp : p.Good) : Takes type p fun t ws _ => Derives (.type t) ws :=
  takes_requiredType derived_type hp

end Parse
end GoSyntax
