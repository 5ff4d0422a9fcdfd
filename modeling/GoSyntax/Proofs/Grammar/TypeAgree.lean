import GoSyntax.Proofs.Grammar.Agree
import GoSyntax.Proofs.Grammar.ParamsGives

/-! Expressions, parameters and types are read alike where tokens of the same shapes come. -/
namespace GoSyntax
namespace Parse
namespace Expr

variable {deeper : Goal → Parse Expr}

theorem agree_operand (hd : ∀ goal, Agree Expr.erase (deeper goal) (deeper goal)) :
    Agree Expr.erase (operand deeper) (operand deeper) := by
  refine .look fun t u h => ?_
  rw [← Token.kind_of_shape h]
  split
  · exact ((agree_identifier _).map fun i j hij => by simp only [Expr.erase, hij]).at
  · refine Agree.at (agree_advance.bind fun _ _ _ => (hd _).bind fun a b hab => ?_)
    exact (agree_require _ _).bind fun _ _ _ => .pure (by simp only [Expr.erase, hab])
  · rename_i form hk
    refine .advance ?_
    rw [← Token.value_of_shape h, ← Token.text_of_shape h (by simp [hk])]
    split
    · exact .pure rfl
    · exact agree_failAt rfl _ _
  · exact (agree_unexpected _).at

theorem agree_postfixStep (hd : ∀ goal, Agree Expr.erase (deeper goal) (deeper goal)) {e e' : Expr}
    (he : e.erase = e'.erase) :
    Agree (stepShape Expr.erase) (postfixStep deeper e) (postfixStep deeper e') := by
  refine (agree_consumeIf _).ite ?_ ((agree_consumeIf _).ite ?_ ?_)
  · exact (agree_identifier _).bind fun i j hij => .pure (by simp only [stepShape, Expr.erase, he, hij])
  · refine ((hd _).commaList _).bind fun as bs hs => (agree_require _ _).bind fun _ _ _ => .pure ?_
    simp only [stepShape, Expr.erase, Expr.eraseAll_eq_map, he, hs]
  · exact .pure (by simp only [stepShape, he])

theorem agree_primary (hd : ∀ goal, Agree Expr.erase (deeper goal) (deeper goal)) :
    Agree Expr.erase (primary deeper) (primary deeper) := by
  refine Agree.nested ((agree_operand hd).bind fun e e' he => ?_)
  exact .loop (fun _ _ h => agree_postfixStep hd h) he

theorem agree_unaryRule (hd : ∀ goal, Agree Expr.erase (deeper goal) (deeper goal)) :
    Agree Expr.erase (unaryRule deeper) (unaryRule deeper) := by
  refine agree_peek.bind fun t u h => ?_
  rw [← Token.kind_of_shape h]
  split
  · split
    · refine agree_advance.bind fun _ _ _ => (hd _).bind fun e e' he => .pure ?_
      simp only [Expr.erase, he]
    · exact agree_primary hd
  · exact agree_primary hd

theorem agree_operatorInView (least : Nat) :
    Agree id (operatorInView? least) (operatorInView? least) := by
  refine agree_peek.bind fun t u h => ?_
  rw [← Token.kind_of_shape h]
  split
  · exact .pure rfl
  · exact .pure rfl

theorem agree_binaryStep (hd : ∀ goal, Agree Expr.erase (deeper goal) (deeper goal)) (least : Nat)
    {e e' : Expr} (he : e.erase = e'.erase) :
    Agree (stepShape Expr.erase) (binaryStep deeper least e) (binaryStep deeper least e') := by
  refine (agree_operatorInView least).bind fun o o' ho => ?_
  obtain rfl : o = o' := ho
  split
  · refine agree_advance.bind fun _ _ _ => (hd _).bind fun r r' hr => .pure ?_
    simp only [stepShape, Expr.erase, he, hr]
  · exact .pure (by simp only [stepShape, he])

theorem agree_binaryRule (hd : ∀ goal, Agree Expr.erase (deeper goal) (deeper goal)) (least : Nat) :
    Agree Expr.erase (binaryRule deeper least) (binaryRule deeper least) :=
  (agree_unaryRule hd).bind fun _ _ he => .loop (fun _ _ h => agree_binaryStep hd least h) he

theorem agree_rule (room : Nat) (goal : Goal) :
    Agree Expr.erase (rule room goal) (rule room goal) := by
  induction room generalizing goal with
  | zero => exact agree_tooDeep
  | succ room ih =>
    cases goal with
    | binary least => exact (agree_binaryRule ih least).nested
    | unary => exact (agree_unaryRule ih).nested

end Expr

theorem agree_expr : Agree Expr.erase expr expr := by
  intro p q hp
  unfold expr
  rw [Parser.room, hp.limit, hp.depth]
  exact Expr.agree_rule _ _ p q hp

theorem bareIdent_congr {t u : TypeRef} (h : t.erase = u.erase) :
    t.bareIdent?.map Ident.erase = u.bareIdent?.map Ident.erase := by
  rw [← TypeRef.bareIdent_erase, h, TypeRef.bareIdent_erase]

/-- What is left of a type and the identifier that it may consist of. -/
def identShape (x : TypeRef × Option Ident) : TypeRef × Option Ident :=
  (x.1.erase, x.2.map Ident.erase)

/-- Parameters, and the type that an entry further left would take, without positions. -/
def carriedShape (x : List Param × Option TypeRef) : List Param × Option TypeRef :=
  (x.1.map Param.erase, x.2.map TypeRef.erase)

theorem agree_extractIdent (defect : Defect) {t u : TypeRef} (h : t.erase = u.erase) :
    Agree Ident.erase (extractIdent defect t) (extractIdent defect u) := by
  have hbare := bareIdent_congr h
  unfold extractIdent
  cases ht : t.bareIdent? with
  | none =>
    have hu : u.bareIdent? = none := by simpa [ht] using hbare.symm
    rw [hu]
    exact agree_failAt rfl _ _
  | some i =>
    rw [ht] at hbare
    obtain ⟨j, hu, hij⟩ := Option.map_eq_some_iff.1 hbare.symm
    rw [hu]
    exact .pure hij.symm

theorem agree_resolve {es es' : List Entry} (he : es.map Entry.erase = es'.map Entry.erase) :
    Agree carriedShape (resolve es) (resolve es') := by
  induction es generalizing es' with
  | nil =>
    obtain rfl := List.map_eq_nil_iff.1 he.symm
    exact .pure rfl
  | cons e es ih =>
    obtain ⟨e', es', rfl, hhead, htail⟩ := List.map_eq_cons_iff.1 he.symm
    refine (ih htail.symm).bind fun x y hxy => ?_
    obtain ⟨ps, c⟩ := x
    obtain ⟨ps', c'⟩ := y
    have hps : ps.map Param.erase = ps'.map Param.erase := (Prod.mk.inj hxy).1
    have hc : c.map TypeRef.erase = c'.map TypeRef.erase := (Prod.mk.inj hxy).2
    cases e with
    | named name v type =>
      cases e' with
      | named name' v' type' =>
        simp only [Entry.erase, Entry.named.injEq] at hhead
        obtain ⟨hname, rfl, htype⟩ := hhead
        refine .pure ?_
        simp only [carriedShape, List.map_cons, Option.map_some, Param.erase, hname, htype, hps]
      | _ => cases hhead
    | bare lone =>
      cases e' with
      | bare lone' =>
        have hlone : lone.erase = lone'.erase := (Entry.bare.inj hhead).symm
        cases c with
        | some type =>
          obtain ⟨type', rfl, htype⟩ := Option.map_eq_some_iff.1 hc.symm
          refine (agree_extractIdent _ hlone).bind fun name name' hname => ?_
          refine (agree_note _ _).bind fun _ _ _ => .pure ?_
          simp only [carriedShape, List.map_cons, Option.map_some, Param.erase, hname, htype, hps]
        | none =>
          obtain rfl : c' = none := by simpa using hc.symm
          exact agree_problemAt _ _ _ _
      | _ => cases hhead
    | variadic type =>
      cases e' with
      | variadic type' => exact agree_problemAt _ _ _ _
      | _ => cases hhead
    | plain type =>
      cases e' with
      | plain type' => exact agree_problemAt _ _ _ _
      | _ => cases hhead

theorem agree_params {es es' : List Entry} (he : es.map Entry.erase = es'.map Entry.erase)
    (namesRequired : Bool) (start start' : Position) :
    Agree (List.map Param.erase) (params start namesRequired es) (params start' namesRequired es') := by
  have hearly : (earlyVariadic? es).map Entry.erase = (earlyVariadic? es').map Entry.erase := by
    rw [← Entry.earlyVariadic?_erase, he, Entry.earlyVariadic?_erase]
  have hempty : es.isEmpty = es'.isEmpty := by
    rw [← List.isEmpty_map (f := Entry.erase), he, List.isEmpty_map]
  unfold params
  cases hes : earlyVariadic? es with
  | some e =>
    cases hes' : earlyVariadic? es' with
    | some e' => exact agree_problemAt _ _ _ _
    | none => rw [hes, hes'] at hearly; cases hearly
  | none =>
    cases hes' : earlyVariadic? es' with
    | some e' => rw [hes, hes'] at hearly; cases hearly
    | none =>
      simp only [Entry.any_isNamed_congr he, hempty]
      split
      · exact (agree_resolve he).bind fun x y h => .pure (Prod.mk.inj h).1
      split
      · exact agree_problemAt _ _ _ _
      · exact .pure (Entry.unnamed_congr he)

section Types

variable {find : Parse (Option TypeRef)} (hfind : Agree (Option.map TypeRef.erase) find find)

include hfind

theorem agree_required : Agree TypeRef.erase (required find) (required find) :=
  hfind.option (fun _ _ h => .pure h) (agree_unexpected _)

theorem agree_typeOrName : Agree identShape (typeOrName find) (typeOrName find) := by
  refine (agree_peekIs _).bind fun a b hab => (agree_required hfind).bind fun t u h => .pure ?_
  obtain rfl : a = b := hab
  cases a with
  | true => simp only [identShape, h, if_true, bareIdent_congr h]
  | false => simp [identShape, h]

theorem agree_entry : Agree Entry.erase (entry find) (entry find) := by
  rw [entry_eq]
  refine (agree_consumeIf _).ite ?_ ((agree_typeOrName hfind).bind fun x y hxy => ?_)
  · exact (agree_required hfind).bind fun t u h => .pure (by simp only [Entry.erase, h])
  obtain ⟨t, i⟩ := x
  obtain ⟨u, j⟩ := y
  obtain ⟨htu, hij⟩ := Prod.mk.inj hxy
  cases i with
  | none =>
    obtain rfl : j = none := by simpa using hij.symm
    exact .pure (congrArg Entry.plain htu)
  | some i =>
    obtain ⟨j, rfl, hji⟩ := Option.map_eq_some_iff.1 hij.symm
    refine agree_peek.bind fun v w h => ?_
    rw [Token.kind_of_shape h]
    split
    · exact .pure (congrArg Entry.lone hji.symm)
    · refine (agree_consumeIf _).bind fun a b hab => (agree_required hfind).bind fun t u h => .pure ?_
      obtain rfl : a = b := hab
      simp only [Entry.erase, hji, h]

theorem agree_paramList (namesRequired : Bool) :
    Agree ParamList.erase (paramList find namesRequired) (paramList find namesRequired) := by
  refine Agree.nested ((agree_require _ _).bind fun t u h => ?_)
  refine ((agree_entry hfind).commaList _).bind fun es es' he => ?_
  refine (agree_require _ _).bind fun v w h' => (agree_params he _ _ _).bind fun ps ps' hps => ?_
  refine .pure ?_
  simp only [ParamList.erase, Param.eraseAll_eq_map, hps]

theorem agree_results :
    Agree (Option.map ParamList.erase) (results find) (results find) := by
  refine (agree_peekIs _).ite ?_ ?_
  · exact (agree_paramList hfind false).map fun l l' h => congrArg some h
  · refine hfind.option (fun t u h => .pure ?_) (.pure rfl)
    simp only [Option.map_some, ParamList.erase, Param.eraseAll_eq_map, List.map_singleton,
      Param.erase, h]

theorem agree_signature (namesRequired : Bool) :
    Agree Signature.erase (signature find namesRequired) (signature find namesRequired) := by
  refine Agree.nested ((agree_paramList hfind namesRequired).bind fun l l' h => ?_)
  refine (agree_results hfind).option (fun r r' hr => .pure ?_) (.pure ?_)
  · simp only [Signature.erase, h, hr]
  · simp only [Signature.erase, h]

theorem agree_parenType : Agree TypeRef.erase (parenType find) (parenType find) :=
  agree_advance.bind fun _ _ _ => (agree_required hfind).bind fun _ _ h =>
    (agree_require _ _).bind fun _ _ _ => .pure h

theorem agree_bracketType : Agree TypeRef.erase (bracketType find) (bracketType find) := by
  refine agree_advance.bind fun v w _ => (agree_consumeIf _).ite ?_ ((agree_consumeIf _).ite ?_ ?_)
  · exact (agree_required hfind).bind fun t u h => .pure (by simp only [TypeRef.erase, h])
  · refine (agree_require _ _).bind fun _ _ _ => (agree_required hfind).bind fun t u h => .pure ?_
    simp only [TypeRef.erase, h]
  · refine agree_expr.bind fun e e' he => (agree_require _ _).bind fun _ _ _ => ?_
    exact (agree_required hfind).bind fun t u h => .pure (by simp only [TypeRef.erase, he, h])

theorem agree_mapType : Agree TypeRef.erase (mapType find) (mapType find) := by
  refine agree_advance.bind fun _ _ _ => (agree_require _ _).bind fun _ _ _ => ?_
  refine (agree_required hfind).bind fun k k' hk => (agree_require _ _).bind fun _ _ _ => ?_
  exact (agree_required hfind).bind fun t u h => .pure (by simp only [TypeRef.erase, hk, h])

omit hfind in
theorem agree_chanDir {t u : Token} (h : t.shape = u.shape) :
    Agree id (chanDir t) (chanDir u) := by
  unfold chanDir
  rw [Token.kind_of_shape h]
  split
  · exact (agree_require _ _).bind fun _ _ _ => .pure rfl
  · exact (agree_consumeIf _).ite (.pure rfl) (.pure rfl)

theorem agree_chanType : Agree TypeRef.erase (chanType find) (chanType find) := by
  refine agree_advance.bind fun v w hvw => (agree_chanDir hvw).bind fun d d' hd => ?_
  obtain rfl : d = d' := hd
  exact (agree_required hfind).bind fun t u h => .pure (by simp only [TypeRef.erase, h])

omit hfind in
theorem agree_namedType : Agree NamedType.erase namedType namedType := by
  refine (agree_identifier _).bind fun i j h => (agree_consumeIf _).ite ?_ (.pure ?_)
  · exact (agree_identifier _).bind fun i' j' h' => .pure (by
      simp only [NamedType.erase, Option.map_some, h, h'])
  · simp only [NamedType.erase, Option.map_none, h]

omit hfind in
theorem agree_tag : Agree (Option.map StringLit.erase) tag? tag? := by
  refine .look fun t u h => ?_
  rw [← Token.kind_of_shape h]
  split
  · rename_i hk
    have hsemi : t.kind ≠ .delimiter .semicolon := by
      intro hsemi
      rw [hsemi] at hk
      cases hk
    rw [map_eq_pure_bind, bind_assoc]
    exact .advance ((agree_stringLit h hsemi).bind fun _ _ hs => .pure (congrArg some hs))
  · exact (Agree.pure rfl).at

theorem agree_fieldGroup : Agree FieldGroup.erase (fieldGroup find) (fieldGroup find) := by
  rw [fieldGroup_eq]
  refine (agree_typeOrName hfind).bind fun x y hxy => agree_peek.bind fun v w h => ?_
  obtain ⟨t, i⟩ := x
  obtain ⟨u, j⟩ := y
  have htu : t.erase = u.erase := (Prod.mk.inj hxy).1
  have hij : i.map Ident.erase = j.map Ident.erase := (Prod.mk.inj hxy).2
  have hembedded : Agree FieldGroup.erase (do return ⟨[], t, ← tag?⟩) (do return ⟨[], u, ← tag?⟩) :=
    agree_tag.bind fun s s' hs => .pure (by simp only [FieldGroup.erase, htu, hs])
  rw [Token.kind_of_shape h]
  cases i with
  | none =>
    obtain rfl : j = none := by simpa using hij.symm
    exact hembedded
  | some i =>
    obtain ⟨j, rfl, hji⟩ := Option.map_eq_some_iff.1 hij.symm
    cases endsField w.kind with
    | true => exact hembedded
    | false =>
      refine ((agree_identifier _).openedList _).bind fun is js hs => ?_
      refine (agree_required hfind).bind fun t u h => agree_tag.bind fun s s' hs' => .pure ?_
      simp only [FieldGroup.erase, List.map_cons, hji, hs, h, hs']

theorem agree_structBody (start start' : Position) :
    Agree TypeRef.erase (structBody find start) (structBody find start') := by
  refine (agree_require _ _).bind fun _ _ _ => ?_
  refine ((agree_fieldGroup hfind).termList _ _).bind fun fs fs' hfs => ?_
  refine (agree_require _ _).bind fun _ _ _ => .pure ?_
  simp only [TypeRef.erase, FieldGroup.eraseAll_eq_map, hfs]

theorem agree_interfaceElem : Agree InterfaceElem.erase (interfaceElem find) (interfaceElem find) := by
  refine (agree_identifier _).bind fun i j h => ?_
  refine (agree_consumeIf _).ite ?_ ((agree_peekIs _).ite ?_ (.pure ?_))
  · exact (agree_identifier _).bind fun i' j' h' => .pure (by
      simp only [InterfaceElem.erase, NamedType.erase, Option.map_some, h, h'])
  · exact (agree_signature hfind false).bind fun s s' hs => .pure (by
      simp only [InterfaceElem.erase, h, hs])
  · simp only [InterfaceElem.erase, NamedType.erase, Option.map_none, h]

theorem agree_interfaceBody (start start' : Position) :
    Agree TypeRef.erase (interfaceBody find start) (interfaceBody find start') := by
  refine (agree_require _ _).bind fun _ _ _ => ?_
  refine ((agree_interfaceElem hfind).termList _ _).bind fun es es' hes => ?_
  refine (agree_require _ _).bind fun _ _ _ => .pure ?_
  simp only [TypeRef.erase, InterfaceElem.eraseAll_eq_map, hes]

theorem agree_typeBody : Agree (Option.map TypeRef.erase) (typeBody find) (typeBody find) := by
  have hsome : ∀ {m n : Parse TypeRef}, Agree TypeRef.erase m n →
      Agree (Option.map TypeRef.erase) (some <$> m) (some <$> n) :=
    fun h => h.map fun _ _ h => congrArg some h
  refine agree_peek.bind fun v w h => ?_
  rw [Token.kind_of_shape h]
  split
  · exact hsome (agree_parenType hfind)
  · refine agree_namedType.map fun n n' hn => ?_
    simp only [Function.comp_apply, Option.map_some, TypeRef.erase, hn]
  · exact hsome (agree_bracketType hfind)
  · exact agree_advance.bind fun _ _ _ => hsome (agree_structBody hfind _ _).nested
  · refine agree_advance.bind fun _ _ _ => (agree_required hfind).map fun t u h => ?_
    simp only [Function.comp_apply, Option.map_some, TypeRef.erase, h]
  · refine agree_advance.bind fun _ _ _ => (agree_signature hfind false).map fun s s' h => ?_
    simp only [Function.comp_apply, Option.map_some, TypeRef.erase, h]
  · exact agree_advance.bind fun _ _ _ => hsome (agree_interfaceBody hfind _ _).nested
  · exact hsome (agree_mapType hfind)
  · exact hsome (agree_chanType hfind)
  · exact hsome (agree_chanType hfind)
  · exact .pure rfl

end Types

theorem agree_typeRule (room : Nat) :
    Agree (Option.map TypeRef.erase) (typeRule room) (typeRule room) := by
  induction room with
  | zero => exact agree_tooDeep
  | succ room ih => exact (agree_typeBody ih).nested

theorem agree_maybeType : Agree (Option.map TypeRef.erase) type? type? := by
  intro p q hp
  unfold type?
  rw [Parser.room, hp.limit, hp.depth]
  exact agree_typeRule _ p q hp

theorem agree_type : Agree TypeRef.erase type type := agree_required agree_maybeType

end Parse
end GoSyntax
