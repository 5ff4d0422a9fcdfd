import GoSyntax.Grammar.Session
import GoSyntax.Proofs.Grammar.Sure

/-! How rules are put together. Every rule of the grammar is made of a few steps, by taking up parts
one behind the other, by going by the parser it is called at, and by running a part one level deeper.
What these keep all rules keep. -/
namespace GoSyntax

/-- Another token was wanted than the one in view. -/
def Cause.isUnexpected : Cause → Bool
  | .grammar (.unexpected ..) => true
  | _ => false

namespace Parse

variable {α β σ : Type} {m : Parse α} {p q : Parser}

theorem nested_of_full (h : p.limit ≤ p.depth) :
    nested m p = .error ⟨p.peek.pos, .tooDeep p.limit⟩ p := by
  rw [nested, if_pos h]
  rfl

/-- The steps that all rules are made of. -/
inductive Single : {α : Type} → Parse α → Prop
  | pure {α : Type} (a : α) : Single (pure a)
  | peek : Single peek
  | peekIs (kind : Kind) : Single (peekIs kind)
  | note (e : Event) : Single (note e)
  | advance : Single advance
  | unexpected {α : Type} (wanted : Expected) : Single (unexpected wanted : Parse α)
  | tooDeep {α : Type} : Single (tooDeep : Parse α)
  | failAt {α : Type} (pos : Position) {cause : Cause} (h : cause.isUnexpected = false) :
    Single (failAt pos cause : Parse α)

/-- The rule is put together from single steps. Levels are opened by `nested` alone. -/
inductive Composed : {α : Type} → Parse α → Prop
  | single {α : Type} {m : Parse α} (h : Single m) : Composed m
  /-- What the rule does goes by the parser that it is called at. -/
  | look {α : Type} {f : Parser → Parse α} (h : ∀ q, Composed (f q)) : Composed fun q => f q q
  | bind {α β : Type} {m : Parse α} {f : α → Parse β} (hm : Composed m)
    (hf : ∀ a, Composed (f a)) : Composed (m >>= f)
  | nested {α : Type} {m : Parse α} (hm : Composed m) : Composed (nested m)

/-- What lasts as long as tokens come in. -/
structure Lasts (I : Parser → Prop) : Prop where
  advance : ∀ {p q t}, I p → Parse.advance p = .ok t q → I q
  /-- An error that comes in is no rule's. -/
  flaw : ∀ {p q e}, I p → Parse.advance p = .error e q → e.cause.isUnexpected = false
  note : ∀ {p} log, I p → I { p with log }
  enter : ∀ {p}, I p → I p.enter
  leave : ∀ {p}, I p → I p.leave

/-- The end is at a place where `I` holds, and a failure for the token in view speaks of that token.
Of other failures nothing is said. -/
def EndsIn (I : Parser → Prop) : EStateM.Result Error Parser α → Prop
  | .ok _ q => I q
  | .error e q => ∀ wanted found, e.cause = .grammar (.unexpected wanted found) →
    I q ∧ e.pos = q.peek.pos ∧ found = q.found

theorem Single.endsIn {I : Parser → Prop} (hI : Lasts I) (h : Single m) (hp : I p) :
    EndsIn I (m p) := by
  cases h with
  | pure a => exact hp
  | peek => exact hp
  | peekIs kind => exact hp
  | note e => exact hI.note _ hp
  | advance =>
    cases hr : Parse.advance p with
    | ok t q => exact hI.advance hp hr
    | error e q =>
      intro wanted found hc
      have hflaw := hI.flaw hp hr
      rw [hc] at hflaw
      cases hflaw
  | unexpected wanted =>
    intro wanted' found hc
    cases hc
    exact ⟨hp, rfl, rfl⟩
  | tooDeep =>
    intro wanted found hc
    cases hc
  | failAt pos hcause =>
    rintro wanted found ⟨⟩
    cases hcause

/-- A rule that fails because another token was wanted speaks of the token in view, at a place where
everything still holds that lasts. -/
theorem Composed.endsIn {I : Parser → Prop} (hI : Lasts I) (h : Composed m) (hp : I p) :
    EndsIn I (m p) := by
  induction h generalizing p with
  | single h => exact h.endsIn hI hp
  | look h ih => exact ih p hp
  | @bind α β m f hm hf ih ih' =>
    have hend := ih hp
    cases hr : m p with
    | error e q =>
      rw [hr] at hend
      rwa [bind_error hr]
    | ok a q =>
      rw [hr] at hend
      rw [bind_ok hr]
      exact ih' a hend
  | @nested α m hm ih =>
    by_cases hfull : p.limit ≤ p.depth
    · rw [nested_of_full hfull]
      intro wanted found hc
      cases hc
    · have hend := ih (hI.enter hp)
      rw [Parse.nested, if_neg hfull]
      generalize m p.enter = r at hend
      cases r with
      | ok a q => exact hI.leave hend
      | error e q =>
        intro wanted found hc
        obtain ⟨hq, hpos, hfound⟩ := hend wanted found hc
        exact ⟨hI.leave hq, hpos, hfound⟩

theorem Composed.pure (a : α) : Composed (pure a) := .single (.pure a)

/-- A rule that is one composed rule here and another there. -/
theorem Composed.of_eq (h : ∀ p, ∃ m', Composed m' ∧ m p = m' p) : Composed m := by
  obtain ⟨f, hf⟩ := Classical.axiomOfChoice h
  rw [show m = fun q => f q q from funext fun q => (hf q).2]
  exact .look fun q => (hf q).1

theorem Composed.map (g : α → β) (hm : Composed m) : Composed (g <$> m) := by
  rw [map_eq_pure_bind]
  exact hm.bind fun a => .pure (g a)

theorem Composed.ite {c : Parse Bool} {k : Parse α} (hc : Composed c) (hm : Composed m)
    (hk : Composed k) : Composed (do if ← c then m else k) := by
  refine hc.bind fun b => ?_
  cases b with
  | true => exact hm
  | false => exact hk

theorem composed_peek : Composed peek := .single .peek

theorem composed_peekIs (kind : Kind) : Composed (peekIs kind) := .single (.peekIs kind)

theorem composed_note (e : Event) : Composed (note e) := .single (.note e)

theorem composed_advance : Composed advance := .single .advance

theorem composed_unexpected (wanted : Expected) : Composed (unexpected wanted : Parse α) :=
  .single (.unexpected wanted)

theorem composed_tooDeep : Composed (tooDeep : Parse α) := .single .tooDeep

theorem composed_failAt (pos : Position) {cause : Cause} (h : cause.isUnexpected = false) :
    Composed (failAt pos cause : Parse α) := .single (.failAt pos h)

theorem composed_problemAt (pos : Position) {problem : Problem}
    (h : (Cause.grammar problem).isUnexpected = false) :
    Composed (problemAt pos problem : Parse α) := composed_failAt pos h

theorem composed_consumeIf (kind : Kind) : Composed (consumeIf kind) :=
  (composed_peekIs kind).ite (composed_advance.bind fun _ => .pure true) (.pure false)

theorem composed_require (wanted : Expected) (kinds : List Kind) :
    Composed (require wanted kinds) := by
  refine composed_peek.bind fun t => ?_
  split
  · exact composed_advance
  · exact composed_unexpected wanted

theorem composed_identifier (wanted : Expected) : Composed (identifier wanted) :=
  (composed_require wanted _).map _

theorem composed_terminator (wanted : Expected) : Composed (terminator wanted) := by
  refine composed_peek.bind fun t => ?_
  split
  · exact .pure ()
  · exact (composed_require wanted _).bind fun _ => .pure ()

theorem composed_stringLit (t : Token) : Composed (stringLit t) := by
  unfold stringLit
  split
  · exact .pure _
  · exact composed_failAt _ rfl

theorem Composed.bounded {m : Nat → Parse α} (h : ∀ k, Composed (m k)) : Composed (bounded m) :=
  .look (f := fun q => m (q.ahead.length + 1)) fun q => h (q.ahead.length + 1)

theorem Composed.loop {body : σ → Parse (ForInStep σ)} (h : ∀ s, Composed (body s)) (s : σ) :
    Composed (loop body s) := by
  refine .bounded fun k => ?_
  induction k generalizing s with
  | zero => exact .pure s
  | succ k ih =>
    refine (h s).bind fun r => ?_
    cases r with
    | done s' => exact .pure s'
    | yield s' => exact ih s'

theorem Composed.commaList (stop : Kind) (h : Composed m) : Composed (commaList stop m) := by
  refine .bounded fun k => ?_
  induction k with
  | zero => exact .pure []
  | succ k ih =>
    refine (composed_peekIs stop).ite (.pure []) (h.bind fun a => ?_)
    exact (composed_consumeIf _).ite (ih.bind fun as => .pure (a :: as)) (.pure [a])

theorem Composed.termList (stop : Kind) (wanted : Expected) (h : Composed m) :
    Composed (termList stop wanted m) := by
  refine .bounded fun k => ?_
  induction k with
  | zero => exact .pure []
  | succ k ih =>
    refine (composed_peekIs stop).ite (.pure []) (h.bind fun a => ?_)
    exact (composed_terminator wanted).bind fun _ => ih.bind fun as => .pure (a :: as)

theorem Composed.openedList (opener : Kind) (h : Composed m) : Composed (openedList opener m) := by
  refine .bounded fun k => ?_
  induction k with
  | zero => exact .pure []
  | succ k ih =>
    refine (composed_consumeIf opener).ite (h.bind fun a => ?_) (.pure [])
    exact ih.bind fun as => .pure (a :: as)

namespace Expr

variable {deeper : Goal → Parse Expr} (hd : ∀ goal, Composed (deeper goal))

include hd

theorem composed_operand : Composed (operand deeper) := by
  refine composed_peek.bind fun t => ?_
  split
  · exact (composed_identifier _).map _
  · refine composed_advance.bind fun opening => (hd _).bind fun inner => ?_
    exact (composed_require _ _).bind fun closing => .pure _
  · refine composed_advance.bind fun u => ?_
    split
    · exact .pure _
    · exact composed_failAt _ rfl
  · exact composed_unexpected _

theorem composed_postfixStep (e : Expr) : Composed (postfixStep deeper e) := by
  refine (composed_consumeIf _).ite ((composed_identifier _).bind fun field => .pure _) ?_
  refine (composed_consumeIf _).ite ?_ (.pure _)
  exact ((hd _).commaList _).bind fun args => (composed_require _ _).bind fun closing => .pure _

theorem composed_primary : Composed (primary deeper) :=
  ((composed_operand hd).bind fun e => .loop (composed_postfixStep hd) e).nested

theorem composed_unaryRule : Composed (unaryRule deeper) := by
  refine composed_peek.bind fun t => ?_
  split
  · split
    · exact composed_advance.bind fun u => (hd _).bind fun e => .pure _
    · exact composed_primary hd
  · exact composed_primary hd

omit hd in
theorem composed_operatorInView (least : Nat) : Composed (operatorInView? least) := by
  refine composed_peek.bind fun t => ?_
  split
  · exact .pure _
  · exact .pure _

theorem composed_binaryStep (least : Nat) (left : Expr) :
    Composed (binaryStep deeper least left) := by
  refine (composed_operatorInView least).bind fun o => ?_
  split
  · exact composed_advance.bind fun _ => (hd _).bind fun right => .pure _
  · exact .pure _

theorem composed_binaryRule (least : Nat) : Composed (binaryRule deeper least) :=
  (composed_unaryRule hd).bind fun e => .loop (composed_binaryStep hd least) e

omit hd in
theorem composed_rule (room : Nat) (goal : Goal) : Composed (rule room goal) := by
  induction room generalizing goal with
  | zero => exact composed_tooDeep
  | succ room ih =>
    cases goal with
    | binary least => exact (composed_binaryRule ih least).nested
    | unary => exact (composed_unaryRule ih).nested

end Expr

theorem composed_expr : Composed expr :=
  .look (f := fun q => Expr.rule q.room (.binary 1)) fun q => Expr.composed_rule q.room _

theorem composed_extractIdent (defect : Defect) (type : TypeRef) :
    Composed (extractIdent defect type) := by
  unfold extractIdent
  split
  · exact .pure _
  · exact composed_failAt _ rfl

theorem composed_resolve (es : List Entry) : Composed (resolve es) := by
  induction es with
  | nil => exact .pure _
  | cons e es ih =>
    refine ih.bind fun ⟨ps, carried⟩ => ?_
    match e, carried with
    | .named .., _ => exact .pure _
    | .bare lone, some type =>
      exact (composed_extractIdent _ lone).bind fun name => (composed_note _).bind fun _ => .pure _
    | .bare _, none => exact composed_problemAt _ rfl
    | .plain _, _ => exact composed_problemAt _ rfl
    | .variadic _, _ => exact composed_problemAt _ rfl

theorem composed_params (start : Position) (namesRequired : Bool) (es : List Entry) :
    Composed (params start namesRequired es) := by
  unfold params
  split
  · exact composed_problemAt _ rfl
  · split
    · exact (composed_resolve es).bind fun x => .pure x.1
    · split
      · exact composed_problemAt _ rfl
      · exact .pure _

theorem composed_namedType : Composed namedType := by
  refine (composed_identifier _).bind fun first => (composed_consumeIf _).ite ?_ (.pure _)
  exact (composed_identifier _).bind fun name => .pure _

theorem composed_tag : Composed tag? := by
  refine composed_peek.bind fun t => ?_
  split
  · exact (composed_advance.bind composed_stringLit).map _
  · exact .pure none

theorem composed_chanDir (opening : Token) : Composed (chanDir opening) := by
  unfold chanDir
  split
  · exact (composed_require _ _).bind fun _ => .pure _
  · exact (composed_consumeIf _).ite (.pure _) (.pure _)

section Types

variable {find : Parse (Option TypeRef)} (hfind : Composed find)

include hfind

theorem composed_required : Composed (required find) := by
  refine hfind.bind fun o => ?_
  cases o with
  | some t => exact .pure t
  | none => exact composed_unexpected _

theorem composed_typeOrIdent : Composed (typeOrIdent find) :=
  (composed_peekIs _).bind fun _ => (composed_required hfind).bind fun _ => .pure _

theorem composed_entry : Composed (entry find) := by
  refine (composed_consumeIf _).ite ((composed_required hfind).bind fun t => .pure _) ?_
  refine (composed_typeOrIdent hfind).bind fun ⟨t, isBare⟩ => composed_peek.bind fun u => ?_
  dsimp only
  split
  · refine (composed_extractIdent _ t).bind fun name => (composed_consumeIf _).bind fun v => ?_
    exact (composed_required hfind).bind fun t => .pure _
  · exact .pure _

theorem composed_paramList (namesRequired : Bool) : Composed (paramList find namesRequired) := by
  refine Composed.nested ((composed_require _ _).bind fun opening => ?_)
  refine ((composed_entry hfind).commaList _).bind fun es => ?_
  refine (composed_require _ _).bind fun closing => ?_
  exact (composed_params _ _ es).bind fun ps => .pure _

theorem composed_results : Composed (results find) :=
  (composed_peekIs _).ite ((composed_paramList hfind false).map _) (hfind.bind fun _ => .pure _)

theorem composed_signature (namesRequired : Bool) : Composed (signature find namesRequired) := by
  refine Composed.nested ((composed_paramList hfind namesRequired).bind fun args => ?_)
  exact (composed_results hfind).bind fun o => .pure _

theorem composed_parenType : Composed (parenType find) :=
  composed_advance.bind fun _ => (composed_required hfind).bind fun t =>
    (composed_require _ _).bind fun _ => .pure t

theorem composed_bracketType : Composed (bracketType find) := by
  have htype : ∀ g : TypeRef → TypeRef, Composed (do return g (← required find)) :=
    fun g => (composed_required hfind).bind fun t => .pure (g t)
  refine composed_advance.bind fun opening => (composed_consumeIf _).ite (htype _) ?_
  refine (composed_consumeIf _).ite ((composed_require _ _).bind fun _ => htype _) ?_
  exact composed_expr.bind fun length => (composed_require _ _).bind fun _ => htype _

theorem composed_mapType : Composed (mapType find) := by
  refine composed_advance.bind fun opening => (composed_require _ _).bind fun _ => ?_
  refine (composed_required hfind).bind fun key => (composed_require _ _).bind fun _ => ?_
  exact (composed_required hfind).bind fun t => .pure _

theorem composed_chanType : Composed (chanType find) :=
  composed_advance.bind fun opening => (composed_chanDir opening).bind fun _ =>
    (composed_required hfind).bind fun _ => .pure _

theorem composed_fieldGroup : Composed (fieldGroup find) := by
  refine (composed_typeOrIdent hfind).bind fun ⟨t, isBare⟩ => composed_peek.bind fun u => ?_
  dsimp only
  split
  · refine (composed_extractIdent _ t).bind fun name => ?_
    refine ((composed_identifier _).openedList _).bind fun names => ?_
    exact (composed_required hfind).bind fun t => composed_tag.bind fun tag => .pure _
  · exact composed_tag.bind fun tag => .pure _

theorem composed_structBody (start : Position) : Composed (structBody find start) := by
  refine (composed_require _ _).bind fun _ => ?_
  refine ((composed_fieldGroup hfind).termList _ _).bind fun fields => ?_
  exact (composed_require _ _).bind fun closing => .pure _

theorem composed_interfaceElem : Composed (interfaceElem find) := by
  refine (composed_identifier _).bind fun name => (composed_consumeIf _).ite ?_ ?_
  · exact (composed_identifier _).bind fun name' => .pure _
  · refine (composed_peekIs _).ite ?_ (.pure _)
    exact (composed_signature hfind false).bind fun sig => .pure _

theorem composed_interfaceBody (start : Position) : Composed (interfaceBody find start) := by
  refine (composed_require _ _).bind fun _ => ?_
  refine ((composed_interfaceElem hfind).termList _ _).bind fun elems => ?_
  exact (composed_require _ _).bind fun closing => .pure _

theorem composed_typeBody : Composed (typeBody find) := by
  refine composed_peek.bind fun t => ?_
  split
  · exact (composed_parenType hfind).map _
  · exact composed_namedType.map _
  · exact (composed_bracketType hfind).map _
  · exact composed_advance.bind fun opening => (composed_structBody hfind _).nested.map _
  · exact composed_advance.bind fun opening => (composed_required hfind).map _
  · exact composed_advance.bind fun opening => (composed_signature hfind false).map _
  · exact composed_advance.bind fun opening => (composed_interfaceBody hfind _).nested.map _
  · exact (composed_mapType hfind).map _
  · exact (composed_chanType hfind).map _
  · exact (composed_chanType hfind).map _
  · exact .pure none

end Types

theorem composed_typeRule (room : Nat) : Composed (typeRule room) := by
  induction room with
  | zero => exact composed_tooDeep
  | succ room ih => exact (composed_typeBody ih).nested

theorem composed_maybeType : Composed type? :=
  .look (f := fun q => typeRule q.room) fun q => composed_typeRule q.room

/-- What is done with the token in view of a block depends on it and on the levels in use. -/
theorem composed_blockTokensFor (start : Position) (opened k : Nat) :
    Composed (blockTokensFor start opened k) := by
  induction k generalizing opened with
  | zero => exact .pure []
  | succ k ih =>
    have hstep : ∀ opened', Composed (do return (← advance) :: (← blockTokensFor start opened' k)) :=
      fun opened' => composed_advance.bind fun t => (ih opened').bind fun ts => .pure (t :: ts)
    have hopen : ∀ pos, Composed (problemAt pos (.openBlock start) : Parse (List Token)) :=
      fun pos => composed_problemAt pos rfl
    refine .of_eq fun p => ?_
    unfold blockTokensFor
    split
    · exact ⟨_, hopen _, rfl⟩
    · split
      · exact ⟨_, composed_tooDeep, rfl⟩
      · exact ⟨_, hstep _, rfl⟩
    · split
      · exact ⟨_, .pure [], rfl⟩
      · exact ⟨_, hstep _, rfl⟩
    · exact ⟨_, hstep _, rfl⟩

theorem composed_block : Composed block := by
  refine (composed_require _ _).bind fun opening => ?_
  refine (Composed.bounded fun k => composed_blockTokensFor _ 0 k).bind fun tokens => ?_
  exact (composed_require _ _).bind fun closing => .pure _

theorem composed_receiver : Composed receiver? := by
  refine (composed_peekIs _).ite ?_ (.pure none)
  refine (composed_paramList composed_maybeType true).bind fun list => ?_
  split
  · exact .pure _
  · exact composed_problemAt _ rfl
  · exact composed_problemAt _ rfl

theorem composed_body : Composed body? := by
  refine (composed_peekIs _).ite ?_ ((composed_require _ _).bind fun _ => .pure none)
  exact composed_block.bind fun b => (composed_require _ _).bind fun _ => .pure (some b)

theorem composed_funcDecl : Composed funcDecl := by
  refine (composed_require _ _).bind fun opening => composed_receiver.bind fun receiver => ?_
  refine (composed_identifier _).bind fun name => ?_
  refine (composed_signature composed_maybeType true).bind fun sig => ?_
  exact composed_body.bind fun body => (composed_note _).bind fun _ => .pure _

theorem composed_decl : Composed decl := by
  refine composed_peek.bind fun t => ?_
  split
  · exact composed_funcDecl.map _
  · exact composed_failAt _ rfl
  · exact composed_failAt _ rfl
  · exact composed_failAt _ rfl
  · exact composed_problemAt _ rfl
  · exact composed_unexpected _

theorem composed_importName : Composed importName? := by
  refine composed_peek.bind fun t => (composed_consumeIf _).ite (.pure _) ?_
  exact (composed_peekIs _).ite ((composed_identifier _).bind fun name => .pure _) (.pure none)

theorem composed_importSpec : Composed importSpec := by
  refine composed_peek.bind fun first => composed_importName.bind fun name => ?_
  refine (composed_require _ _).bind fun t => ?_
  exact (composed_stringLit t).bind fun path => (composed_note _).bind fun _ => .pure _

theorem composed_importGroup : Composed importGroup := by
  have hend : ∀ specs : List Import, Composed
      (do let _ ← require .importEnd [.delimiter .semicolon]; return specs) :=
    fun specs => (composed_require _ _).bind fun _ => .pure specs
  refine (composed_consumeIf _).ite ?_ ((composed_importSpec.map _).bind hend)
  refine (composed_importSpec.termList _ _).bind fun specs => ?_
  exact (composed_require _ _).bind fun _ => hend specs

theorem composed_declsFor (k : Nat) : Composed (declsFor k) := by
  induction k with
  | zero => exact .pure []
  | succ k ih =>
    refine (composed_consumeIf _).ite ih ((composed_peekIs _).ite (.pure []) ?_)
    exact composed_decl.bind fun d => ih.bind fun ds => .pure (d :: ds)

theorem composed_file : Composed file := by
  refine (composed_require _ _).bind fun opening => (composed_identifier _).bind fun package => ?_
  refine (composed_require _ _).bind fun _ => (composed_note _).bind fun _ => ?_
  refine (composed_importGroup.openedList _).bind fun imports => ?_
  exact (Composed.bounded composed_declsFor).bind fun decls => .pure _

theorem composed_parse (rule : Rule) : Composed rule.parse := by
  cases rule with
  | file => exact composed_file.map _
  | decl => exact composed_decl.map _
  | func => exact composed_funcDecl.map _
  | signature namesRequired => exact (composed_signature composed_maybeType namesRequired).map _
  | params namesRequired => exact (composed_paramList composed_maybeType namesRequired).map _
  | type => exact (composed_required composed_maybeType).map _
  | maybeType => exact composed_maybeType.bind fun o => .pure _
  | expr => exact composed_expr.map _
  | block => exact composed_block.map _
  | ident => exact (composed_identifier _).map _

end Parse
end GoSyntax
