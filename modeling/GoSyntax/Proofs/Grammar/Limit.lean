import GoSyntax.Proofs.Grammar.Runs
import GoSyntax.Grammar.Session

/-! One parser with a lower and a higher limit. Whatever a rule does with the lower limit it does
with the higher one as well, unless it stops because no more levels can be opened. -/
namespace GoSyntax

/-- The parser with another limit. -/
def Parser.withLimit (p : Parser) (n : Nat) : Parser := { p with limit := n }

namespace Parser

variable (p : Parser) (n : Nat)

@[simp] theorem withLimit_peek : (p.withLimit n).peek = p.peek := rfl

@[simp] theorem withLimit_ahead : (p.withLimit n).ahead = p.ahead := rfl

@[simp] theorem withLimit_depth : (p.withLimit n).depth = p.depth := rfl

@[simp] theorem withLimit_limit : (p.withLimit n).limit = n := rfl

theorem room_le_withLimit {p : Parser} {n : Nat} (h : p.limit ≤ n) :
    p.room ≤ (p.withLimit n).room := by
  simp only [room, withLimit_limit, withLimit_depth]
  omega

end Parser

namespace Parse

open GoSyntax.Parser

/-- The first rule ended for want of levels, or both gave the same and left the same parser but for
the limit, which is `n` at the second. -/
inductive LiftedEnd {α : Type} (n : Nat) :
    EStateM.Result Error Parser α → EStateM.Result Error Parser α → Prop
  | ok {a : α} {p : Parser} (h : p.limit ≤ n) : LiftedEnd n (.ok a p) (.ok a (p.withLimit n))
  | error {e : Error} {p : Parser} (h : p.limit ≤ n) :
    LiftedEnd n (.error e p) (.error e (p.withLimit n))
  | tooDeep {e : Error} {p : Parser} {r : EStateM.Result Error Parser α} (h : e.isTooDeep = true) :
    LiftedEnd n (.error e p) r

/-- What the first rule does under a limit the second does under every higher one, unless the first
ends for want of levels. -/
def Lifts {α : Type} (m m' : Parse α) : Prop :=
  ∀ p n, p.limit ≤ n → LiftedEnd n (m p) (m' (p.withLimit n))

variable {α β σ : Type} {m m' : Parse α}

theorem Lifts.pure (a : α) : Lifts (pure a) (pure a) := fun _ _ h => .ok h

theorem Lifts.bind {f f' : α → Parse β} (hm : Lifts m m') (hf : ∀ a, Lifts (f a) (f' a)) :
    Lifts (m >>= f) (m' >>= f') := by
  intro p n hp
  have hend := hm p n hp
  generalize hr : m p = r at hend
  generalize hr' : m' (p.withLimit n) = r' at hend
  cases hend with
  | ok h =>
    rw [bind_ok hr, bind_ok hr']
    exact hf _ _ n h
  | error h =>
    rw [bind_error hr, bind_error hr']
    exact .error h
  | tooDeep h =>
    -- the first half already excuses whatever the other parser goes on to do
    rw [bind_error hr]
    exact .tooDeep h

theorem Lifts.map (g : α → β) (hm : Lifts m m') : Lifts (g <$> m) (g <$> m') := by
  rw [map_eq_pure_bind, map_eq_pure_bind]
  exact hm.bind fun a => .pure (g a)

theorem Lifts.ite {c c' : Parse Bool} {k k' : Parse α} (hc : Lifts c c') (hm : Lifts m m')
    (hk : Lifts k k') : Lifts (do if ← c then m else k) (do if ← c' then m' else k') := by
  refine hc.bind fun b => ?_
  cases b with
  | true => exact hm
  | false => exact hk

theorem lifts_failAt (pos : Position) (cause : Cause) :
    Lifts (failAt pos cause : Parse α) (failAt pos cause) := fun _ _ h => .error h

theorem lifts_problemAt (pos : Position) (problem : Problem) :
    Lifts (problemAt pos problem : Parse α) (problemAt pos problem) := lifts_failAt pos _

theorem lifts_unexpected (wanted : Expected) :
    Lifts (unexpected wanted : Parse α) (unexpected wanted) := fun _ _ h => .error h

theorem lifts_tooDeep : Lifts tooDeep m := fun _ _ _ => .tooDeep rfl

theorem lifts_peek : Lifts peek peek := fun _ _ h => .ok h

theorem lifts_peekIs (kind : Kind) : Lifts (peekIs kind) (peekIs kind) := fun _ _ h => .ok h

theorem lifts_note (e : Event) : Lifts (note e) (note e) :=
  fun p _ h => .ok (p := { p with log := e :: p.log }) h

theorem lifts_advance : Lifts advance advance := by
  intro p n h
  unfold advance
  rw [withLimit_ahead]
  cases p.ahead with
  | nil =>
    exact .ok (p := { p with
      ahead := [], peek := { p.peek with leading := [] }, log := .ofToken p.peek :: p.log }) h
  | cons a ahead =>
    dsimp only
    cases a.outcome with
    | ok t => exact .ok (p := { p with ahead, peek := t, drained := _, log := _ }) h
    | error e => exact .error (p := { p with ahead, drained := _, log := _ }) h

theorem lifts_consumeIf (kind : Kind) : Lifts (consumeIf kind) (consumeIf kind) :=
  (lifts_peekIs kind).ite (lifts_advance.bind fun _ => .pure true) (.pure false)

theorem lifts_require (wanted : Expected) (kinds : List Kind) :
    Lifts (require wanted kinds) (require wanted kinds) := by
  refine lifts_peek.bind fun t => ?_
  split
  · exact lifts_advance
  · exact lifts_unexpected wanted

theorem lifts_identifier (wanted : Expected) : Lifts (identifier wanted) (identifier wanted) :=
  (lifts_require wanted _).map _

theorem lifts_terminator (wanted : Expected) : Lifts (terminator wanted) (terminator wanted) := by
  refine lifts_peek.bind fun t => ?_
  split
  · exact .pure ()
  · exact (lifts_require wanted _).bind fun _ => .pure ()

theorem lifts_stringLit (t : Token) : Lifts (stringLit t) (stringLit t) := by
  unfold stringLit
  split
  · exact .pure _
  · exact lifts_failAt _ _

/-- A level that can be opened under the lower limit can be opened under the higher one. -/
theorem Lifts.nested (h : Lifts m m') : Lifts (nested m) (nested m') := by
  intro p n hp
  unfold Parse.nested
  by_cases hd : p.limit ≤ p.depth
  · rw [if_pos hd]
    exact .tooDeep rfl
  · rw [if_neg hd, if_neg (by rw [withLimit_limit, withLimit_depth]; omega)]
    have hend := h p.enter n hp
    change LiftedEnd n _ (m' (p.withLimit n).enter) at hend
    generalize m p.enter = r at hend ⊢
    generalize m' (p.withLimit n).enter = r' at hend ⊢
    cases hend with
    | @ok a q h => exact .ok (p := q.leave) h
    | @error e q h => exact .error (p := q.leave) h
    | tooDeep h => exact .tooDeep h

theorem Lifts.bounded {m m' : Nat → Parse α} (h : ∀ k, Lifts (m k) (m' k)) :
    Lifts (bounded m) (bounded m') :=
  fun p n hp => h (p.ahead.length + 1) p n hp

theorem Lifts.loop {body body' : σ → Parse (ForInStep σ)} (h : ∀ s, Lifts (body s) (body' s))
    (s : σ) : Lifts (loop body s) (loop body' s) := by
  refine .bounded fun k => ?_
  induction k generalizing s with
  | zero => exact .pure s
  | succ k ih =>
    refine (h s).bind fun r => ?_
    cases r with
    | done s' => exact .pure s'
    | yield s' => exact ih s'

theorem Lifts.commaList (stop : Kind) (h : Lifts m m') :
    Lifts (commaList stop m) (commaList stop m') := by
  refine .bounded fun k => ?_
  induction k with
  | zero => exact .pure []
  | succ k ih =>
    refine (lifts_peekIs stop).ite (.pure []) (h.bind fun a => ?_)
    exact (lifts_consumeIf _).ite (ih.bind fun as => .pure (a :: as)) (.pure [a])

theorem Lifts.termList (stop : Kind) (wanted : Expected) (h : Lifts m m') :
    Lifts (termList stop wanted m) (termList stop wanted m') := by
  refine .bounded fun k => ?_
  induction k with
  | zero => exact .pure []
  | succ k ih =>
    refine (lifts_peekIs stop).ite (.pure []) (h.bind fun a => ?_)
    exact (lifts_terminator wanted).bind fun _ => ih.bind fun as => .pure (a :: as)

theorem Lifts.openedList (opener : Kind) (h : Lifts m m') :
    Lifts (openedList opener m) (openedList opener m') := by
  refine .bounded fun k => ?_
  induction k with
  | zero => exact .pure []
  | succ k ih =>
    refine (lifts_consumeIf opener).ite (h.bind fun a => ?_) (.pure [])
    exact ih.bind fun as => .pure (a :: as)

namespace Expr

variable {deeper deeper' : Goal → Parse Expr} (hd : ∀ goal, Lifts (deeper goal) (deeper' goal))

include hd

theorem lifts_operand : Lifts (operand deeper) (operand deeper') := by
  refine lifts_peek.bind fun t => ?_
  split
  · exact (lifts_identifier _).map _
  · refine lifts_advance.bind fun opening => (hd _).bind fun inner => ?_
    exact (lifts_require _ _).bind fun closing => .pure _
  · refine lifts_advance.bind fun u => ?_
    split
    · exact .pure _
    · exact lifts_failAt _ _
  · exact lifts_unexpected _

theorem lifts_postfixStep (e : Expr) : Lifts (postfixStep deeper e) (postfixStep deeper' e) := by
  refine (lifts_consumeIf _).ite ((lifts_identifier _).bind fun field => .pure _) ?_
  refine (lifts_consumeIf _).ite ?_ (.pure _)
  exact ((hd _).commaList _).bind fun args => (lifts_require _ _).bind fun closing => .pure _

theorem lifts_primary : Lifts (primary deeper) (primary deeper') :=
  ((lifts_operand hd).bind fun e => .loop (lifts_postfixStep hd) e).nested

theorem lifts_unaryRule : Lifts (unaryRule deeper) (unaryRule deeper') := by
  refine lifts_peek.bind fun t => ?_
  split
  · split
    · exact lifts_advance.bind fun u => (hd _).bind fun e => .pure _
    · exact lifts_primary hd
  · exact lifts_primary hd

omit hd in
theorem lifts_operatorInView (least : Nat) :
    Lifts (operatorInView? least) (operatorInView? least) := by
  refine lifts_peek.bind fun t => ?_
  split
  · exact .pure _
  · exact .pure _

theorem lifts_binaryStep (least : Nat) (left : Expr) :
    Lifts (binaryStep deeper least left) (binaryStep deeper' least left) := by
  refine (lifts_operatorInView least).bind fun o => ?_
  split
  · exact lifts_advance.bind fun _ => (hd _).bind fun right => .pure _
  · exact .pure _

theorem lifts_binaryRule (least : Nat) :
    Lifts (binaryRule deeper least) (binaryRule deeper' least) :=
  (lifts_unaryRule hd).bind fun e => .loop (lifts_binaryStep hd least) e

omit hd in
/-- Where fewer levels are left the rule is cut off, and nothing else. -/
theorem lifts_rule {r r' : Nat} (h : r ≤ r') (goal : Goal) :
    Lifts (rule r goal) (rule r' goal) := by
  induction r generalizing r' goal with
  | zero => exact lifts_tooDeep
  | succ r ih =>
    obtain ⟨k, rfl⟩ : ∃ k, r' = k + 1 := ⟨r' - 1, by omega⟩
    have hdeeper : ∀ goal, Lifts (rule r goal) (rule k goal) := fun goal => ih (by omega) goal
    cases goal with
    | binary least => exact (lifts_binaryRule hdeeper least).nested
    | unary => exact (lifts_unaryRule hdeeper).nested

end Expr

theorem lifts_expr : Lifts expr expr :=
  fun p n hp => Expr.lifts_rule (room_le_withLimit hp) _ p n hp

theorem lifts_extractIdent (defect : Defect) (type : TypeRef) :
    Lifts (extractIdent defect type) (extractIdent defect type) := by
  unfold extractIdent
  split
  · exact .pure _
  · exact lifts_failAt _ _

theorem lifts_resolve (es : List Entry) : Lifts (resolve es) (resolve es) := by
  induction es with
  | nil => exact .pure _
  | cons e es ih =>
    refine ih.bind fun ⟨ps, carried⟩ => ?_
    match e, carried with
    | .named .., _ => exact .pure _
    | .bare _, some _ => 
      exact (lifts_extractIdent _ _).bind fun name => (lifts_note _).bind fun _ => .pure _
    | .bare _, none => exact lifts_problemAt _ _
    | .plain _, _ => exact lifts_problemAt _ _
    | .variadic _, _ => exact lifts_problemAt _ _

theorem lifts_params (start : Position) (namesRequired : Bool) (es : List Entry) :
    Lifts (params start namesRequired es) (params start namesRequired es) := by
  unfold params
  split
  · exact lifts_problemAt _ _
  · split
    · exact (lifts_resolve es).bind fun x => .pure x.1
    · split
      · exact lifts_problemAt _ _
      · exact .pure _

theorem lifts_namedType : Lifts namedType namedType := by
  refine (lifts_identifier _).bind fun first => (lifts_consumeIf _).ite ?_ (.pure _)
  exact (lifts_identifier _).bind fun name => .pure _

theorem lifts_tag : Lifts tag? tag? := by
  refine lifts_peek.bind fun t => ?_
  split
  · exact (lifts_advance.bind lifts_stringLit).map _
  · exact .pure none

theorem lifts_chanDir (opening : Token) : Lifts (chanDir opening) (chanDir opening) := by
  unfold chanDir
  split
  · exact (lifts_require _ _).bind fun _ => .pure _
  · exact (lifts_consumeIf _).ite (.pure _) (.pure _)

section Types

variable {find find' : Parse (Option TypeRef)} (hfind : Lifts find find')

include hfind

theorem lifts_required : Lifts (required find) (required find') := by
  refine hfind.bind fun o => ?_
  cases o with
  | some t => exact .pure t
  | none => exact lifts_unexpected _

theorem lifts_typeOrIdent : Lifts (typeOrIdent find) (typeOrIdent find') :=
  (lifts_peekIs _).bind fun _ => (lifts_required hfind).bind fun _ => .pure _

theorem lifts_entry : Lifts (entry find) (entry find') := by
  refine (lifts_consumeIf _).ite ((lifts_required hfind).bind fun t => .pure _) ?_
  refine (lifts_typeOrIdent hfind).bind fun ⟨t, isBare⟩ => lifts_peek.bind fun u => ?_
  dsimp only
  split
  · refine (lifts_extractIdent _ _).bind fun name => (lifts_consumeIf _).bind fun v => ?_
    exact (lifts_required hfind).bind fun t => .pure _
  · exact .pure _

theorem lifts_paramList (namesRequired : Bool) :
    Lifts (paramList find namesRequired) (paramList find' namesRequired) := by
  refine Lifts.nested ((lifts_require _ _).bind fun opening => ?_)
  refine ((lifts_entry hfind).commaList _).bind fun es => (lifts_require _ _).bind fun closing => ?_
  exact (lifts_params _ _ es).bind fun ps => .pure _

theorem lifts_results : Lifts (results find) (results find') :=
  (lifts_peekIs _).ite ((lifts_paramList hfind false).map _) (hfind.bind fun _ => .pure _)

theorem lifts_signature (namesRequired : Bool) :
    Lifts (signature find namesRequired) (signature find' namesRequired) := by
  refine Lifts.nested ((lifts_paramList hfind namesRequired).bind fun args => ?_)
  exact (lifts_results hfind).bind fun o => .pure _

theorem lifts_parenType : Lifts (parenType find) (parenType find') :=
  lifts_advance.bind fun _ => (lifts_required hfind).bind fun t =>
    (lifts_require _ _).bind fun _ => .pure t

theorem lifts_bracketType : Lifts (bracketType find) (bracketType find') := by
  have htype : ∀ g : TypeRef → TypeRef, Lifts (do return g (← required find))
      (do return g (← required find')) := fun g => (lifts_required hfind).bind fun t => .pure (g t)
  refine lifts_advance.bind fun opening => (lifts_consumeIf _).ite (htype _) ?_
  refine (lifts_consumeIf _).ite ((lifts_require _ _).bind fun _ => htype _) ?_
  exact lifts_expr.bind fun length => (lifts_require _ _).bind fun _ => htype _

theorem lifts_mapType : Lifts (mapType find) (mapType find') := by
  refine lifts_advance.bind fun opening => (lifts_require _ _).bind fun _ => ?_
  refine (lifts_required hfind).bind fun key => (lifts_require _ _).bind fun _ => ?_
  exact (lifts_required hfind).bind fun t => .pure _

theorem lifts_chanType : Lifts (chanType find) (chanType find') :=
  lifts_advance.bind fun opening => (lifts_chanDir opening).bind fun _ =>
    (lifts_required hfind).bind fun _ => .pure _

theorem lifts_fieldGroup : Lifts (fieldGroup find) (fieldGroup find') := by
  refine (lifts_typeOrIdent hfind).bind fun ⟨t, isBare⟩ => lifts_peek.bind fun u => ?_
  dsimp only
  split
  · refine (lifts_extractIdent _ _).bind fun name => ?_
    refine ((lifts_identifier _).openedList _).bind fun names => ?_
    exact (lifts_required hfind).bind fun t => lifts_tag.bind fun tag => .pure _
  · exact lifts_tag.bind fun tag => .pure _

theorem lifts_structBody (start : Position) :
    Lifts (structBody find start) (structBody find' start) := by
  refine (lifts_require _ _).bind fun _ => ?_
  refine ((lifts_fieldGroup hfind).termList _ _).bind fun fields => ?_
  exact (lifts_require _ _).bind fun closing => .pure _

theorem lifts_interfaceElem : Lifts (interfaceElem find) (interfaceElem find') := by
  refine (lifts_identifier _).bind fun name => (lifts_consumeIf _).ite ?_ ?_
  · exact (lifts_identifier _).bind fun name' => .pure _
  · exact (lifts_peekIs _).ite ((lifts_signature hfind false).bind fun sig => .pure _) (.pure _)

theorem lifts_interfaceBody (start : Position) :
    Lifts (interfaceBody find start) (interfaceBody find' start) := by
  refine (lifts_require _ _).bind fun _ => ?_
  refine ((lifts_interfaceElem hfind).termList _ _).bind fun elems => ?_
  exact (lifts_require _ _).bind fun closing => .pure _

theorem lifts_typeBody : Lifts (typeBody find) (typeBody find') := by
  refine lifts_peek.bind fun t => ?_
  split
  · exact (lifts_parenType hfind).map _
  · exact lifts_namedType.map _
  · exact (lifts_bracketType hfind).map _
  · exact lifts_advance.bind fun opening => (lifts_structBody hfind _).nested.map _
  · exact lifts_advance.bind fun opening => (lifts_required hfind).map _
  · exact lifts_advance.bind fun opening => (lifts_signature hfind false).map _
  · exact lifts_advance.bind fun opening => (lifts_interfaceBody hfind _).nested.map _
  · exact (lifts_mapType hfind).map _
  · exact (lifts_chanType hfind).map _
  · exact (lifts_chanType hfind).map _
  · exact .pure none

end Types

theorem lifts_typeRule {r r' : Nat} (h : r ≤ r') : Lifts (typeRule r) (typeRule r') := by
  induction r generalizing r' with
  | zero => exact lifts_tooDeep
  | succ r ih =>
    obtain ⟨k, rfl⟩ : ∃ k, r' = k + 1 := ⟨r' - 1, by omega⟩
    exact (lifts_typeBody (ih (by omega))).nested

theorem lifts_maybeType : Lifts type? type? :=
  fun p n hp => lifts_typeRule (room_le_withLimit hp) p n hp

/-- Braces in a body are levels, and more of them can be opened under a higher limit. -/
theorem lifts_blockTokensFor (start : Position) (opened k : Nat) :
    Lifts (blockTokensFor start opened k) (blockTokensFor start opened k) := by
  induction k generalizing opened with
  | zero => exact .pure []
  | succ k ih =>
    have hstep : ∀ opened', Lifts (do return (← advance) :: (← blockTokensFor start opened' k))
        (do return (← advance) :: (← blockTokensFor start opened' k)) :=
      fun opened' => lifts_advance.bind fun t => (ih opened').bind fun ts => .pure (t :: ts)
    intro p n hp
    unfold blockTokensFor
    rw [withLimit_peek, withLimit_limit, withLimit_depth]
    split
    · exact .error hp
    · by_cases hd : p.limit ≤ p.depth + opened
      · rw [if_pos hd]
        exact .tooDeep rfl
      · rw [if_neg hd, if_neg (by omega)]
        exact hstep _ p n hp
    · split
      · exact .ok hp
      · exact hstep _ p n hp
    · exact hstep _ p n hp

theorem lifts_block : Lifts block block := by
  refine (lifts_require _ _).bind fun opening => ?_
  refine (Lifts.bounded fun k => lifts_blockTokensFor _ 0 k).bind fun tokens => ?_
  exact (lifts_require _ _).bind fun closing => .pure _

theorem lifts_receiver : Lifts receiver? receiver? := by
  refine (lifts_peekIs _).ite ?_ (.pure none)
  refine (lifts_paramList lifts_maybeType true).bind fun list => ?_
  split
  · exact .pure _
  · exact lifts_problemAt _ _
  · exact lifts_problemAt _ _

theorem lifts_body : Lifts body? body? := by
  refine (lifts_peekIs _).ite ?_ ((lifts_require _ _).bind fun _ => .pure none)
  exact lifts_block.bind fun b => (lifts_require _ _).bind fun _ => .pure (some b)

theorem lifts_funcDecl : Lifts funcDecl funcDecl := by
  refine (lifts_require _ _).bind fun opening => lifts_receiver.bind fun receiver => ?_
  refine (lifts_identifier _).bind fun name => ?_
  refine (lifts_signature lifts_maybeType true).bind fun sig => ?_
  exact lifts_body.bind fun body => (lifts_note _).bind fun _ => .pure _

theorem lifts_decl : Lifts decl decl := by
  refine lifts_peek.bind fun t => ?_
  split
  · exact lifts_funcDecl.map _
  · exact lifts_failAt _ _
  · exact lifts_failAt _ _
  · exact lifts_failAt _ _
  · exact lifts_problemAt _ _
  · exact lifts_unexpected _

theorem lifts_importName : Lifts importName? importName? := by
  refine lifts_peek.bind fun t => (lifts_consumeIf _).ite (.pure _) ?_
  exact (lifts_peekIs _).ite ((lifts_identifier _).bind fun name => .pure _) (.pure none)

theorem lifts_importSpec : Lifts importSpec importSpec := by
  refine lifts_peek.bind fun first => lifts_importName.bind fun name => ?_
  refine (lifts_require _ _).bind fun t => ?_
  exact (lifts_stringLit t).bind fun path => (lifts_note _).bind fun _ => .pure _

theorem lifts_importGroup : Lifts importGroup importGroup := by
  have hend : ∀ specs : List Import, Lifts
      (do let _ ← require .importEnd [.delimiter .semicolon]; return specs)
      (do let _ ← require .importEnd [.delimiter .semicolon]; return specs) :=
    fun specs => (lifts_require _ _).bind fun _ => .pure specs
  refine (lifts_consumeIf _).ite ?_ ((lifts_importSpec.map _).bind hend)
  refine (lifts_importSpec.termList _ _).bind fun specs => ?_
  exact (lifts_require _ _).bind fun _ => hend specs

theorem lifts_declsFor (k : Nat) : Lifts (declsFor k) (declsFor k) := by
  induction k with
  | zero => exact .pure []
  | succ k ih =>
    refine (lifts_consumeIf _).ite ih ((lifts_peekIs _).ite (.pure []) ?_)
    exact lifts_decl.bind fun d => ih.bind fun ds => .pure (d :: ds)

theorem lifts_file : Lifts file file := by
  refine (lifts_require _ _).bind fun opening => (lifts_identifier _).bind fun package => ?_
  refine (lifts_require _ _).bind fun _ => (lifts_note _).bind fun _ => ?_
  refine (lifts_importGroup.openedList _).bind fun imports => ?_
  exact (Lifts.bounded lifts_declsFor).bind fun decls => .pure _

theorem lifts_parse (rule : Rule) : Lifts rule.parse rule.parse := by
  cases rule with
  | file => exact lifts_file.map _
  | decl => exact lifts_decl.map _
  | func => exact lifts_funcDecl.map _
  | signature namesRequired => exact (lifts_signature lifts_maybeType namesRequired).map _
  | params namesRequired => exact (lifts_paramList lifts_maybeType namesRequired).map _
  | type => exact (lifts_required lifts_maybeType).map _
  | maybeType => exact lifts_maybeType.bind fun o => .pure _
  | expr => exact lifts_expr.map _
  | block => exact lifts_block.map _
  | ident => exact (lifts_identifier _).map _

end Parse

/-- What is seen of a call: what it gave, and the token it left in view. -/
def Call.shown (c : Call) : Except Error Tree × Token := (c.outcome, c.after.peek)

/-- The call ended for want of levels. -/
def Call.isTooDeep (c : Call) : Bool :=
  match c.outcome with
  | .ok _ => false
  | .error e => e.isTooDeep

namespace Parser

variable {p : Parser} {n : Nat}

theorem call_withLimit (hp : p.limit ≤ n) {rule : Rule} (h : (p.call rule).isTooDeep = false) :
    (p.withLimit n).call rule = ⟨(p.call rule).outcome, (p.call rule).after.withLimit n⟩ ∧
      (p.call rule).after.limit ≤ n := by
  have hend := Parse.lifts_parse rule p n hp
  unfold call at h ⊢
  generalize rule.parse p = r at hend h
  generalize rule.parse (p.withLimit n) = r' at hend
  cases hend with
  | ok hq => exact ⟨rfl, hq⟩
  | error hq => exact ⟨rfl, hq⟩
  | tooDeep he => exact absurd (he.symm.trans h) Bool.noConfusion

/-- Where a call ends is none of what tells whether it crashed. -/
theorem Call.isCrash_mk (c : Call) (q : Parser) : Call.isCrash ⟨c.outcome, q⟩ = c.isCrash := rfl

/-- Calls that all have levels enough give the same under every higher limit. -/
theorem session_withLimit (hp : p.limit ≤ n) {rules : List Rule}
    (h : ∀ c ∈ p.session rules, c.isTooDeep = false) :
    (p.withLimit n).session rules =
      (p.session rules).map fun c => ⟨c.outcome, c.after.withLimit n⟩ := by
  induction rules generalizing p with
  | nil => rfl
  | cons rule rules ih =>
    obtain ⟨hcall, hlimit⟩ := call_withLimit hp (h _ List.mem_cons_self)
    rw [session, session, hcall]
    cases hcrash : (p.call rule).isCrash with
    | true => simp only [Call.isCrash_mk, hcrash, if_true, List.map_cons, List.map_nil]
    | false =>
      have hrest := ih hlimit fun c hc => h c (mem_session_cons.2 (.inr ⟨hcrash, hc⟩))
      simp only [Call.isCrash_mk, hcrash, hrest, Bool.false_eq_true, if_false, List.map_cons]

/-- Which limit it is makes no difference for whether there is a parser, and what it starts with. -/
theorem ofFeed_withLimit (limit n : Nat) (file : String) (feed : Feed) :
    ofFeed n file feed = (ofFeed limit file feed).map (·.withLimit n) := by
  unfold ofFeed
  cases Lexer.ofFeed file feed with
  | error e => rfl
  | ok x =>
    change ofLexer n x = (ofLexer limit x).map (·.withLimit n)
    unfold ofLexer ofArrivals
    cases Arrival.ofLexer x with
    | nil => rfl
    | cons a ahead =>
      dsimp only
      cases a.outcome with
      | error e => rfl
      | ok t => rfl

end Parser
end GoSyntax
