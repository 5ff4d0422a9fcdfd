import GoSyntax.Proofs.Grammar.Arrivals
import GoSyntax.Proofs.Grammar.Limit
import GoSyntax.Proofs.Grammar.Composed

/-! The levels that rules open. Each is closed again, however the rule ends that it was opened for,
and never are more of them open than the limit allows. The parser's peak keeps how many there were at
most, so that what happens on a rule's way shows at its end. -/
namespace GoSyntax

namespace Parser

variable {p q r : Parser}

/-- What is left of levels at `q` by a run that began at `p`. -/
structure Balanced (p q : Parser) : Prop where
  /-- Every level that was opened is closed. -/
  depth : q.depth = p.depth
  limit : q.limit = p.limit
  rises : p.peak ≤ q.peak
  /-- On the way there were never more levels open than there may be. -/
  within : q.peak ≤ max p.peak p.limit

theorem Balanced.refl (p : Parser) : p.Balanced p := ⟨rfl, rfl, Nat.le_refl _, Nat.le_max_left _ _⟩

theorem Balanced.trans (h₁ : p.Balanced q) (h₂ : q.Balanced r) : p.Balanced r where
  depth := h₂.depth.trans h₁.depth
  limit := h₂.limit.trans h₁.limit
  rises := Nat.le_trans h₁.rises h₂.rises
  within := by
    have hwithin₁ := h₁.within
    have hwithin₂ := h₂.within
    rw [h₁.limit] at hwithin₂
    omega

/-- Closing the level behind a run for which one was left to be opened. -/
theorem Balanced.leave (h : p.depth < p.limit) (hq : p.enter.Balanced q) : p.Balanced q.leave where
  depth := by rw [leave_depth, hq.depth, enter_depth, Nat.add_sub_cancel]
  limit := hq.limit
  rises := Nat.le_trans (Nat.le_max_left _ _) hq.rises
  within := by
    have hwithin := hq.within
    rw [enter_peak, enter_limit] at hwithin
    rw [leave_peak]
    omega

end Parser

namespace Parse

open GoSyntax.Parser

variable {α : Type} {m : Parse α} {p : Parser}

/-- The parser that the rule leaves, in whichever way it ends. -/
def after (m : Parse α) (p : Parser) : Parser :=
  match m p with
  | .ok _ q | .error _ q => q

theorem after_of_ok {a : α} {q : Parser} (h : m p = .ok a q) : after m p = q := by rw [after, h]

theorem after_of_error {e : Error} {q : Parser} (h : m p = .error e q) : after m p = q := by
  rw [after, h]

/-- A level is closed behind the rule that it was opened for, even when the rule fails. -/
theorem after_nested (h : p.depth < p.limit) :
    after (nested m) p = (after m p.enter).leave := by
  simp only [after, nested, if_neg (Nat.not_le.2 h)]
  cases m p.enter <;> rfl

theorem Single.balanced (h : Single m) (p : Parser) : p.Balanced (after m p) := by
  cases h with
  | advance =>
    simp only [after, Parse.advance]
    cases p.ahead with
    | nil => exact ⟨rfl, rfl, Nat.le_refl _, Nat.le_max_left _ _⟩
    | cons a ahead =>
      dsimp only
      cases a.outcome <;> exact ⟨rfl, rfl, Nat.le_refl _, Nat.le_max_left _ _⟩
  | note e => exact ⟨rfl, rfl, Nat.le_refl _, Nat.le_max_left _ _⟩
  | _ => exact .refl p

theorem Composed.balanced (h : Composed m) (p : Parser) : p.Balanced (after m p) := by
  induction h generalizing p with
  | single h => exact h.balanced p
  | look h ih => exact ih p p
  | @bind α β m f hm hf ih ih' =>
    have hfirst := ih p
    cases hr : m p with
    | error e q =>
      rw [after_of_error hr] at hfirst
      rwa [after_of_error (bind_error hr f)]
    | ok a q =>
      rw [after_of_ok hr] at hfirst
      rw [after, bind_ok hr, ← after]
      exact hfirst.trans (ih' a q)
  | @nested α m hm ih =>
    by_cases hfull : p.limit ≤ p.depth
    · rw [after_of_error (nested_of_full hfull)]
      exact .refl p
    · have hlt := Nat.lt_of_not_le hfull
      rw [after_nested hlt]
      exact .leave hlt (ih p.enter)

/-- The peak leaves out no level that was opened. -/
theorem Composed.lt_peak (hm : Composed m) (h : p.depth < p.limit) :
    p.depth < (after (Parse.nested m) p).peak := by
  rw [after_nested h, leave_peak]
  exact Nat.le_trans (Nat.le_max_right _ _) (hm.balanced p.enter).rises

/-- If a level were opened where none is left, the peak would tell. -/
theorem Composed.not_balanced (hm : Composed m) (h : p.limit ≤ p.depth) (hp : p.peak ≤ p.limit) :
    ¬p.Balanced (after m p.enter).leave := by
  intro hleave
  have hrises := (hm.balanced p.enter).rises
  have hwithin := hleave.within
  rw [enter_peak] at hrises
  rw [leave_peak] at hwithin
  omega

/-- A rule that finds a type, in a grammar rule or called from outside. -/
inductive TypeFinder : Parse (Option TypeRef) → Prop
  | inner (room : Nat) : TypeFinder (typeRule room)
  | outer : TypeFinder type?

/-- The rules of the grammar, with whatever they are given. -/
inductive Production : {α : Type} → Parse α → Prop
  | called (rule : Rule) : Production rule.parse
  | expr (room : Nat) (goal : Expr.Goal) : Production (Expr.rule room goal)
  | binary (room least : Nat) : Production (Expr.binaryRule (Expr.rule room) least)
  | unary (room : Nat) : Production (Expr.unaryRule (Expr.rule room))
  | primary (room : Nat) : Production (Expr.primary (Expr.rule room))
  | postfixStep (room : Nat) (e : Expr) : Production (Expr.postfixStep (Expr.rule room) e)
  | operand (room : Nat) : Production (Expr.operand (Expr.rule room))
  | type {find} (h : TypeFinder find) : Production find
  | typeBody {find} (h : TypeFinder find) : Production (typeBody find)
  | namedType : Production namedType
  | parenType {find} (h : TypeFinder find) : Production (parenType find)
  | bracketType {find} (h : TypeFinder find) : Production (bracketType find)
  | mapType {find} (h : TypeFinder find) : Production (mapType find)
  | chanType {find} (h : TypeFinder find) : Production (chanType find)
  | structBody {find} (h : TypeFinder find) (start : Position) : Production (structBody find start)
  | fieldGroup {find} (h : TypeFinder find) : Production (fieldGroup find)
  | interfaceBody {find} (h : TypeFinder find) (start : Position) :
    Production (interfaceBody find start)
  | interfaceElem {find} (h : TypeFinder find) : Production (interfaceElem find)
  | signature {find} (h : TypeFinder find) (namesRequired : Bool) :
    Production (signature find namesRequired)
  | results {find} (h : TypeFinder find) : Production (results find)
  | paramList {find} (h : TypeFinder find) (namesRequired : Bool) :
    Production (paramList find namesRequired)
  | entry {find} (h : TypeFinder find) : Production (entry find)
  | blockTokens (start : Position) (opened rounds : Nat) :
    Production (blockTokensFor start opened rounds)
  | receiver : Production receiver?
  | body : Production body?
  | importSpec : Production importSpec
  | importGroup : Production importGroup
  | decls (rounds : Nat) : Production (declsFor rounds)

theorem TypeFinder.composed {find : Parse (Option TypeRef)} (h : TypeFinder find) :
    Composed find := by
  cases h with
  | inner room => exact composed_typeRule room
  | outer => exact composed_maybeType

theorem Production.composed (h : Production m) : Composed m := by
  cases h with
  | called rule => exact composed_parse rule
  | expr room goal => exact Expr.composed_rule room goal
  | binary room least => exact Expr.composed_binaryRule (Expr.composed_rule room) least
  | unary room => exact Expr.composed_unaryRule (Expr.composed_rule room)
  | primary room => exact Expr.composed_primary (Expr.composed_rule room)
  | postfixStep room e => exact Expr.composed_postfixStep (Expr.composed_rule room) e
  | operand room => exact Expr.composed_operand (Expr.composed_rule room)
  | type h => exact h.composed
  | typeBody h => exact composed_typeBody h.composed
  | namedType => exact composed_namedType
  | parenType h => exact composed_parenType h.composed
  | bracketType h => exact composed_bracketType h.composed
  | mapType h => exact composed_mapType h.composed
  | chanType h => exact composed_chanType h.composed
  | structBody h start => exact composed_structBody h.composed start
  | fieldGroup h => exact composed_fieldGroup h.composed
  | interfaceBody h start => exact composed_interfaceBody h.composed start
  | interfaceElem h => exact composed_interfaceElem h.composed
  | signature h namesRequired => exact composed_signature h.composed namesRequired
  | results h => exact composed_results h.composed
  | paramList h namesRequired => exact composed_paramList h.composed namesRequired
  | entry h => exact composed_entry h.composed
  | blockTokens start opened rounds => exact composed_blockTokensFor start opened rounds
  | receiver => exact composed_receiver
  | body => exact composed_body
  | importSpec => exact composed_importSpec
  | importGroup => exact composed_importGroup
  | decls rounds => exact composed_declsFor rounds

end Parse

namespace Parser

theorem peak_of_ofFeed {limit : Nat} {file : String} {feed : Feed} {p : Parser}
    (h : ofFeed limit file feed = .ok p) : p.peak = 0 := by
  unfold ofFeed at h
  cases hx : Lexer.ofFeed file feed with
  | error e => simp [hx, bind, Except.bind] at h
  | ok x =>
    simp only [hx, bind, Except.bind, ofLexer] at h
    cases ha : Arrival.ofLexer x with
    | nil =>
      rw [ha] at h
      cases h
      rfl
    | cons a ahead =>
      simp only [ha, ofArrivals] at h
      cases ho : a.outcome with
      | error e => simp [ho, Except.map] at h
      | ok t =>
        simp only [ho, Except.map, Except.ok.injEq] at h
        rw [← h]

theorem call_after (p : Parser) (rule : Rule) : (p.call rule).after = Parse.after rule.parse p := by
  rw [call, Parse.after]
  cases rule.parse p <;> rfl

/-- Every call of a session finds the levels that the first one found. -/
theorem balanced_session (p : Parser) (rules : List Rule) :
    ∀ c ∈ p.session rules, p.Balanced c.after := by
  induction rules generalizing p with
  | nil => simp [session]
  | cons rule rules ih =>
    have hcall : p.Balanced (p.call rule).after := by
      rw [call_after]
      exact (Parse.composed_parse rule).balanced p
    intro c hc
    obtain rfl | ⟨-, hc⟩ := mem_session_cons.1 hc
    · exact hcall
    · exact hcall.trans (ih _ c hc)

end Parser

/-- Levels are opened and closed in pairs, and never more of them than there may be. Called at any
place, every rule of the grammar leaves as many levels open as it found, whether it succeeds or
fails, and raises the peak to the limit at most; and the peak counts every level that is opened. So
every call on a parser finds all levels free, whatever the calls before it gave. -/
theorem levels_balanced :
    (∀ {α : Type} {m : Parse α}, Parse.Production m → ∀ p : Parser,
      p.Balanced (Parse.after m p) ∧
        (p.depth < p.limit → p.depth < (Parse.after (Parse.nested m) p).peak)) ∧
    ∀ (limit : Nat) (file : String) (feed : Feed) (p : Parser),
      Parser.ofFeed limit file feed = .ok p → ∀ rules : List Rule,
        ∀ q ∈ p :: (p.session rules).map Call.after,
          q.depth = 0 ∧ q.room = limit ∧ q.peak ≤ limit := by
  refine ⟨fun h p => ⟨h.composed.balanced p, h.composed.lt_peak⟩,
    fun limit file feed p hp rules q hq => ?_⟩
  obtain ⟨-, hdepth, hlimit⟩ := Parser.good_of_ofFeed hp
  have hpeak := Parser.peak_of_ofFeed hp
  have hlevel : p.Balanced q := by
    rcases List.mem_cons.1 hq with rfl | hq
    · exact .refl q
    · obtain ⟨c, hc, rfl⟩ := List.mem_map.1 hq
      exact p.balanced_session rules c hc
  obtain ⟨hdepth', hlimit', -, hwithin⟩ := hlevel
  rw [Parser.room]
  omega

/-- With three levels the type below is given up at its fourth parenthesis. The call leaves none of
them open, and so does the call that goes on from there. -/
theorem levels_balanced_parens :
    ∃ p, Parser.ofFeed 3 "a.go" (.ofText ['(', '(', '(', '(', 'a']) = .ok p ∧
      (p.call .type).isTooDeep = true ∧ p.Balanced (Parse.after Rule.type.parse p) ∧
      (p.call .type).after.peak = 3 ∧ ∀ c ∈ p.session [.type, .expr], c.after.room = 3 := by
  obtain ⟨p, hp⟩ : ∃ p, Parser.ofFeed 3 "a.go" (.ofText ['(', '(', '(', '(', 'a']) = .ok p :=
    ⟨_, rfl⟩
  have hrun : (Parser.ofFeed 3 "a.go" (.ofText ['(', '(', '(', '(', 'a'])).toOption.map
      (fun p => ((p.call .type).isTooDeep, (p.call .type).after.peak)) = some (true, 3) := by
    decide +kernel
  simp only [hp, Except.toOption, Option.map_some, Option.some.injEq, Prod.mk.injEq] at hrun
  obtain ⟨hrules, hcalls⟩ := levels_balanced
  have hfree := hcalls 3 "a.go" _ p hp [.type, .expr]
  refine ⟨p, hp, hrun.1, (hrules (.called .type) p).1, hrun.2, fun c hc => ?_⟩
  exact (hfree c.after (List.mem_cons_of_mem _ (List.mem_map_of_mem hc))).2.1

end GoSyntax
