import GoSyntax.Grammar.Session
import GoSyntax.Proofs.Grammar.FileSound

/-! No source, however it is delivered, leads a lexer or a parser to a defect, also when they are
called again and again behind errors: no internal error is met, and no cut misses its text. -/
namespace GoSyntax

namespace Lexer

/-- Steps taken one after the other, also behind errors, give proper tokens or flaws of the source. -/
theorem steps_proper {x : Lexer} {file : String} {feed : Feed} (h : ofFeed file feed = .ok x)
    (n : Nat) :
    ∀ s ∈ x.steps n, (∀ t, s.outcome = .ok t → t.Proper) ∧
      ∀ e, s.outcome = .error e → e.isStray = false := by
  intro s hs
  obtain ⟨hok, herr⟩ := sound_steps (sound_of_ofFeed h) n s hs
  exact ⟨fun t ht => (hok t ht).proper, fun e he => Error.isStray_of_lexical (herr e he)⟩

theorem ofFeed_error {file : String} {feed : Feed} {e : Error} (h : ofFeed file feed = .error e) :
    e.isStray = false := by
  unfold ofFeed at h
  split at h
  · cases h
  · cases h
    rfl

end Lexer

namespace Tree

/-- The tokens of the function bodies. -/
def tokens : Tree → List Token
  | file f => f.funcs.flatMap fun g => (g.body.map Block.tokens).getD []
  | decl (.func f) | func f => (f.body.map Block.tokens).getD []
  | block b => b.tokens
  | _ => []

/-- The tree can be read where so many more levels can be opened. -/
def Fits (room : Nat) : Tree → Prop
  | file f => f.Fits room
  | decl d => d.Fits room
  | func f => f.Fits room
  | signature s => Part.Fits room (.signature s)
  | params l => Part.Fits room (.params l)
  | type t => Part.Fits room (.type t)
  | expr e => Expr.Fits (.goal 1) room e
  | block b => b.Fits room
  | ident i => i.Lawful
  | nothing => True

variable {room : Nat}

theorem proper_of_block {b : Block} (h : b.Fits room) : ∀ t ∈ b.tokens, t.Proper := by
  intro t ht
  obtain ⟨-, hsemi | hs⟩ := h.tokens t ht
  · exact Token.Lawful.proper (Or.inl ⟨hsemi.1, Or.inr hsemi.2⟩)
  · exact Token.Lawful.proper (Or.inr hs)

theorem proper_of_func {f : FuncDecl} (h : f.Fits room) :
    ∀ t ∈ (f.body.map Block.tokens).getD [], t.Proper := by
  intro t ht
  cases hb : f.body with
  | none => simp [hb] at ht
  | some b =>
    simp only [hb, Option.map_some, Option.getD_some] at ht
    exact proper_of_block (h.body b hb) t ht

theorem Fits.proper {tree : Tree} (h : tree.Fits room) : ∀ t ∈ tree.tokens, t.Proper := by
  cases tree with
  | file f =>
    intro t ht
    obtain ⟨g, hg, htg⟩ := List.mem_flatMap.1 ht
    obtain ⟨⟨g'⟩, hd, rfl⟩ := List.mem_map.1 hg
    exact proper_of_func (h.decls (.func g') hd) t htg
  | decl d =>
    cases d with
    | func f => exact proper_of_func h
  | func f => exact proper_of_func h
  | block b => exact proper_of_block h
  | _ => simp [tokens]

end Tree

namespace Parser

open Parse

variable {p : Parser}

theorem sure_parse (hp : p.Good) (rule : Rule) : Sure rule.parse p fun t _ => t.Fits p.room := by
  cases rule with
  | file => exact (sure_file hp).map fun _ _ _ h => h
  | decl => exact (sure_decl hp).map fun _ _ _ h => h
  | func => exact (sure_funcDecl hp).map fun _ _ _ h => h
  | signature namesRequired =>
    exact (sure_signature finds_type hp namesRequired).map fun _ _ _ h => h.1
  | params namesRequired =>
    exact (sure_paramList finds_type hp namesRequired).map fun _ _ _ h => h.1
  | type => exact (sure_required finds_type hp).map fun _ _ _ h => h.fits
  | maybeType =>
    refine (finds_type p hp).bind fun r q hq hr => .pure hq.good ?_
    cases r with
    | none => trivial
    | some t => exact hr.fits
  | expr => exact (sure_expr hp).map fun _ _ _ h => h
  | block => exact (sure_block hp).map fun _ _ _ h => h
  | ident => exact (sure_ident hp _).map fun _ _ _ h => h.1

theorem kept_call (hp : p.Good) (rule : Rule) :
    ((p.call rule).isCrash = false → Kept p (p.call rule).after) ∧
      (∀ t, (p.call rule).outcome = .ok t → t.Fits p.room) ∧
      ∀ e, (p.call rule).outcome = .error e → e.isStray = false := by
  have h := sure_parse hp rule
  cases hr : rule.parse p with
  | ok t q =>
    obtain ⟨hkept, hfits⟩ := h.of_ok hr
    rw [show p.call rule = ⟨.ok t, q⟩ by simp only [call, hr]]
    refine ⟨fun _ => hkept, ?_, by simp⟩
    rintro _ ⟨⟩
    exact hfits
  | error e q =>
    obtain ⟨hkept, he⟩ := h.of_error hr
    rw [show p.call rule = ⟨.error e, q⟩ by simp only [call, hr]]
    refine ⟨hkept, by simp, ?_⟩
    rintro _ ⟨⟩
    exact he

/-- The parsers that calls lead to from the start of a source, whatever the calls gave. Behind a crash
there is none. -/
inductive Reachable : Parser → Prop
  | start {limit : Nat} {file : String} {feed : Feed} {p : Parser}
    (h : ofFeed limit file feed = .ok p) : Reachable p
  | call {p : Parser} (rule : Rule) (h : Reachable p) (hc : (p.call rule).isCrash = false) :
    Reachable (p.call rule).after

theorem Reachable.good (h : p.Reachable) : p.Good ∧ p.depth = 0 := by
  induction h with
  | start h =>
    obtain ⟨hp, hd, -⟩ := good_of_ofFeed h
    exact ⟨hp, hd⟩
  | call rule _ hc ih =>
    have hk := (kept_call ih.1 rule).1 hc
    exact ⟨hk.good, hk.depth.trans ih.2⟩

/-- Calls made in turn, also behind errors, lead to reachable parsers only. -/
theorem Reachable.session (h : p.Reachable) (rules : List Rule) :
    ∀ c ∈ p.session rules, (c.isCrash = false → c.after.Reachable) ∧
      (∀ t, c.outcome = .ok t → ∀ u ∈ t.tokens, u.Proper) ∧
      ∀ e, c.outcome = .error e → e.isStray = false := by
  induction rules generalizing p with
  | nil => simp [Parser.session]
  | cons rule rules ih =>
    intro c hc
    obtain rfl | ⟨hcrash, hc⟩ := mem_session_cons.1 hc
    · obtain ⟨-, hok, herr⟩ := kept_call h.good.1 rule
      exact ⟨.call rule h, fun t ht => (hok t ht).proper, herr⟩
    · exact ih (.call rule h hcrash) c hc

theorem ofFeed_error {limit : Nat} {file : String} {feed : Feed} {e : Error}
    (h : ofFeed limit file feed = .error e) : e.isStray = false := by
  unfold ofFeed at h
  cases hx : Lexer.ofFeed file feed with
  | error e' =>
    simp only [hx, bind, Except.bind, Except.error.injEq] at h
    rw [← h]
    exact Lexer.ofFeed_error hx
  | ok x =>
    simp only [hx, bind, Except.bind, ofLexer] at h
    have hall : ∀ a ∈ Arrival.ofLexer x, a.Sound := Arrival.sound_group [] fun u hu =>
      Lexer.sound_steps (Lexer.sound_of_ofFeed hx) _ u (Lexer.drainFor_prefix _ u hu)
    cases ha : Arrival.ofLexer x with
    | nil => simp [ofArrivals, ha] at h
    | cons a ahead =>
      cases ho : a.outcome with
      | ok t => simp [ofArrivals, ha, ho, Except.map] at h
      | error e' =>
        simp only [ofArrivals, ha, ho, Except.map, Except.error.injEq] at h
        rw [← h]
        exact Error.isStray_of_lexical ((hall a (by simp [ha])).error e' ho)

end Parser

/-- However a source is delivered and whatever is asked in turn, also behind errors: there are no
internal errors, nothing is cut or looked up where there is no such place, and every token that is
handed out, in view or in a function body carries the value that its kind asks for. -/
theorem no_defects (limit : Nat) (file : String) (feed : Feed) :
    (∀ e, Parser.ofFeed limit file feed = .error e →
      e.isInternal = false ∧ e.cause ≠ .crash .outOfRange) ∧
    (∀ p, Parser.ofFeed limit file feed = .ok p → p.peek.Proper ∧
      ∀ rules, ∀ c ∈ p.session rules, (c.isCrash = false → c.after.peek.Proper) ∧
        (∀ tree, c.outcome = .ok tree → ∀ t ∈ tree.tokens, t.Proper) ∧
        ∀ e, c.outcome = .error e → e.isInternal = false ∧ e.cause ≠ .crash .outOfRange) ∧
    (∀ e, Lexer.ofFeed file feed = .error e →
      e.isInternal = false ∧ e.cause ≠ .crash .outOfRange) ∧
    ∀ x, Lexer.ofFeed file feed = .ok x → ∀ n, ∀ s ∈ x.steps n,
      (∀ t, s.outcome = .ok t → t.Proper) ∧
        ∀ e, s.outcome = .error e → e.isInternal = false ∧ e.cause ≠ .crash .outOfRange := by
  refine ⟨fun e he => ?_, fun p hp => ?_, fun e he => ?_, fun x hx n s hs => ?_⟩
  · exact Error.isStray_iff.1 (Parser.ofFeed_error he)
  · have hr : p.Reachable := .start hp
    refine ⟨hr.good.1.peek.proper, fun rules c hc => ?_⟩
    obtain ⟨hafter, hok, herr⟩ := hr.session rules c hc
    exact ⟨fun h => (hafter h).good.1.peek.proper, hok, fun e he => Error.isStray_iff.1 (herr e he)⟩
  · exact Error.isStray_iff.1 (Lexer.ofFeed_error he)
  · obtain ⟨hok, herr⟩ := Lexer.steps_proper hx n s hs
    exact ⟨hok, fun e he => Error.isStray_iff.1 (herr e he)⟩

end GoSyntax
