import GoSyntax.Proofs.Grammar.Arrivals
import GoSyntax.Proofs.Grammar.FileTracks
import GoSyntax.Proofs.Grammar.Limit

/-! The limit on open rules. It cuts sources off and does nothing else, and a limit in proportion to
the tokens of a source cuts nothing off. -/
namespace GoSyntax

/-- How many tokens of a source the grammar sees before its end or its first error. -/
def Lexer.visibleCount (x : Lexer) : Nat := x.visibleTokens.countP (·.kind != .endOfFile)

theorem Lexer.Fresh.visibleCount_eq {x : Lexer} {ts : List Token} {stop : Except Error Token}
    (h : x.Fresh) (hl : x.Leads ts stop) (hn : ts.length < x.budget) :
    x.visibleCount = (ts.filterMap Token.visible?).length := by
  have hsolid : (ts.filterMap Token.visible?).countP (·.kind != .endOfFile) =
      (ts.filterMap Token.visible?).length := by
    refine List.countP_eq_length.2 fun v hv => ?_
    simpa using Token.solid_visible hl.solid v hv
  rw [visibleCount, h.visibleTokens_eq hl hn, List.countP_append, hsolid]
  cases stop with
  | error e => rfl
  | ok t => simp [Except.toOption, hl.stop_kind t rfl]

theorem Lexer.Leads.lexical {x : Lexer} {ts : List Token} {stop : Except Error Token}
    (hl : x.Leads ts stop) (h : x.Sound) : ∀ e, stop = .error e → e.cause.IsLexical := by
  induction hl with
  | last hstop _ =>
    rintro e rfl
    exact (sound_next h).2.2 e hstop
  | more _ _ _ ih => exact ih (sound_next h).1

/-- Three levels for each visible token, and three more, are enough for any rule. -/
theorem isTooDeep_call {file : String} {feed : Feed} {limit : Nat} {p : Parser} {x : Lexer}
    (hp : Parser.ofFeed limit file feed = .ok p) (hx : Lexer.ofFeed file feed = .ok x)
    (hlimit : 3 * (x.visibleCount + 1) ≤ limit) (rule : Rule) :
    (p.call rule).isTooDeep = false := by
  obtain ⟨-, hdepth, rfl⟩ := Parser.good_of_ofFeed hp
  obtain ⟨hfresh, -, -⟩ := Lexer.fresh_of_ofFeed hx
  obtain ⟨ts, stop, hl, hn⟩ := hfresh.exists_leads
  rw [hfresh.visibleCount_eq hl hn] at hlimit
  have hp : Parser.ofLexer p.limit x = .ok p := by
    simpa only [Parser.ofFeed, hx, bind, Except.bind] using hp
  -- Where errors are is of no interest here, only that no flaw is a want of levels.
  let o : Outlook := ⟨fun _ => True, fun e => e.cause.IsLexical⟩
  have hready : p.Ready o p.room 2 _ := Parser.ready_of_ofLexer hl hn hp (fun _ _ => trivial)
    (fun _ _ => trivial) (hl.lexical (Lexer.sound_of_ofFeed hx))
  have htracks := Parse.tracks_parse rule hready
  unfold Parser.call
  cases hr : rule.parse p with
  | ok t q => rfl
  | error e q =>
    rcases htracks.of_error hr with hflaw | ⟨-, -, hlevels⟩
    · rcases hflaw with ⟨c, hc⟩ | hc <;> simp [Call.isTooDeep, Error.isTooDeep, hc]
    · have hroom : p.room = p.limit := by rw [Parser.room, hdepth, Nat.sub_zero]
      refine Bool.eq_false_iff.2 fun hdeep => ?_
      have hlt := hlevels hdeep
      omega

/-- The limit only ever cuts sources off. Of two parsers on one source, the one with the higher
limit gives call by call what the other gives, and leaves the same token in view, for as long as the
other has levels enough; and it has, in a first call, if there are three of them for each token that
the grammar sees of the source, and three more. -/
theorem limit_only_cuts_off (file : String) (feed : Feed) {lower higher : Nat}
    (h : lower ≤ higher) :
    (∀ e, Parser.ofFeed lower file feed = .error e ↔ Parser.ofFeed higher file feed = .error e) ∧
    (∀ p, Parser.ofFeed lower file feed = .ok p →
      ∃ q, Parser.ofFeed higher file feed = .ok q ∧ q.peek = p.peek ∧
        ∀ rules, (∀ c ∈ p.session rules, c.isTooDeep = false) →
          (q.session rules).map Call.shown = (p.session rules).map Call.shown) ∧
    ∀ p x, Parser.ofFeed lower file feed = .ok p → Lexer.ofFeed file feed = .ok x →
      3 * (x.visibleCount + 1) ≤ lower → ∀ rule, (p.call rule).isTooDeep = false := by
  rw [Parser.ofFeed_withLimit lower higher]
  refine ⟨fun e => ?_, fun p hp => ?_, fun p x hp hx hlimit => isTooDeep_call hp hx hlimit⟩
  · cases Parser.ofFeed lower file feed with
    | ok p => simp [Except.map]
    | error d => simp [Except.map]
  · have hle : p.limit ≤ higher := by
      rw [(Parser.good_of_ofFeed hp).2.2]
      exact h
    refine ⟨p.withLimit higher, by rw [hp]; rfl, rfl, fun rules hrules => ?_⟩
    rw [Parser.session_withLimit hle hrules, List.map_map]
    rfl

/-- A pointer type has three tokens, a semicolon at the end included: with twelve levels it is read
as with any more of them. -/
theorem limit_only_cuts_off_pointer :
    ∃ p q, Parser.ofFeed 12 "a.go" (.ofText ['*', 'a']) = .ok p ∧
      Parser.ofFeed 128 "a.go" (.ofText ['*', 'a']) = .ok q ∧
      (p.call .type).isTooDeep = false ∧
      (q.session [.type]).map Call.shown = (p.session [.type]).map Call.shown := by
  obtain ⟨-, hsame, henough⟩ :=
    limit_only_cuts_off "a.go" (.ofText ['*', 'a']) (show 12 ≤ 128 by decide)
  obtain ⟨p, hp⟩ : ∃ p, Parser.ofFeed 12 "a.go" (.ofText ['*', 'a']) = .ok p := ⟨_, rfl⟩
  obtain ⟨x, hx, hcount⟩ : ∃ x, Lexer.ofFeed "a.go" (.ofText ['*', 'a']) = .ok x ∧
      x.visibleCount = 3 := ⟨_, rfl, rfl⟩
  obtain ⟨q, hq, -, hsession⟩ := hsame p hp
  have hdeep : (p.call .type).isTooDeep = false := henough p x hp hx (by omega) .type
  refine ⟨p, q, hp, hq, hdeep, hsession [.type] fun c hc => ?_⟩
  obtain rfl : c = p.call .type := by simpa [Parser.session] using hc
  exact hdeep

end GoSyntax
