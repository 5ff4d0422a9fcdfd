import GoSyntax.Proofs.Defects
import GoSyntax.Proofs.Lexer.Places

/-! Errors of the text itself, as a parser and as one who only asks for tokens meet them. -/
namespace GoSyntax

/-- An error of the grammar: the text is made of tokens, but they are not what can be read. -/
def Cause.IsGrammatical : Cause → Prop
  | .grammar _ | .unsupported _ | .tooDeep _ => True
  | .lexical _ | .defect _ | .crash _ => False

theorem Error.isGrammatical {e : Error} (hl : ¬e.cause.IsLexical) (hs : e.isStray = false) :
    e.cause.IsGrammatical := by
  obtain ⟨pos, cause⟩ := e
  cases cause with
  | lexical c => exact hl (.inl ⟨c, rfl⟩)
  | defect d => cases hs
  | crash c =>
    cases c with
    | overflow => exact hl (.inr rfl)
    | outOfRange => cases hs
  | _ => trivial

/-- A parser meets the first error of the text, or fails for a reason of its own at a place that is
not behind it. -/
theorem error_of_file {feed : Feed} {bytes : List UInt8} {file : String} {limit : Nat} {x : Lexer}
    {ts : List Token} {e : Error} {p : Parser} (hf : feed.octets = bytes.map .ok)
    (hlen : bytes.length < counterMax) (hx : Lexer.ofFeed file feed = .ok x)
    (hl : x.Leads ts (.error e)) (hn : ts.length < x.budget)
    (hp : Parser.ofFeed limit file feed = .ok p) :
    ∃ d q, Parse.file p = .error d q ∧ (d = e ∨ d.cause.IsGrammatical ∧ d.pos ≤ e.pos) := by
  obtain ⟨hgood, -, -⟩ := Parser.good_of_ofFeed hp
  have hp : Parser.ofLexer limit x = .ok p := by
    simpa only [Parser.ofFeed, hx, bind, Except.bind] using hp
  cases hr : Parse.file p with
  | ok f q =>
    obtain ⟨⟨t, ht⟩, -⟩ := Parser.written_of_file hl hn hp hgood hr
    cases ht
  | error d q =>
    refine ⟨d, q, rfl, ?_⟩
    have hbefore := (Lexer.placed_of_ofFeed hf hlen hx hl).2 e rfl
    have hvisible : ∀ v ∈ ts.filterMap Token.visible?, v.pos ≤ e.pos := by
      intro v hv
      obtain ⟨t, ht, hvis⟩ := List.mem_filterMap.1 hv
      rw [(Token.place_visible hvis).1]
      exact hbefore t ht
    have hready : p.Ready ⟨(· ≤ e.pos), (· = e)⟩ p.room 2 _ :=
      Parser.ready_of_ofLexer hl hn hp hvisible (by simp) (by rintro _ ⟨⟩; rfl)
    obtain ⟨-, hstray⟩ := (Parse.sure_file hgood).of_error hr
    rcases (Parse.tracks_file hready).of_error hr with hsame | ⟨hpos, hcause, -⟩
    · exact .inl hsame
    · exact .inr ⟨Error.isGrammatical hcause hstray, hpos⟩

/-- Reading a text fails where asking for its tokens fails. -/
theorem parseText_of_tokenize_error (limit : Nat) {file : String} {s : Text} {e : Error}
    (hlen : s.byteLength < counterMax) (he : tokenize file s = .error e) :
    ∃ d, parseText limit file s = .error d ∧
      (d = e ∨ d.cause.IsGrammatical ∧ d.pos ≤ e.pos) := by
  have hf : (Feed.ofText s).octets = (Text.encode s).map .ok := Feed.octets_ofBytes _
  unfold tokenize Lexer.ofText at he
  cases hx : Lexer.ofFeed file (.ofText s) with
  | error d =>
    -- no lexer, hence no parser: the source fails at its first character
    refine ⟨d, ?_, .inl ?_⟩
    · simp [parseText, Parser.ofText, Parser.ofFeed, hx, bind, Except.bind]
    · simpa [hx, bind, Except.bind] using he
  | ok x =>
    obtain ⟨hfresh, -, -⟩ := Lexer.fresh_of_ofFeed hx
    obtain ⟨ts, stop, hl, hn⟩ := hfresh.exists_leads
    have htokens : x.tokens = .error e := by simpa [hx, bind, Except.bind] using he
    obtain rfl : stop = .error e := by
      rw [hfresh.tokens_eq hl hn] at htokens
      cases stop with
      | ok t => cases htokens
      | error d => rw [Except.error.inj htokens]
    cases hp : Parser.ofFeed limit file (.ofText s) with
    | error d =>
      refine ⟨d, by simp [parseText, Parser.ofText, hp, bind, Except.bind], .inl ?_⟩
      have hp : Parser.ofLexer limit x = .error d := by
        simpa only [Parser.ofFeed, hx, bind, Except.bind] using hp
      exact (Except.error.inj (Parser.ofLexer_of_error hl hn hp)).symm
    | ok p =>
      rw [← Text.length_encode] at hlen
      obtain ⟨d, q, hd, hdiag⟩ := error_of_file hf hlen hx hl hn hp
      refine ⟨d, ?_, hdiag⟩
      simp only [parseText, Parser.ofText, hp, hd, bind, Except.bind]
      rfl

/-- A text that can be read is made of tokens. One that is not, because of an error, cannot be read:
that error is reported, or one of the grammar at a place that is not behind it. -/
theorem reading_meets_lexical_errors (limit : Nat) (file : String) {s : Text}
    (hlen : s.byteLength < counterMax) :
    (∀ f, parseText limit file s = .ok f → ∃ ts, tokenize file s = .ok ts) ∧
      ∀ e, tokenize file s = .error e → ∃ d, parseText limit file s = .error d ∧
        (d = e ∨ d.cause.IsGrammatical ∧ d.pos ≤ e.pos) := by
  refine ⟨fun f hparse => ?_, fun e he => parseText_of_tokenize_error limit hlen he⟩
  cases ht : tokenize file s with
  | ok ts => exact ⟨ts, rfl⟩
  | error e =>
    obtain ⟨d, hd, -⟩ := parseText_of_tokenize_error limit hlen ht
    rw [hparse] at hd
    cases hd

/-- A name where a package clause should be, and behind it a character that is in no token: the
grammar fails at the name, in front of the character. -/
theorem reading_meets_lexical_errors_stray :
    ∃ e d, tokenize "a.go" ['a', ' ', '$'] = .error e ∧
      parseText 8 "a.go" ['a', ' ', '$'] = .error d ∧ d ≠ e ∧ d.cause.IsGrammatical ∧
        d.pos ≤ e.pos := by
  obtain ⟨-, herror⟩ := reading_meets_lexical_errors 8 "a.go" (s := ['a', ' ', '$']) (by decide)
  obtain ⟨e, he, hpos⟩ : ∃ e, tokenize "a.go" ['a', ' ', '$'] = .error e ∧ e.pos = ⟨"a.go", 1, 3⟩ :=
    ⟨_, rfl, rfl⟩
  obtain ⟨d, hd, hdpos⟩ : ∃ d, parseText 8 "a.go" ['a', ' ', '$'] = .error d ∧
      d.pos = ⟨"a.go", 1, 1⟩ := ⟨_, rfl, rfl⟩
  have hne : d ≠ e := by
    rintro rfl
    rw [hpos] at hdpos
    cases hdpos
  obtain ⟨d', hd', hsame | hgrammar⟩ := herror e he
  · cases hd.symm.trans hd'
    exact absurd hsame hne
  · cases hd.symm.trans hd'
    exact ⟨e, d, he, hd, hne, hgrammar⟩

end GoSyntax
