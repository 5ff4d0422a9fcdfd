import GoSyntax.Proofs.Grammar.Runs
import GoSyntax.Proofs.Grammar.Spelling

/-! What a rule is sure to give where it is known which words come. -/
namespace GoSyntax

namespace Parser

/-- What is left from the first flaw on. -/
def beyond (p : Parser) : List (Except Error Token) :=
  (p.ahead.map Arrival.outcome).dropWhile Except.isOk

/-- The words from the token in view on, up to the first flaw. -/
def Holds (p : Parser) (ws : List Word) : Prop :=
  ∃ ts : List Token, p.ahead.map Arrival.outcome = ts.map .ok ++ p.beyond ∧
    p.peek.word :: ts.map Token.word = ws

variable {p q : Parser} {w : Word} {ws : List Word}

theorem Holds.peek (h : p.Holds (w :: ws)) : p.peek.word = w := by
  obtain ⟨ts, -, hw⟩ := h
  exact (List.cons.inj hw).1

theorem kind_word (t : Token) : t.word.kind = t.kind := by
  unfold Token.word
  split
  · rename_i h
    rw [h]
    rfl
  · rfl

theorem Holds.kind (h : p.Holds (w :: ws)) : p.peek.kind = w.kind := by
  rw [← h.peek, kind_word]

theorem Holds.length (h : p.Holds ws) : p.ahead.length + 1 = ws.length + p.beyond.length := by
  obtain ⟨ts, hts, rfl⟩ := h
  have hlen := congrArg List.length hts
  simp only [List.length_map, List.length_append] at hlen
  simp only [hlen, List.length_cons, List.length_map]
  omega

theorem Holds.ahead (h : p.Holds (w :: ws)) (hne : ws ≠ []) : p.ahead ≠ [] := by
  intro ha
  obtain ⟨ts, hts, hw⟩ := h
  rw [ha, List.map_nil, eq_comm, List.append_eq_nil_iff] at hts
  rw [List.map_eq_nil_iff.1 hts.1] at hw
  exact hne (List.cons.inj hw).2.symm

/-- A token that is taken is none of those behind a flaw. -/
theorem beyond_advance {t : Token} (hne : p.ahead ≠ []) (h : Parse.advance p = .ok t q) :
    q.beyond = p.beyond := by
  unfold Parse.advance at h
  obtain ⟨a, ahead, ha⟩ := List.exists_cons_of_ne_nil hne
  simp only [ha] at h
  cases ho : a.outcome with
  | error e => simp [ho] at h
  | ok u =>
    simp only [ho] at h
    cases h
    simp only [beyond, ha, List.map_cons, ho]
    rfl

theorem Holds.advance (h : p.Holds (w :: ws)) (hne : ws ≠ []) :
    ∃ q, Parse.advance p = .ok p.peek q ∧ q.Holds ws ∧ q.depth = p.depth ∧ q.limit = p.limit := by
  obtain ⟨ts, hts, hw⟩ := h
  obtain ⟨-, rfl⟩ := List.cons.inj hw
  cases ts with
  | nil => exact absurd rfl hne
  | cons t ts =>
    cases ha : p.ahead with
    | nil => simp [ha] at hts
    | cons a ahead =>
      simp only [ha, List.map_cons, List.cons_append, List.cons.injEq] at hts
      have hadvance : Parse.advance p = .ok p.peek
          { p with ahead, peek := t, drained := a.drained, log := a.events.reverse ++ p.log } := by
        simp only [Parse.advance, ha, hts.1]
      refine ⟨_, hadvance, ⟨ts, ?_, rfl⟩, rfl, rfl⟩
      rw [hts.2, ← beyond_advance (by simp [ha]) hadvance]

end Parser

theorem Arrival.outcome_group {steps : List Step} {ts : List Token} (passed : List Token)
    (h : steps.map Step.outcome = ts.map .ok) :
    (group passed steps).map outcome = (ts.filterMap Token.visible?).map .ok := by
  induction steps generalizing ts passed with
  | nil =>
    cases ts with
    | nil => rfl
    | cons t ts => cases h
  | cons s steps ih =>
    cases ts with
    | nil => cases h
    | cons t ts =>
      obtain ⟨outcome, after⟩ := s
      simp only [List.map_cons, List.cons.injEq] at h
      obtain ⟨rfl, hrest⟩ := h
      cases hv : t.visible? with
      | none =>
        simp only [group, hv]
        rw [List.filterMap_cons_none hv]
        exact ih _ hrest
      | some v =>
        simp only [group, hv, List.map_cons]
        rw [List.filterMap_cons_some hv, List.map_cons, ih _ hrest]

/-- What arrives from a lexer that meets no error: its tokens, as far as they are visible. -/
theorem Parser.exists_ofLexer {x : Lexer} {ts : List Token} (h : x.Fresh) (hy : x.Yields ts)
    (limit : Nat) : ∃ p, ofLexer limit x = .ok p ∧
      p.stream = (ts.filterMap Token.visible?).map .ok ∧ p.depth = 0 ∧ p.limit = limit := by
  have harrivals : (Arrival.ofLexer x).map Arrival.outcome =
      (ts.filterMap Token.visible?).map .ok := Arrival.outcome_group [] (h.drain hy)
  obtain ⟨t, hlast, hk⟩ := hy.exists_last
  have hmem : t ∈ ts.filterMap Token.visible? :=
    List.mem_filterMap.2 ⟨t, List.mem_of_getLast? hlast, Token.visible?_endOfFile hk⟩
  obtain ⟨v, vs, hvs⟩ := List.exists_cons_of_ne_nil (List.ne_nil_of_mem hmem)
  rw [hvs] at harrivals ⊢
  obtain ⟨a, ahead, has, ha, hahead⟩ := List.map_eq_cons_iff.1 harrivals
  refine ⟨⟨ahead, v, a.drained, 0, limit, 0, a.events.reverse⟩, ?_, ?_, rfl, rfl⟩
  · simp only [ofLexer, has, ofArrivals, ha, Except.map]
  · rw [stream, hahead]
    rfl

/-- A parser at the start of a source without lexical errors. -/
theorem Parser.exists_ofFeed {file : String} {feed : Feed} {x : Lexer} {ts : List Token}
    (hx : Lexer.ofFeed file feed = .ok x) (ht : x.tokens = .ok ts) (limit : Nat) :
    ∃ p, Parser.ofFeed limit file feed = .ok p ∧
      p.stream = (ts.filterMap Token.visible?).map .ok ∧ p.depth = 0 ∧ p.limit = limit := by
  obtain ⟨hfresh, -, -⟩ := Lexer.fresh_of_ofFeed hx
  obtain ⟨p, hp, hstream, hdepth, hlimit⟩ := Parser.exists_ofLexer hfresh (hfresh.yields ht) limit
  refine ⟨p, ?_, hstream, hdepth, hlimit⟩
  simp only [Parser.ofFeed, hx, bind, Except.bind, hp]

/-- What arrives of a spelled text: its words, and the end of the source. -/
theorem Spells.stream {elides : Bool} {s : Text} {ws : List Word} (h : Spells false s ws elides [])
    (limit : Nat) (file : String) : ∃ p us ts, Parser.ofText limit file s = .ok p ∧
      p.stream = (us ++ ts).map .ok ∧ us.map Token.word = ws ∧ Ending elides ts ∧
      p.depth = 0 ∧ p.limit = limit := by
  have hlexer := Lexer.ofText_clean file (h.clean (by simp))
  obtain ⟨us, ts, hyields, hwords, hend⟩ :=
    h.yields (Lexer.at_start file s) fun y hy => hy.yields_end
  have hfresh : Lexer.Fresh ⟨⟨s, [], .origin file⟩, false, none, [], 0, false⟩ := ⟨rfl, rfl, rfl, rfl⟩
  obtain ⟨p, hp, hstream, hdepth, hlimit⟩ := Parser.exists_ofLexer hfresh hyields limit
  rw [List.filterMap_append] at hstream
  refine ⟨p, _, _, ?_, hstream, hwords, hend, hdepth, hlimit⟩
  rw [Lexer.ofText] at hlexer
  simp only [Parser.ofText, Parser.ofFeed, hlexer, bind, Except.bind]
  exact hp

/-- Tokens that have arrived before a flaw, or before nothing more, are what a parser holds. -/
theorem Parser.holds_of_stream {p : Parser} {ts : List Token} {rest : List (Except Error Token)}
    (h : p.stream = ts.map .ok ++ rest) (hne : ts ≠ [])
    (hrest : rest.dropWhile Except.isOk = rest) :
    p.Holds (ts.map Token.word) ∧ p.beyond = rest := by
  obtain ⟨t, ts, rfl⟩ := List.exists_cons_of_ne_nil hne
  simp only [Parser.stream, List.map_cons, List.cons_append, List.cons.injEq, Except.ok.injEq] at h
  have hbeyond : p.beyond = rest := by
    rw [beyond, h.2, List.dropWhile_append_of_pos, hrest]
    intro x hx
    obtain ⟨u, -, rfl⟩ := List.mem_map.1 hx
    rfl
  exact ⟨⟨ts, by rw [h.2, hbeyond], by rw [h.1]; rfl⟩, hbeyond⟩

/-- A parser at the start of a spelled text holds its words. -/
theorem Spells.holds {elides : Bool} {s : Text} {ws : List Word} (h : Spells false s ws elides [])
    (limit : Nat) (file : String) : ∃ p, Parser.ofText limit file s = .ok p ∧
      p.Holds (ws ++ endWords elides) ∧ p.depth = 0 ∧ p.limit = limit := by
  obtain ⟨p, us, ts, hp, hstream, rfl, hend, hdepth, hlimit⟩ := h.stream limit file
  refine ⟨p, hp, ?_, hdepth, hlimit⟩
  rw [← hend.words, ← List.map_append]
  rw [← List.append_nil (List.map _ _)] at hstream
  refine (Parser.holds_of_stream hstream ?_ rfl).1
  intro hnil
  rw [hnil] at hstream
  cases hstream

namespace Parse

open GoSyntax.Parser

/-- From `p` a rule has come to the words at `q`, at the depth it started from. -/
structure Reaches (p q : Parser) (ws : List Word) : Prop where
  holds : q.Holds ws
  depth : q.depth = p.depth
  limit : q.limit = p.limit
  beyond : q.beyond = p.beyond

variable {α β σ : Type} {m : Parse α} {f : α → Parse β} {p q r : Parser} {w : Word}
  {ws ws' : List Word} {P P' : α → Prop} {R : β → Prop}

theorem Reaches.refl (h : p.Holds ws) : Reaches p p ws := ⟨h, rfl, rfl, rfl⟩

theorem Reaches.trans (h : Reaches p q ws) (h' : Reaches q r ws') : Reaches p r ws' :=
  ⟨h'.holds, h'.depth.trans h.depth, h'.limit.trans h.limit, h'.beyond.trans h.beyond⟩

theorem Reaches.room (h : Reaches p q ws) : q.room = p.room := by
  rw [Parser.room, Parser.room, h.depth, h.limit]

/-- The rule succeeds at `p` with a result that `P` holds of, and leaves the words. -/
def Gives (m : Parse α) (p : Parser) (P : α → Prop) (ws : List Word) : Prop :=
  ∃ a q, m p = .ok a q ∧ P a ∧ Reaches p q ws

theorem Gives.mono (h : Gives m p P ws) (hP : ∀ a, P a → P' a) : Gives m p P' ws := by
  obtain ⟨a, q, hm, ha, hq⟩ := h
  exact ⟨a, q, hm, hP a ha, hq⟩

theorem Gives.congr {m' : Parse α} (h : m p = m' p) (hm : Gives m' p P ws) : Gives m p P ws := by
  obtain ⟨a, q, hm, ha, hq⟩ := hm
  exact ⟨a, q, h.trans hm, ha, hq⟩

theorem Gives.pure {a : α} (hp : p.Holds ws) (h : P a) : Gives (pure a) p P ws :=
  ⟨a, p, rfl, h, .refl hp⟩

theorem Gives.bind (hm : Gives m p P ws)
    (hf : ∀ a q, P a → Reaches p q ws → Gives (f a) q R ws') : Gives (m >>= f) p R ws' := by
  obtain ⟨a, q, hm, ha, hq⟩ := hm
  obtain ⟨b, r, hfa, hb, hr⟩ := hf a q ha hq
  exact ⟨b, r, (bind_ok hm f).trans hfa, hb, hq.trans hr⟩

theorem Gives.map {g : α → β} (hm : Gives m p P ws) (hg : ∀ a, P a → R (g a)) :
    Gives (g <$> m) p R ws := by
  rw [map_eq_pure_bind]
  exact hm.bind fun a q ha hq => .pure hq.holds (hg a ha)

theorem gives_peek (h : p.Holds (w :: ws)) : Gives peek p (fun t => t.word = w) (w :: ws) :=
  ⟨p.peek, p, rfl, h.peek, .refl h⟩

theorem gives_look (h : p.Holds ws) : Gives peek p (fun _ => True) ws :=
  ⟨p.peek, p, rfl, trivial, .refl h⟩

theorem gives_peekIs (h : p.Holds (w :: ws)) (kind : Kind) :
    Gives (peekIs kind) p (fun b => b = (w.kind == kind)) (w :: ws) :=
  ⟨_, p, rfl, by rw [h.kind], .refl h⟩

theorem gives_note (h : p.Holds ws) (e : Event) : Gives (note e) p (fun _ => True) ws :=
  ⟨(), { p with log := e :: p.log }, rfl, trivial, h, rfl, rfl, rfl⟩

theorem gives_advance (h : p.Holds (w :: ws)) (hne : ws ≠ []) :
    Gives advance p (fun t => t.word = w) ws := by
  obtain ⟨q, hq, hholds, hdepth, hlimit⟩ := h.advance hne
  exact ⟨p.peek, q, hq, h.peek, hholds, hdepth, hlimit, beyond_advance (h.ahead hne) hq⟩

theorem gives_consumeIf_true {kind : Kind} (h : p.Holds (w :: ws)) (hne : ws ≠ [])
    (hk : w.kind = kind) : Gives (consumeIf kind) p (fun b => b = true) ws := by
  obtain ⟨_, q, hq, -, hreach⟩ := gives_advance h hne
  exact ⟨true, q, consumeIf_of_eq (h.kind.trans hk) hq, rfl, hreach⟩

theorem gives_consumeIf_false {kind : Kind} (h : p.Holds (w :: ws)) (hk : w.kind ≠ kind) :
    Gives (consumeIf kind) p (fun b => b = false) (w :: ws) :=
  ⟨false, p, consumeIf_of_ne (by rwa [h.kind]), rfl, .refl h⟩

theorem gives_require {kinds : List Kind} (wanted : Expected) (h : p.Holds (w :: ws)) (hne : ws ≠ [])
    (hk : w.kind ∈ kinds) : Gives (require wanted kinds) p (fun t => t.word = w) ws :=
  .congr (require_of_mem wanted (by rwa [h.kind])) (gives_advance h hne)

theorem word_eq {t : Token} (h : t.word = w) (hk : w.kind ≠ .delimiter .semicolon) :
    t.kind = w.kind ∧ t.text = w.text ∧ t.value = w.value := by
  have hkind : t.kind = w.kind := by rw [← h, kind_word]
  unfold Token.word at h
  rw [if_neg (by rwa [hkind])] at h
  rw [← h]
  exact ⟨rfl, rfl, rfl⟩

theorem gives_identifier {name : Text} (wanted : Expected)
    (h : p.Holds (.identifier name :: ws)) (hne : ws ≠ []) :
    Gives (identifier wanted) p (fun i => i.name = name) ws :=
  (gives_require wanted h hne (by simp)).map fun t ht =>
    (word_eq ht (by simp)).2.1

theorem Gives.nested (hd : 1 ≤ p.room) (h : Gives m p.enter P ws) :
    Gives (nested m) p P ws := by
  obtain ⟨a, q, hm, ha, hq⟩ := h
  have hlt : p.depth < p.limit := by
    rw [Parser.room] at hd
    omega
  refine ⟨a, q.leave, nested_of_ok hlt hm, ha, hq.holds, ?_, hq.limit,
    hq.beyond⟩
  show q.depth - 1 = p.depth
  rw [hq.depth]
  exact Nat.add_sub_cancel p.depth 1

theorem length_lt {vs us : List Word} (hp : p.Holds (w :: us ++ vs)) (hq : Reaches p q vs) :
    q.ahead.length < p.ahead.length := by
  have h₁ := hp.length
  have h₂ := hq.holds.length
  rw [hq.beyond] at h₂
  simp only [List.cons_append, List.length_cons, List.length_append] at h₁
  omega

/-- A place to read the words from, where at least `s` levels can be opened and `room` is more than
enough to count them down. -/
structure Ready (s room : Nat) (p : Parser) (ws : List Word) : Prop where
  fuel : p.room ≤ room
  deep : s ≤ p.room
  holds : p.Holds ws

section Ready

variable {s room : Nat}

theorem Ready.of_reaches (h : Ready s room p ws) (hq : Reaches p q ws') : Ready s room q ws' :=
  ⟨by rw [hq.room]; exact h.fuel, by rw [hq.room]; exact h.deep, hq.holds⟩

/-- One level deeper there is one level less to open. -/
theorem Ready.deeper (h : Ready (s + 1) (room + 1) p ws) :
    Ready s room p.enter ws := by
  have hfuel := h.fuel
  have hdeep := h.deep
  refine ⟨?_, ?_, h.holds⟩ <;>
    simp only [Parser.room, Parser.enter_depth, Parser.enter_limit] at hfuel hdeep ⊢ <;> omega

theorem Ready.inside (h : Ready (s + 1) room p ws) :
    Ready s room p.enter ws := by
  have hfuel := h.fuel
  have hdeep := h.deep
  refine ⟨?_, ?_, h.holds⟩ <;>
    simp only [Parser.room, Parser.enter_depth, Parser.enter_limit] at hfuel hdeep ⊢ <;> omega

theorem Ready.exists_room (h : Ready (s + 1) room p ws) : ∃ room', room = room' + 1 := by
  have hfuel := h.fuel
  have hdeep := h.deep
  exact ⟨room - 1, by omega⟩

end Ready

theorem exists_pairs {γ δ : Type} {Q : γ → δ → Prop} {l : List γ} (h : ∀ a ∈ l, ∃ b, Q a b) :
    ∃ pairs : List (γ × δ), pairs.map Prod.fst = l ∧ ∀ i ∈ pairs, Q i.1 i.2 := by
  induction l with
  | nil => exact ⟨[], rfl, by simp⟩
  | cons a l ih =>
    obtain ⟨b, hb⟩ := h a List.mem_cons_self
    obtain ⟨pairs, hfst, hall⟩ := ih fun c hc => h c (List.mem_cons_of_mem _ hc)
    refine ⟨(a, b) :: pairs, by simp [hfst], ?_⟩
    intro i hi
    rcases List.mem_cons.1 hi with rfl | hi
    · exact hb
    · exact hall i hi

/-- What is expected of an item: its words, and what is left of it without positions. -/
abbrev Expectation (γ : Type) := List Word × γ

section Lists

variable {γ : Type} {item : Parse α} {g : α → γ} {stop : Kind}

/-- From `p` on the item meets the expectation before every word of a kind in `ends`, and it does not
open with `stop`. -/
def Meets (item : Parse α) (g : α → γ) (p : Parser) (stop : Kind) (ends : List Kind)
    (i : Expectation γ) : Prop :=
  ∃ w ws, i.1 = w :: ws ∧ w.kind ≠ stop ∧ ∀ q r rs, Reaches p q (w :: ws ++ r :: rs) →
    r.kind ∈ ends → Gives item q (fun a => g a = i.2) (r :: rs)

theorem Gives.commaListFor {items : List (Expectation γ)} {l : List (List Word)} {us : List Word}
    {n : Nat} (hs : Separated (.delimiter .comma) l us) (hl : items.map Prod.fst = l)
    (hn : items.length < n) (hq : Reaches p q (us ++ w :: ws)) (hw : w.kind = stop)
    (hstop : stop ≠ .delimiter .comma)
    (hi : ∀ i ∈ items, Meets item g p stop [.delimiter .comma, stop] i) :
    Gives (commaListFor stop item n) q (fun l => l.map g = items.map Prod.snd) (w :: ws) := by
  obtain ⟨n, rfl⟩ : ∃ n', n = n' + 1 := ⟨n - 1, by omega⟩
  induction hs generalizing q n items with
  | nil =>
    obtain rfl := List.map_eq_nil_iff.1 hl
    refine (gives_peekIs hq.holds stop).bind ?_
    rintro _ q₁ rfl h₁
    rw [if_pos (by simpa using hw)]
    exact .pure h₁.holds rfl
  | last us =>
    obtain ⟨i, rfl, rfl⟩ := List.map_eq_singleton_iff.1 hl
    obtain ⟨v, vs, hv, hne, hitem⟩ := hi i List.mem_cons_self
    rw [hv] at hq
    refine (gives_peekIs hq.holds stop).bind ?_
    rintro _ q₁ rfl h₁
    rw [if_neg (by simpa using hne)]
    refine (hitem q₁ w ws (hq.trans h₁) (by simp [hw])).bind fun a q₂ ha h₂ => ?_
    refine (gives_consumeIf_false h₂.holds (by rwa [hw])).bind ?_
    rintro _ q₃ rfl h₃
    exact .pure h₃.holds (by simpa using ha)
  | @cons us _ us' _ ih =>
    obtain ⟨i, items, rfl, rfl, hitems⟩ := List.map_eq_cons_iff.1 hl
    obtain ⟨v, vs, hv, hne, hitem⟩ := hi i List.mem_cons_self
    replace hq : Reaches p q (v :: vs ++ .delimiter .comma :: (us' ++ w :: ws)) := by
      simpa [hv] using hq
    refine (gives_peekIs hq.holds stop).bind ?_
    rintro _ q₁ rfl h₁
    rw [if_neg (by simpa using hne)]
    refine (hitem q₁ _ _ (hq.trans h₁) (by simp)).bind fun a q₂ ha h₂ => ?_
    have hnext : us' ++ w :: ws ≠ [] := by simp
    refine (gives_consumeIf_true h₂.holds hnext rfl).bind ?_
    rintro _ q₃ rfl h₃
    obtain ⟨n, rfl⟩ : ∃ n', n = n' + 1 := ⟨n - 1, by simp at hn; omega⟩
    have hrest := ih hitems (((hq.trans h₁).trans h₂).trans h₃)
      (fun k hk => hi k (List.mem_cons_of_mem _ hk)) n (by simpa using hn)
    refine hrest.bind fun l q₄ hl h₄ => .pure h₄.holds ?_
    rw [List.map_cons, List.map_cons, ha, hl]

/-- A terminator is a semicolon, or the end of the list that stays in view. -/
theorem gives_terminator {wanted : Expected} (h : p.Holds (w :: ws))
    (hw : w.kind = .delimiter .rparen ∨ w.kind = .delimiter .rbrace) :
    Gives (terminator wanted) p (fun _ => True) (w :: ws) := by
  refine (gives_peek h).bind fun t q₁ ht h₁ => ?_
  have hk : t.kind = w.kind := by rw [← ht, kind_word]
  rw [if_pos (by rcases hw with hw | hw <;> simp [hk, hw])]
  exact .pure h₁.holds trivial

theorem gives_semicolon {wanted : Expected} (h : p.Holds (.delimiter .semicolon :: ws))
    (hne : ws ≠ []) : Gives (terminator wanted) p (fun _ => True) ws := by
  refine (gives_peek h).bind fun t q₁ ht h₁ => ?_
  have hk : t.kind = .delimiter .semicolon := by rw [← kind_word, ht]; rfl
  rw [if_neg (by simp [hk])]
  exact (gives_require _ h₁.holds hne (by simp)).bind fun _ q₂ _ h₂ => .pure h₂.holds trivial

theorem Gives.termListFor {items : List (Expectation γ)} {l : List (List Word)} {us : List Word}
    {n : Nat} {wanted : Expected} (hs : Separated (.delimiter .semicolon) l us)
    (hl : items.map Prod.fst = l) (hn : items.length < n) (hq : Reaches p q (us ++ w :: ws))
    (hw : w.kind = stop) (hstop : stop = .delimiter .rparen ∨ stop = .delimiter .rbrace)
    (hi : ∀ i ∈ items, Meets item g p stop [.delimiter .semicolon, stop] i) :
    Gives (termListFor stop wanted item n) q (fun l => l.map g = items.map Prod.snd) (w :: ws) := by
  have hnil : ∀ (n : Nat) (q : Parser), q.Holds (w :: ws) →
      Gives (Parse.termListFor stop wanted item (n + 1)) q (fun l => l = []) (w :: ws) := by
    intro n q hq
    refine (gives_peekIs hq stop).bind ?_
    rintro _ q₁ rfl h₁
    rw [if_pos (by simpa using hw)]
    exact .pure h₁.holds rfl
  obtain ⟨n, rfl⟩ : ∃ n', n = n' + 1 := ⟨n - 1, by omega⟩
  induction hs generalizing q n items with
  | nil =>
    obtain rfl := List.map_eq_nil_iff.1 hl
    refine (hnil n q hq.holds).mono ?_
    rintro _ rfl
    rfl
  | last us =>
    obtain ⟨i, rfl, rfl⟩ := List.map_eq_singleton_iff.1 hl
    obtain ⟨v, vs, hv, hne, hitem⟩ := hi i List.mem_cons_self
    rw [hv] at hq
    refine (gives_peekIs hq.holds stop).bind ?_
    rintro _ q₁ rfl h₁
    rw [if_neg (by simpa using hne)]
    refine (hitem q₁ w ws (hq.trans h₁) (by simp [hw])).bind fun a q₂ ha h₂ => ?_
    refine (gives_terminator h₂.holds (by rwa [hw])).bind fun _ q₃ _ h₃ => ?_
    obtain ⟨n, rfl⟩ : ∃ n', n = n' + 1 := ⟨n - 1, by simp at hn; omega⟩
    refine (hnil n q₃ h₃.holds).bind ?_
    rintro _ q₄ rfl h₄
    exact .pure h₄.holds (by simpa using ha)
  | @cons us _ us' _ ih =>
    obtain ⟨i, items, rfl, rfl, hitems⟩ := List.map_eq_cons_iff.1 hl
    obtain ⟨v, vs, hv, hne, hitem⟩ := hi i List.mem_cons_self
    replace hq : Reaches p q (v :: vs ++ .delimiter .semicolon :: (us' ++ w :: ws)) := by
      simpa [hv] using hq
    refine (gives_peekIs hq.holds stop).bind ?_
    rintro _ q₁ rfl h₁
    rw [if_neg (by simpa using hne)]
    refine (hitem q₁ _ _ (hq.trans h₁) (by simp)).bind fun a q₂ ha h₂ => ?_
    have hnext : us' ++ w :: ws ≠ [] := by simp
    refine (gives_semicolon h₂.holds hnext).bind fun _ q₃ _ h₃ => ?_
    obtain ⟨n, rfl⟩ : ∃ n', n = n' + 1 := ⟨n - 1, by simp at hn; omega⟩
    have hrest := ih hitems (((hq.trans h₁).trans h₂).trans h₃)
      (fun k hk => hi k (List.mem_cons_of_mem _ hk)) n (by simpa using hn)
    refine hrest.bind fun l q₄ hl h₄ => .pure h₄.holds ?_
    rw [List.map_cons, ha, hl]
    rfl

theorem Gives.openedListFor {items : List (Expectation γ)} {opener : Word} {n : Nat}
    (hn : items.length < n)
    (hq : Reaches p q ((items.flatMap fun i => opener :: i.1) ++ w :: ws))
    (hw : w.kind ≠ opener.kind)
    (hi : ∀ i ∈ items, Meets item g p stop [opener.kind, w.kind] i) :
    Gives (openedListFor opener.kind item n) q (fun l => l.map g = items.map Prod.snd)
      (w :: ws) := by
  induction items generalizing q n with
  | nil =>
    obtain ⟨n, rfl⟩ : ∃ n', n = n' + 1 := ⟨n - 1, by omega⟩
    refine (gives_consumeIf_false hq.holds hw).bind ?_
    rintro _ q₁ rfl h₁
    exact .pure h₁.holds rfl
  | cons i items ih =>
    obtain ⟨n, rfl⟩ : ∃ n', n = n' + 1 := ⟨n - 1, by omega⟩
    obtain ⟨v, vs, hv, -, hitem⟩ := hi i List.mem_cons_self
    obtain ⟨i, expected⟩ := i
    subst hv
    have hnext : ∃ r rs, (items.flatMap fun i => opener :: i.1) ++ w :: ws = r :: rs ∧
        r.kind ∈ [opener.kind, w.kind] := by
      cases items with
      | nil => exact ⟨w, ws, rfl, by simp⟩
      | cons j items => exact ⟨opener, _, rfl, by simp⟩
    obtain ⟨r, rs, hwords, hr⟩ := hnext
    rw [List.flatMap_cons, List.append_assoc, hwords] at hq
    refine (gives_consumeIf_true hq.holds (by simp) rfl).bind ?_
    rintro _ q₁ rfl h₁
    refine (hitem q₁ r rs (hq.trans h₁) hr).bind fun a q₂ ha h₂ => ?_
    rw [← hwords] at h₂
    have hrest := ih (by simpa using hn) ((hq.trans h₁).trans h₂)
      fun k hk => hi k (List.mem_cons_of_mem _ hk)
    refine hrest.bind fun l q₄ hl h₄ => .pure h₄.holds ?_
    rw [List.map_cons, ha, hl]
    rfl

theorem Meets.ne_nil {ends : List Kind} {items : List (Expectation γ)}
    (h : ∀ i ∈ items, Meets item g p stop ends i) : ∀ ws ∈ items.map Prod.fst, ws ≠ [] := by
  intro ws hws
  obtain ⟨i, hi, rfl⟩ := List.mem_map.1 hws
  obtain ⟨w, ws, hw, -⟩ := h i hi
  simp [hw]

/-- As many words as there are items and one more leave rounds enough. -/
theorem rounds_of_separated {sep : Word} {ends : List Kind} {items : List (Expectation γ)}
    {us : List Word} (hs : Separated sep (items.map Prod.fst) us) (hp : p.Holds (us ++ w :: ws))
    (h : ∀ i ∈ items, Meets item g p stop ends i) : items.length < p.ahead.length + 1 := by
  have hle := hs.length_le (Meets.ne_nil h)
  have hlen := hp.length
  simp only [List.length_append, List.length_cons, List.length_map] at hle hlen
  omega

theorem Gives.commaList {items : List (Expectation γ)} {us : List Word}
    (hs : Separated (.delimiter .comma) (items.map Prod.fst) us) (hp : p.Holds (us ++ w :: ws))
    (hw : w.kind = stop) (hstop : stop ≠ .delimiter .comma)
    (hi : ∀ i ∈ items, Meets item g p stop [.delimiter .comma, stop] i) :
    Gives (commaList stop item) p (fun l => l.map g = items.map Prod.snd) (w :: ws) :=
  Gives.commaListFor hs rfl (rounds_of_separated hs hp hi) (.refl hp) hw hstop hi

theorem Gives.termList {items : List (Expectation γ)} {us : List Word} {wanted : Expected}
    (hs : Separated (.delimiter .semicolon) (items.map Prod.fst) us)
    (hp : p.Holds (us ++ w :: ws)) (hw : w.kind = stop)
    (hstop : stop = .delimiter .rparen ∨ stop = .delimiter .rbrace)
    (hi : ∀ i ∈ items, Meets item g p stop [.delimiter .semicolon, stop] i) :
    Gives (termList stop wanted item) p (fun l => l.map g = items.map Prod.snd) (w :: ws) :=
  Gives.termListFor hs rfl (rounds_of_separated hs hp hi) (.refl hp) hw hstop hi

theorem length_le_flatMap {δ : Type} (opener : Word) (f : δ → List Word) (l : List δ) :
    l.length ≤ (l.flatMap fun i => opener :: f i).length := by
  induction l with
  | nil => simp
  | cons i l ih =>
    simp only [List.flatMap_cons, List.length_append, List.length_cons]
    omega

theorem Gives.openedList {items : List (Expectation γ)} {opener : Word}
    (hp : p.Holds ((items.flatMap fun i => opener :: i.1) ++ w :: ws)) (hw : w.kind ≠ opener.kind)
    (hi : ∀ i ∈ items, Meets item g p stop [opener.kind, w.kind] i) :
    Gives (openedList opener.kind item) p (fun l => l.map g = items.map Prod.snd) (w :: ws) := by
  have hle : items.length ≤ (items.flatMap fun i => opener :: i.1).length :=
    length_le_flatMap opener Prod.fst items
  have hlen := hp.length
  simp only [List.length_append, List.length_cons] at hlen
  exact Gives.openedListFor (by omega) (.refl hp) hw hi

end Lists

end Parse
end GoSyntax
