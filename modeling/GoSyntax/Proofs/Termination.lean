import GoSyntax.Proofs.Lexer.Crash

/-! Lexing comes to an end, whatever errors are met on the way, and does so within as many steps as
there are bytes and failures, and two more; only a crash comes before that end. No step goes back
behind a token that was handed out. -/
namespace GoSyntax

namespace Feed

/-- How many bytes of data are delivered. -/
def byteCount : Feed → Nat
  | [] => 0
  | .data bytes :: feed => bytes.length + byteCount feed
  | _ :: feed => byteCount feed

/-- How many requests for a byte fail. -/
def failureCount : Feed → Nat
  | [] => 0
  | .failure _ :: feed => 1 + failureCount feed
  | _ :: feed => failureCount feed

theorem length_octets (feed : Feed) :
    feed.octets.length = feed.byteCount + feed.failureCount := by
  induction feed with
  | nil => rfl
  | cons d feed ih =>
    have hcons : (octets (d :: feed)).length = d.octets.length + (octets feed).length := by
      simp [octets]
    rw [hcons, ih]
    cases d with
    | data bytes =>
      simp only [Delivery.octets, List.length_map, byteCount, failureCount]
      omega
    | interruption => simp [Delivery.octets, byteCount, failureCount]
    | failure reason =>
      simp only [Delivery.octets, List.length_singleton, byteCount, failureCount]
      omega

end Feed

/-- Every character and every fault is paid for with an octet, also the fault of a sequence that is
open where octets end. -/
theorem Utf8.length_decodeFrom_le (open? : Option Sequence) (octets : List Octet) :
    (decodeFrom open? octets).length ≤ octets.length + open?.toList.length := by
  induction octets generalizing open? with
  | nil => cases open? <;> simp [decodeFrom]
  | cons o octets ih =>
    have hnone := ih none
    simp only [Option.toList_none, List.length_nil, Nat.add_zero] at hnone
    cases o with
    | error reason =>
      have heq : decodeFrom open? (.error reason :: octets) =
          .error (.read reason) :: decodeFrom none octets := by
        cases open? <;> rfl
      rw [heq, List.length_cons, List.length_cons]
      omega
    | ok b =>
      cases open? with
      | none =>
        simp only [decodeFrom]
        split
        · simpa using hnone
        · rename_i s _
          simpa using ih (some s)
      | some s =>
        simp only [decodeFrom]
        split
        · split
          · simp only [List.length_cons]
            omega
          · refine Nat.le_trans (ih _) ?_
            simp
        · simp only [List.length_cons]
          omega

theorem Break.length_split (glyphs : List Utf8.Glyph) :
    (Break.split glyphs).1.length + Break.count (Break.split glyphs).2 = glyphs.length := by
  induction glyphs with
  | nil => rfl
  | cons g glyphs ih =>
    cases g with
    | ok c =>
      simp only [Break.split, List.length_cons]
      omega
    | error fault =>
      simp only [Break.split, Break.count, List.length_nil, List.length_cons]
      omega

namespace Cursor

/-- Taking characters never leads back, whether a fault comes in the way or not. -/
theorem offset_le_take (x : Cursor) (n : Nat) : x.offset ≤ (x.take n).after.offset := by
  unfold take
  split
  · rw [skip_offset]
    exact Nat.le_add_right _ _
  · split
    · rw [offset, offset, Mark.pastAll_offset]
      exact Nat.le_add_right _ _
    · rw [skip_offset]
      exact Nat.le_add_right _ _

end Cursor

namespace Lexer

variable {x : Lexer} {i n : Nat} {t : Token}

/-- As many steps as a feed gives bytes and failures, and two more, are enough for its potential. -/
theorem potential_le_of_ofFeed {file : String} {feed : Feed} (h : ofFeed file feed = .ok x) :
    x.potential ≤ feed.byteCount + feed.failureCount + 2 := by
  obtain ⟨hfresh, -, hsplit⟩ := fresh_of_ofFeed h
  have hpotential := hfresh.potential_le
  have hlen := Break.length_split (Utf8.decode feed.octets)
  have hdecode := Utf8.length_decodeFrom_le none feed.octets
  rw [← hsplit] at hlen
  rw [Feed.length_octets] at hdecode
  simp only [budget, Cursor.distance, Utf8.decode, Option.toList_none, List.length_nil] at *
  omega

section Order

/-- All that is still to be handed out lies behind offset `i`; a queued token ends at the cursor, and
is not the end of the source. -/
structure Behind (i : Nat) (x : Lexer) : Prop where
  cursor : i ≤ x.cursor.offset
  queued : ∀ q, x.queued = some q → q.kind ≠ .endOfFile ∧
    ∃ j, i ≤ j ∧ j ≤ x.cursor.offset ∧ q.span = .ofBounds j x.cursor.offset

/-- The token lies behind offset `i`, and all that follows lies behind the token. -/
def Advances (i : Nat) (t : Token) (y : Lexer) : Prop :=
  ∃ j k, i ≤ j ∧ j ≤ k ∧ t.span = .ofBounds j k ∧ Behind k y

theorem Behind.start (h : Behind i x) : i ≤ x.start.offset := by
  have hs := start_offset x
  have hc := h.cursor
  omega

theorem advances_twoDots (h : Behind i x) (hr : x.reading.result = .ok .twoDots) (leading : Text) :
    ∃ t, (x.filled.produce leading x.lexeme x.start.mark .twoDots).outcome = .ok t ∧
      Advances i t (x.filled.produce leading x.lexeme x.start.mark .twoDots).after := by
  have hstart : i ≤ x.start.mark.offset := h.start
  have hstop : x.stop.offset = x.start.mark.offset + 2 := by
    rw [stop_offset, lexeme_of_twoDots hr]
    rfl
  refine ⟨_, rfl, _, _, hstart, Nat.le_add_right _ 1, rfl, ?_, ?_⟩
  · rw [produce_cursor, hstop]
    omega
  · rintro q hq
    obtain rfl := Option.some.inj hq
    rw [produce_cursor, hstop]
    exact ⟨by simp, _, Nat.le_refl _, by omega, rfl⟩

theorem advances_token (h : Behind i x) (leading : Text) (kind : Kind) (v : Option Value) :
    ∃ t, (x.filled.produce leading x.lexeme x.start.mark (.token kind v)).outcome = .ok t ∧
      Advances i t (x.filled.produce leading x.lexeme x.start.mark (.token kind v)).after := by
  have hstop : x.start.mark.offset ≤ x.stop.offset := by
    rw [stop_offset]
    exact Nat.le_add_right _ _
  refine ⟨_, rfl, _, _, h.start, hstop, rfl, Nat.le_refl _, ?_⟩
  intro q hq
  simp only [produce, emit_queued, queuedBehind] at hq
  split at hq
  · obtain rfl := Option.some.inj hq
    refine ⟨?_, x.stop.offset, Nat.le_refl _, Nat.le_refl _, rfl⟩
    rw [filled_elides]
    cases x.elides <;> simp [Token.emptyAt, Lexeme.lineEnd]
  · cases hq

/-- A step that fails gives nothing to go back behind. -/
theorem behind_of_error (h : Behind i x) {e : Error} (he : x.next.outcome = .error e) :
    Behind i x.next.after := by
  have hm := next_move x
  generalize x.next = s at hm he ⊢
  have hfresh : ∀ y : Lexer, y.queued = x.queued → x.queued = none →
      x.cursor.offset ≤ y.cursor.offset → Behind i y := by
    intro y hy hq hle
    refine ⟨Nat.le_trans h.cursor hle, fun q hq' => ?_⟩
    rw [hy, hq] at hq'
    cases hq'
  have hstart : x.cursor.offset ≤ x.start.offset := by
    rw [start_offset]
    exact Nat.le_add_right _ _
  cases hm with
  | queued => cases he
  | blankFault hq => exact hfresh _ rfl hq (Cursor.offset_le_take _ _)
  | lexemeFault hq => exact hfresh _ rfl hq (Nat.le_trans hstart (Cursor.offset_le_take _ _))
  | flaw hq =>
    refine hfresh _ rfl hq (Nat.le_trans hstart ?_)
    rw [filled_cursor, stop_offset]
    exact Nat.le_add_right _ _
  | @lexeme meaning => cases meaning <;> cases he

theorem advances_next (h : Behind i x) (ht : x.next.outcome = .ok t) :
    Advances i t x.next.after := by
  have hm := next_move x
  generalize x.next = s at hm ht ⊢
  cases hm with
  | queued hq =>
    cases ht
    obtain ⟨-, j, hj, hle, hspan⟩ := h.queued t hq
    exact ⟨j, _, hj, hle, hspan, Nat.le_refl _, by simp⟩
  | blankFault => cases ht
  | lexemeFault => cases ht
  | flaw => cases ht
  | @lexeme meaning _ _ hr =>
    obtain ⟨u, hu, ha⟩ : ∃ u, (x.filled.produce (x.text ++ x.blanks) x.lexeme x.start.mark
        meaning).outcome = .ok u ∧ Advances i u
          (x.filled.produce (x.text ++ x.blanks) x.lexeme x.start.mark meaning).after := by
      cases meaning with
      | token kind v => exact advances_token h _ kind v
      | twoDots => exact advances_twoDots h hr _
    obtain rfl : u = t := Except.ok.inj (hu.symm.trans ht)
    exact ha

/-- The tokens that steps hand out, errors left out. -/
def handedOut (steps : List Step) : List Token := steps.filterMap (·.outcome.toOption)

/-- The tokens of a run, errors or not, follow each other. -/
theorem Behind.ordered (h : Behind i x) (n : Nat) :
    (∀ t ∈ handedOut (x.steps n), min i counterMax ≤ t.span.start ∧
      t.span.start ≤ t.span.stop) ∧
    (handedOut (x.steps n)).Pairwise fun t u => t.span.stop ≤ u.span.start := by
  induction n generalizing i x with
  | zero => exact ⟨by simp [handedOut, steps], .nil⟩
  | succ n ih =>
    cases ho : x.next.outcome with
    | error e =>
      cases hcrash : x.next.isCrash with
      | true =>
        have hnil : handedOut (x.steps (n + 1)) = [] := by
          simp [handedOut, steps, hcrash, ho, Except.toOption]
        rw [hnil]
        exact ⟨by simp, .nil⟩
      | false =>
        have hnone : handedOut (x.steps (n + 1)) = handedOut (x.next.after.steps n) := by
          simp [handedOut, steps, hcrash, ho, Except.toOption]
        rw [hnone]
        exact ih (behind_of_error h ho)
    | ok t =>
      obtain ⟨j, k, hij, hjk, hspan, hbehind⟩ := advances_next h ho
      obtain ⟨hall, hpairs⟩ := ih hbehind
      have hcons : handedOut (x.steps (n + 1)) = t :: handedOut (x.next.after.steps n) := by
        simp [handedOut, steps, isCrash_of_ok ho, ho, Except.toOption]
      have hstop : t.span.stop = min k counterMax := by rw [hspan]; rfl
      have hstart : t.span.start = min j counterMax := by rw [hspan]; rfl
      rw [hcons]
      refine ⟨List.forall_mem_cons.2 ⟨by omega, fun u hu => ?_⟩,
        List.pairwise_cons.2 ⟨fun u hu => ?_, hpairs⟩⟩
      · have := hall u hu
        omega
      · have := hall u hu
        omega

end Order

section End

/-- Nothing is left, and nothing is held back. -/
structure Spent (x : Lexer) : Prop where
  queued : x.queued = none
  elides : x.elides = false
  text : x.text = []
  ahead : x.cursor.ahead = []
  breaks : x.cursor.breaks = []

theorem Spent.next (h : x.Spent) :
    (∃ t, x.next.outcome = .ok t ∧ t.kind = .endOfFile ∧ t.raw = []) ∧ x.next.after.Spent := by
  obtain ⟨⟨ahead, breaks, mark⟩, elides, queued, text, trivia, ended⟩ := x
  obtain ⟨rfl, rfl, rfl, rfl, rfl⟩ := h
  exact ⟨⟨_, rfl, rfl, rfl⟩, rfl, rfl, rfl, rfl, rfl⟩

theorem Spent.steps (h : x.Spent) (n : Nat) : ∀ s ∈ x.steps n,
    ∃ t, s.outcome = .ok t ∧ t.kind = .endOfFile ∧ t.raw = [] := by
  induction n generalizing x with
  | zero => simp [Lexer.steps]
  | succ n ih =>
    intro s hs
    obtain ⟨⟨t, ht, hend⟩, hnext⟩ := h.next
    rw [Lexer.steps, isCrash_of_ok ht, if_neg (by decide)] at hs
    rcases List.mem_cons.1 hs with rfl | hs
    · exact ⟨t, ht, hend⟩
    · exact ih hnext s hs

/-- Once the end of the source is handed out, all has been read. -/
theorem spent_of_isEnd (h : Behind i x) (hend : x.next.isEnd = true) : x.next.after.Spent := by
  have hm := next_move x
  generalize x.next = s at hm hend ⊢
  cases hm with
  | @queued t hq =>
    have hk : t.kind = .endOfFile := by simpa [Step.isEnd] using hend
    exact absurd hk (h.queued t hq).1
  | blankFault => cases hend
  | lexemeFault => cases hend
  | flaw => cases hend
  | @lexeme meaning hq hc hr =>
    cases meaning with
    | twoDots => simp [produce, Step.isEnd] at hend
    | token kind v =>
      have hk : kind = .endOfFile := by simpa [produce, Step.isEnd] using hend
      subst hk
      have ha := ahead_of_end hr
      refine ⟨?_, ?_, rfl, ?_, ?_⟩
      · simp [produce, queuedBehind]
      · simp [produce, emit, Kind.isComment, Kind.elidesSemicolon]
      · simp [produce, stop, ha]
      · simpa [produce] using hc.breaks_nil ha

theorem Behind.next (h : Behind i x) : ∃ j, Behind j x.next.after := by
  cases ho : x.next.outcome with
  | error e => exact ⟨i, behind_of_error h ho⟩
  | ok t =>
    obtain ⟨_, k, -, -, -, hk⟩ := advances_next h ho
    exact ⟨k, hk⟩

/-- What may come last of the steps: the end of the source, with nothing left, or a crash, with the
literal in hand that it is due to. -/
def Last (s : Step) : Prop :=
  s.isEnd = true ∧ s.after.Spent ∨ s.isCrash = true ∧ s.after.AtLeastWord

/-- The steps lead to the end of the source or to a crash, and not before the last of them. -/
theorem exists_last (hs : Sane x) (he : x.ended = false) (h : Behind i x) (hn : x.potential ≤ n) :
    ∃ k, k < n ∧ ∃ before last, x.steps (k + 1) = before ++ [last] ∧
      (∀ s ∈ before, s.isEnd = false ∧ s.isCrash = false) ∧ Last last := by
  induction n generalizing x i with
  | zero =>
    have := potential_pos he
    omega
  | succ n ih =>
    cases hcrash : x.next.isCrash with
    | true =>
      exact ⟨0, Nat.succ_pos n, [], x.next, by simp [steps], by simp,
        .inr ⟨hcrash, atLeastWord_of_crash hcrash⟩⟩
    | false =>
    cases hend : x.next.isEnd with
    | true =>
      exact ⟨0, Nat.succ_pos n, [], x.next, by simp [steps], by simp,
        .inl ⟨hend, spent_of_isEnd h hend⟩⟩
    | false =>
      have hlt := potential_next hs he
      have hne : x.next.after.ended = false := by rw [ended_next, he, hend]; rfl
      obtain ⟨j, hj⟩ := h.next
      obtain ⟨k, hk, before, last, hsteps, hbefore, hlast⟩ :=
        ih (sane_next hs) hne hj (by omega)
      refine ⟨k + 1, by omega, x.next :: before, last, ?_, ?_, hlast⟩
      · rw [steps, hcrash, if_neg (by decide), hsteps]
        rfl
      · exact List.forall_mem_cons.2 ⟨⟨hend, hcrash⟩, hbefore⟩

end End

section Iteration

/-- What `n` requests give to one who stops at the first error. A crash stops the requests too. -/
def pulls : Nat → Lexer → List (Option Step)
  | 0, _ => []
  | n + 1, x =>
    match x.pull? with
    | some s => some s :: if s.isCrash then [] else pulls n s.after
    | none => none :: pulls n x

theorem pulls_of_ended (h : x.ended = true) (n : Nat) : x.pulls n = List.replicate n none := by
  induction n with
  | zero => rfl
  | succ n ih => simp [pulls, pull?, h, ih, List.replicate_succ]

theorem runFor_of_ended (h : x.ended = true) (n : Nat) : x.runFor n = [] := by
  cases n with
  | zero => rfl
  | succ n => simp [runFor, pull?, h]

/-- What requests give behind a run: nothing, over and over, if no crash has ended them. -/
def padding (run : List Step) (n : Nat) : List (Option Step) :=
  if run.any Step.isCrash then [] else List.replicate n none

/-- The run of one who stops at the first error: steps of the lexer, of which the last and no other is
the end of the source or an error, and nothing behind it. -/
structure Halts (x : Lexer) (run : List Step) : Prop where
  steps : run.map Step.outcome = (x.steps run.length).map Step.outcome
  last : ∃ before last, run = before ++ [last] ∧ (last.isEnd = true ∨ last.isError = true) ∧
    ∀ s ∈ before, s.isEnd = false ∧ s.isError = false
  pulls : ∀ n, x.pulls n = (run.map some ++ padding run n).take n

/-- A step behind which nothing is given makes a run of its own. -/
theorem halts_single {s : Step} (hs : x.pull? = some s) (ho : s.outcome = x.next.outcome)
    (hlast : s.isEnd = true ∨ s.isError = true) (hended : s.after.ended = true) : Halts x [s] := by
  refine ⟨by simp [Lexer.steps, ho], ⟨[], s, rfl, hlast, by simp⟩, fun n => ?_⟩
  cases n with
  | zero => rfl
  | succ n =>
    simp only [Lexer.pulls, hs, pulls_of_ended hended, padding]
    cases hcrash : s.isCrash <;> simp [hcrash]

/-- Behind a run there is nothing, so how often it is asked for does not matter. -/
theorem take_padded {run : List Step} {n m : Nat} (h : n ≤ m) :
    (run.map some ++ padding run m).take n = (run.map some ++ padding run n).take n := by
  unfold padding
  split
  · rfl
  rw [List.take_append, List.take_append, List.take_replicate, List.take_replicate]
  congr 2
  omega

theorem isCrash_of_isError {s : Step} (h : s.isError = false) : s.isCrash = false := by
  obtain ⟨outcome, after⟩ := s
  cases outcome with
  | ok t => rfl
  | error e => cases h

theorem Halts.cons {run : List Step} (h : Halts x.next.after run) (hs : x.pull? = some x.next)
    (hend : x.next.isEnd = false) (herr : x.next.isError = false) : Halts x (x.next :: run) := by
  have hcrash := isCrash_of_isError herr
  obtain ⟨before, last, rfl, hlast, hbefore⟩ := h.last
  refine ⟨?_, ⟨x.next :: before, last, rfl, hlast, ?_⟩, fun n => ?_⟩
  · rw [List.length_cons, Lexer.steps, hcrash, if_neg (by decide), List.map_cons, List.map_cons,
      h.steps]
  · exact List.forall_mem_cons.2 ⟨⟨hend, herr⟩, hbefore⟩
  · cases n with
    | zero => rfl
    | succ n =>
      have hpadding : padding (x.next :: (before ++ [last])) = padding (before ++ [last]) := by
        funext m
        simp [padding, hcrash]
      rw [hpadding, Lexer.pulls, hs]
      simp only [hcrash, h.pulls n, Bool.false_eq_true, if_false]
      rw [List.map_cons, List.cons_append, List.take_succ_cons, take_padded (Nat.le_succ n)]

theorem halts_runFor (hs : Sane x) (he : x.ended = false) (hn : x.potential ≤ n) :
    Halts x (x.runFor n) := by
  induction n generalizing x with
  | zero =>
    have := potential_pos he
    omega
  | succ n ih =>
    cases herr : x.next.isError with
    | true =>
      have hpull : x.pull? = some { x.next with after := { x.next.after with ended := true } } := by
        simp [pull?, he, herr]
      simp only [runFor, hpull, runFor_of_ended]
      exact halts_single hpull rfl (Or.inr herr) rfl
    | false =>
      have hpull : x.pull? = some x.next := by simp [pull?, he, herr]
      have hended := ended_next x
      rw [he, Bool.false_or] at hended
      simp only [runFor, hpull]
      cases hend : x.next.isEnd with
      | true =>
        rw [hend] at hended
        rw [runFor_of_ended hended]
        exact halts_single hpull rfl (Or.inl hend) hended
      | false =>
        rw [hend] at hended
        have hlt := potential_next hs he
        exact (ih (sane_next hs) hended (by omega)).cons hpull hend herr

end Iteration

theorem Fresh.behind (h : x.Fresh) : Behind 0 x :=
  ⟨Nat.zero_le _, by simp [h.queued]⟩

end Lexer

/-- Whatever a source delivers, and whoever goes on behind errors, its end comes within as many steps
as it has bytes and failures, and two more; from there on there is only the end, with no text. Only a
literal of which the exponent is the least signed word keeps a run from that end, as it crashes. The
tokens on the way follow each other. One who stops at the first error is given the steps up to it, or
up to the end of the source, and then nothing more. -/
theorem lexing_ends {file : String} {feed : Feed} {x : Lexer} (h : Lexer.ofFeed file feed = .ok x) :
    (∃ k < feed.byteCount + feed.failureCount + 2, ∃ before last,
      x.steps (k + 1) = before ++ [last] ∧ (∀ s ∈ before, s.isEnd = false ∧ s.isCrash = false) ∧
      (last.isEnd = true ∧ (∀ n, ∀ s ∈ last.after.steps n,
          ∃ t, s.outcome = .ok t ∧ t.kind = .endOfFile ∧ t.raw = []) ∨
        last.isCrash = true ∧ last.after.AtLeastWord)) ∧
    (∀ n, (∀ t ∈ Lexer.handedOut (x.steps n), t.span.start ≤ t.span.stop) ∧
      (Lexer.handedOut (x.steps n)).Pairwise fun t u => t.span.stop ≤ u.span.start) ∧
    x.Halts x.run := by
  obtain ⟨hfresh, -, -⟩ := Lexer.fresh_of_ofFeed h
  refine ⟨?_, fun n => ?_, Lexer.halts_runFor hfresh.sane hfresh.ended hfresh.potential_le⟩
  · obtain ⟨k, hk, before, last, hsteps, hbefore, hlast⟩ :=
      Lexer.exists_last hfresh.sane hfresh.ended hfresh.behind (Lexer.potential_le_of_ofFeed h)
    refine ⟨k, hk, before, last, hsteps, hbefore, ?_⟩
    exact hlast.imp_left fun ⟨hend, hspent⟩ => ⟨hend, hspent.steps⟩
  · obtain ⟨hall, hpairs⟩ := hfresh.behind.ordered n
    exact ⟨fun t ht => (hall t ht).2, hpairs⟩

/-- A source that is interrupted, fails once and holds a byte that no character begins with. -/
theorem lexing_ends_failure :
    let feed : Feed := [.data [0x61], .interruption, .failure "lost", .data [0xFF, 0x2B]]
    ∃ x, Lexer.ofFeed "a.go" feed = .ok x ∧ x.Halts x.run ∧
      ∃ k < 6, ∃ before last, x.steps (k + 1) = before ++ [last] ∧ last.isEnd = true := by
  intro feed
  obtain ⟨x, hx⟩ : ∃ x, Lexer.ofFeed "a.go" feed = .ok x := ⟨_, rfl⟩
  have hsafe : (Lexer.ofFeed "a.go" feed).toOption.map (fun x => (List.range 6).all fun k =>
      (x.steps (k + 1)).all fun s => !s.isCrash) = some true := by decide +kernel
  obtain ⟨⟨k, hk, before, last, hsteps, -, hlast⟩, -, hhalts⟩ := lexing_ends hx
  rcases hlast with ⟨hend, -⟩ | ⟨hcrash, -⟩
  · exact ⟨x, hx, hhalts, k, hk, before, last, hsteps, hend⟩
  · simp only [hx, Except.toOption, Option.map_some, Option.some.injEq, List.all_eq_true] at hsafe
    have hnot := hsafe k (List.mem_range.2 hk) last (by simp [hsteps])
    rw [hcrash] at hnot
    cases hnot

/-- The literal with the least signed word as its exponent ends the run before the source ends. -/
theorem lexing_ends_fails :
    ∃ x, Lexer.ofText "t.go" "1e-9223372036854775808".toList = .ok x ∧
      ∀ n, ∀ s ∈ x.steps n, s.isEnd = false := by
  obtain ⟨x, hx, hout⟩ : ∃ x, Lexer.ofText "t.go" "1e-9223372036854775808".toList = .ok x ∧
      x.next.outcome = .error ⟨x.cursor.pos, .crash .overflow⟩ := ⟨_, rfl, rfl⟩
  have hcrash : x.next.isCrash = true := by rw [Step.isCrash, hout]; rfl
  refine ⟨x, hx, fun n s hs => ?_⟩
  cases n with
  | zero => cases hs
  | succ n =>
    rw [Lexer.steps, hcrash, if_pos rfl, List.mem_singleton] at hs
    rw [hs, Step.isEnd, hout]

end GoSyntax
