import GoSyntax.Proofs.Lexer.Step
import GoSyntax.Proofs.Lexeme.Meaning

/-! Whole runs of the lexer. A potential falls with every step, so the steps that a run is given are
enough to reach the end of the source. -/
namespace GoSyntax

namespace Cursor

theorem skip_distance {x : Cursor} {n : Nat} (h : n ≤ x.ahead.length) :
    (x.skip n).distance + n = x.distance := by
  simp only [distance, skip_ahead, skip_breaks, List.length_drop]
  omega

theorem take_distance {x : Cursor} {n : Nat} {fault : Fault} (h : (x.take n).fault = some fault) :
    (x.take n).after.distance < x.distance := by
  unfold take at h ⊢
  cases hb : x.breaks with
  | nil => simp [hb] at h
  | cons b bs =>
    simp only [hb] at h ⊢
    by_cases hn : x.ahead.length ≤ n
    · have hl : x.ahead.getLast?.toList.length ≤ x.ahead.length := by
        cases hx : x.ahead.getLast? with
        | none => simp
        | some c =>
          have hne : x.ahead ≠ [] := by
            intro he
            simp [he] at hx
          rw [Option.toList_some, List.length_singleton]
          exact List.length_pos_iff.2 hne
      simp only [if_pos hn, distance, hb, Break.count, List.length_append]
      omega
    · simp [hn] at h

end Cursor

namespace Lexer

/-- A queued token is neither a comment nor one that a statement may end with. -/
def Sane (x : Lexer) : Prop :=
  ∀ t, x.queued = some t → t.kind.isComment = false ∧ t.kind.elidesSemicolon = false

/-- A bound on the steps to the end of the source: one for every character and fault, one for a
queued token, one for a last semicolon and one for the end itself. -/
def potential (x : Lexer) : Nat :=
  if x.ended then 0
  else 1 + x.cursor.distance + x.queued.toList.length +
    if 0 < x.cursor.distance ∨ x.elides then 1 else 0

variable {x : Lexer}

theorem Clear.breaks_nil (h : x.Clear) (ha : x.start.ahead = []) : x.cursor.breaks = [] := by
  rcases (Cursor.take_of_fault_none h.2).2 with hb | hb
  · exact hb
  · simp [ha] at hb

theorem stop_distance (x : Lexer) :
    x.stop.distance + x.reading.size + blankCount x.cursor = x.cursor.distance := by
  have h₁ : x.stop.distance + x.reading.size = x.start.distance :=
    Cursor.skip_distance (Lexeme.size_read_le _ _)
  have h₂ : x.start.distance + blankCount x.cursor = x.cursor.distance :=
    Cursor.skip_distance (blankCount_le x.cursor)
  omega

theorem one_le_size (h : x.start.ahead ≠ []) : 1 ≤ x.reading.size := by
  obtain ⟨c, cs, hc⟩ := List.exists_cons_of_ne_nil h
  rw [reading, hc]
  exact (Lexeme.size_read x.elides c cs).1

theorem elides_emit (x : Lexer) (t : Token) (h : t.kind.isComment = false) :
    (emit x t).after.elides = t.kind.elidesSemicolon := by
  simp [emit, h]

@[simp] theorem emit_cursor (x : Lexer) (t : Token) : (emit x t).after.cursor = x.cursor := rfl
@[simp] theorem emit_queued (x : Lexer) (t : Token) : (emit x t).after.queued = x.queued := rfl
@[simp] theorem emit_text (x : Lexer) (t : Token) : (emit x t).after.text = x.text := rfl
@[simp] theorem emit_outcome (x : Lexer) (t : Token) : (emit x t).outcome = .ok t := rfl
@[simp] theorem emit_ended (x : Lexer) (t : Token) :
    (emit x t).after.ended = (x.ended || t.kind == .endOfFile) := rfl

theorem lineEnd_sane (elides : Bool) :
    (Lexeme.lineEnd elides).isComment = false ∧
      (Lexeme.lineEnd elides).elidesSemicolon = false := by
  cases elides <;> exact ⟨rfl, rfl⟩

theorem lexeme_of_twoDots (hr : x.reading.result = .ok .twoDots) : x.lexeme = ['.', '.'] := by
  cases ha : x.start.ahead with
  | nil => simp [reading, ha, Lexeme.read, Lexeme.Reading.done] at hr
  | cons c cs =>
    simp only [reading, ha] at hr
    obtain ⟨hsize, rfl, hcs⟩ := Lexeme.read_eq_twoDots hr
    obtain ⟨cs, rfl⟩ := List.head?_eq_some_iff.1 hcs
    simp [lexeme, reading, ha, hsize]

/-- Whatever a lexeme queues is sane, and it takes two characters to queue anything. -/
theorem queued_produce {meaning : Lexeme.Meaning} (hr : x.reading.result = .ok meaning)
    (leading : Text) :
    let s := x.filled.produce leading x.lexeme x.start.mark meaning
    Sane s.after ∧ s.after.queued.toList.length + 1 ≤ max 1 x.reading.size := by
  cases meaning with
  | twoDots =>
    have ha : x.start.ahead ≠ [] := by
      intro ha
      simp [reading, ha, Lexeme.read, Lexeme.Reading.done] at hr
    obtain ⟨c, cs, hc⟩ := List.exists_cons_of_ne_nil ha
    rw [reading, hc] at hr
    have hsize := (Lexeme.read_eq_twoDots hr).1
    refine ⟨?_, ?_⟩
    · intro t ht
      obtain rfl := Option.some.inj ht
      exact ⟨rfl, rfl⟩
    · simp [produce, reading, hc, hsize]
  | token kind v =>
    by_cases hq : kind = .comment .block ∧ '\n' ∈ x.lexeme
    · have ha : x.start.ahead ≠ [] := by
        intro ha
        simp [lexeme, ha] at hq
      obtain ⟨c, cs, hc⟩ := List.exists_cons_of_ne_nil ha
      rw [reading, hc] at hr
      have hsize := (Lexeme.kind_read hr).2.1 (by simp [hq.1, Kind.isComment])
      refine ⟨?_, ?_⟩
      · intro t ht
        simp only [produce, emit_queued, queuedBehind, if_pos hq, Option.some.injEq] at ht
        subst ht
        exact lineEnd_sane x.elides
      · simp only [produce, emit_queued, queuedBehind, if_pos hq, reading, hc]
        simp only [Option.toList_some, List.length_singleton]
        omega
    · refine ⟨?_, ?_⟩
      · intro t ht
        simp [produce, queuedBehind, hq] at ht
      · simp only [produce, emit_queued, queuedBehind, if_neg hq]
        simp only [Option.toList_none, List.length_nil]
        omega

theorem sane_next (hs : Sane x) : Sane x.next.after := by
  have hm := next_move x
  generalize x.next = s at hm ⊢
  cases hm with
  | queued h => simp [Sane]
  | blankFault => exact hs
  | lexemeFault => exact hs
  | flaw => exact hs
  | lexeme _ _ hr => exact (queued_produce hr _).1

theorem potential_of_ended (h : x.ended = true) : x.potential = 0 := by simp [potential, h]

theorem potential_of_not_ended (h : x.ended = false) :
    x.potential = 1 + x.cursor.distance + x.queued.toList.length +
      if 0 < x.cursor.distance ∨ x.elides then 1 else 0 := by
  simp [potential, h]

theorem potential_le (x : Lexer) :
    x.potential ≤ 2 + x.cursor.distance + x.queued.toList.length := by
  unfold potential
  split
  · omega
  · split <;> omega

theorem potential_pos (h : x.ended = false) : 1 ≤ x.potential := by
  rw [potential_of_not_ended h]
  omega

/-- With less ahead of it, and no more queued than that makes up for, a lexer has a smaller
potential. -/
theorem potential_lt_of_distance {y : Lexer} (h : x.ended = false)
    (hd : y.cursor.distance + y.queued.toList.length < x.cursor.distance) :
    y.potential < x.potential := by
  have hy := potential_le y
  have hx := potential_of_not_ended h
  rw [if_pos (Or.inl (by omega))] at hx
  omega

/-- The end of the source is read only where nothing is left. -/
theorem ahead_of_end {v : Option Value} (h : x.reading.result = .ok (.token .endOfFile v)) :
    x.start.ahead = [] := by
  cases ha : x.start.ahead with
  | nil => rfl
  | cons c cs =>
    simp only [reading, ha] at h
    exact absurd rfl (Lexeme.kind_read h).1

theorem start_ahead_ne_nil {flaw : Lexeme.Flaw} (h : x.reading.result = .error flaw) :
    x.start.ahead ≠ [] := by
  intro ha
  simp [reading, ha, Lexeme.read, Lexeme.Reading.done] at h

theorem produce_cursor (x : Lexer) (leading text : Text) (m : Mark) (meaning : Lexeme.Meaning) :
    (x.filled.produce leading text m meaning).after.cursor = x.stop := by
  cases meaning <;> rfl

/-- The state behind a token that was made of a lexeme. -/
theorem elides_of_comment {kind : Kind} {v : Option Value} {leading : Text}
    (h : kind.isComment = true) :
    (x.filled.produce leading x.lexeme x.start.mark (.token kind v)).after.elides = x.elides := by
  simp [produce, emit, h]

theorem queued_of_breaksLine {kind : Kind} {v : Option Value} {leading : Text}
    (h : kind = .comment .block ∧ '\n' ∈ x.lexeme) :
    (x.filled.produce leading x.lexeme x.start.mark (.token kind v)).after.queued =
      some (.emptyAt x.stop.mark (Lexeme.lineEnd x.elides)) := by
  simp [produce, queuedBehind, h]

theorem stop_distance_of_nil (hc : x.Clear) (ha : x.start.ahead = []) : x.stop.distance = 0 := by
  have hb := hc.breaks_nil ha
  simp [stop, Cursor.distance, ha, hb, Break.count]

/-- At the end of the source a last semicolon is followed by the end itself. -/
theorem potential_sourceEnd (he : x.ended = false) (hc : x.Clear) (ha : x.start.ahead = [])
    (leading text : Text) :
    (x.filled.produce leading text x.start.mark
      (.token (Lexeme.sourceEnd x.elides) none)).after.potential < x.potential := by
  have hd := stop_distance_of_nil hc ha
  have hx := potential_of_not_ended he
  cases hel : x.elides with
  | true =>
    rw [potential_of_not_ended (by simp [produce, he, Lexeme.sourceEnd])]
    simp only [hel, or_true, if_true] at hx
    simp [produce, hd, queuedBehind, Lexeme.sourceEnd, emit, Kind.isComment, Kind.elidesSemicolon]
    omega
  | false =>
    rw [potential_of_ended (by simp [produce, Lexeme.sourceEnd])]
    omega

/-- Every step brings the end of the source nearer. -/
theorem potential_next (hs : Sane x) (he : x.ended = false) :
    x.next.after.potential < x.potential := by
  have hm := next_move x
  generalize x.next = s at hm ⊢
  cases hm with
  | @queued t h =>
    obtain ⟨hcom, hel⟩ := hs t h
    have hx := potential_of_not_ended he
    simp only [h, Option.toList_some, List.length_singleton] at hx
    by_cases hend : t.kind = .endOfFile
    · rw [potential_of_ended (by simp [hend])]
      omega
    · rw [potential_of_not_ended (by simp [he, hend]), elides_emit _ _ hcom, hel]
      simp only [emit_cursor, emit_queued, Option.toList_none, List.length_nil, or_false,
        Bool.false_eq_true]
      split <;> split at hx <;> simp_all
  | blankFault hq h =>
    have hd := Cursor.take_distance h
    exact potential_lt_of_distance he (by simpa [interrupt, hq] using hd)
  | lexemeFault hq h =>
    have hd := Cursor.take_distance h
    have hb : x.start.distance + blankCount x.cursor = x.cursor.distance :=
      Cursor.skip_distance (blankCount_le x.cursor)
    refine potential_lt_of_distance he ?_
    simp only [interrupt, gather_cursor, gather_queued, begun_queued, hq, Option.toList_none,
      List.length_nil]
    omega
  | flaw hq hc h =>
    have hsize := one_le_size (start_ahead_ne_nil h)
    have hd := stop_distance x
    refine potential_lt_of_distance he ?_
    simp only [filled_cursor, filled_queued, hq, Option.toList_none, List.length_nil]
    omega
  | @lexeme meaning hq hc h =>
    by_cases ha : x.start.ahead = []
    · obtain rfl : meaning = .token (Lexeme.sourceEnd x.elides) none := by
        simpa [reading, ha, Lexeme.read, Lexeme.Reading.done] using h.symm
      exact potential_sourceEnd he hc ha _ _
    · have hsize := one_le_size ha
      have hd := stop_distance x
      have hqp := (queued_produce h (x.text ++ x.blanks)).2
      refine potential_lt_of_distance he ?_
      rw [produce_cursor]
      omega

/-- The lexer gives the tokens in turn, without an error and up to the end of the source. -/
inductive Yields : Lexer → List Token → Prop
  | last {x : Lexer} {t : Token} (h : x.next.outcome = .ok t) (hk : t.kind = .endOfFile) :
    Yields x [t]
  | more {x : Lexer} {t : Token} {ts : List Token} (h : x.next.outcome = .ok t)
    (hk : t.kind ≠ .endOfFile) (hr : Yields x.next.after ts) : Yields x (t :: ts)

theorem ended_next (x : Lexer) : x.next.after.ended = (x.ended || x.next.isEnd) := by
  have hm := next_move x
  generalize x.next = s at hm ⊢
  cases hm with
  | queued => rfl
  | blankFault => exact (Bool.or_false _).symm
  | lexemeFault => exact (Bool.or_false _).symm
  | flaw => exact (Bool.or_false _).symm
  | @lexeme meaning => cases meaning <;> rfl

theorem isEnd_of_ok {s : Step} {t : Token} (h : s.outcome = .ok t) :
    s.isEnd = (t.kind == .endOfFile) := by
  simp [Step.isEnd, h]

theorem isCrash_of_ok {s : Step} {t : Token} (h : s.outcome = .ok t) : s.isCrash = false := by
  simp [Step.isCrash, h]

theorem Yields.exists_last {ts : List Token} (hy : Yields x ts) :
    ∃ t, ts.getLast? = some t ∧ t.kind = .endOfFile := by
  induction hy with
  | @last x t _ hk => exact ⟨t, rfl, hk⟩
  | @more x t ts _ _ _ ih =>
    obtain ⟨u, hu, hk⟩ := ih
    exact ⟨u, by simp [List.getLast?_cons, hu], hk⟩

theorem Yields.length_le {ts : List Token} (h : Yields x ts) (hs : Sane x) (he : x.ended = false) :
    ts.length ≤ x.potential := by
  induction h with
  | last => exact potential_pos he
  | @more x t ts h hk _ ih =>
    have hlt := potential_next hs he
    have hn := ih (sane_next hs) (by simp [ended_next, isEnd_of_ok h, he, hk])
    rw [List.length_cons]
    omega

/-- The steps of a drain are those of the tokens that the lexer gives. -/
theorem Yields.drainFor {ts : List Token} (h : Yields x ts) {n : Nat} (hn : ts.length ≤ n) :
    (x.drainFor n).map Step.outcome = ts.map .ok := by
  induction h generalizing n with
  | @last x t h hk =>
    obtain ⟨m, rfl⟩ : ∃ m, n = m + 1 := ⟨n - 1, by simp at hn; omega⟩
    simp [Lexer.drainFor, Step.isEnd, h, hk]
  | @more x t ts h hk _ ih =>
    obtain ⟨m, rfl⟩ : ∃ m, n = m + 1 := ⟨n - 1, by simp at hn; omega⟩
    simp only [List.length_cons, Nat.add_le_add_iff_right] at hn
    simp [Lexer.drainFor, Step.isEnd, isCrash_of_ok h, h, hk, ih hn]

theorem runFor_yields {n : Nat} {ts : List Token} (hs : Sane x) (he : x.ended = false)
    (hp : x.potential ≤ n) (h : (x.runFor n).mapM (·.outcome) = .ok ts) : Yields x ts := by
  induction n generalizing x ts with
  | zero =>
    have := potential_pos he
    omega
  | succ n ih =>
    cases ho : x.next.outcome with
    | error e =>
      have herr : x.next.isError = true := by simp [Step.isError, ho]
      simp [runFor, pull?, he, herr, ho, List.mapM_cons, bind, Except.bind] at h
    | ok t =>
      have herr : x.next.isError = false := by simp [Step.isError, ho]
      simp only [runFor, pull?, he, herr, Bool.false_eq_true, if_false, List.mapM_cons, ho] at h
      obtain ⟨us, hus, rfl⟩ : ∃ us, (x.next.after.runFor n).mapM (·.outcome) = .ok us ∧
          t :: us = ts := by
        cases hus : (x.next.after.runFor n).mapM (·.outcome) with
        | error e => simp [hus, bind, Except.bind] at h
        | ok us => exact ⟨us, rfl, by simpa [hus, bind, Except.bind, pure, Except.pure] using h⟩
      have hend := ended_next x
      rw [isEnd_of_ok ho] at hend
      by_cases hk : t.kind = .endOfFile
      · have hstop : x.next.after.runFor n = [] := by
          cases n with
          | zero => rfl
          | succ n => simp [runFor, pull?, hend, hk]
        simp only [hstop, List.mapM_nil] at hus
        obtain rfl : us = [] := by simpa [pure, Except.pure] using hus.symm
        exact .last ho hk
      · have hlt := potential_next hs he
        exact .more ho hk (ih (sane_next hs) (by simp [hend, he, hk]) (by omega) hus)

/-- The steps of a run are those of the tokens that the lexer gives. -/
theorem Yields.runFor {ts : List Token} (h : Yields x ts) (he : x.ended = false) {n : Nat}
    (hn : ts.length ≤ n) : (x.runFor n).mapM (·.outcome) = .ok ts := by
  induction h generalizing n with
  | @last x t h hk =>
    obtain ⟨m, rfl⟩ : ∃ m, n = m + 1 := ⟨n - 1, by simp at hn; omega⟩
    have hend : x.next.after.ended = true := by simp [ended_next, isEnd_of_ok h, hk]
    have hstop : x.next.after.runFor m = [] := by
      cases m with
      | zero => rfl
      | succ m => simp [Lexer.runFor, pull?, hend]
    simp [Lexer.runFor, pull?, he, Step.isError, h, hstop, pure, Except.pure, bind, Except.bind]
  | @more x t ts h hk _ ih =>
    obtain ⟨m, rfl⟩ : ∃ m, n = m + 1 := ⟨n - 1, by simp at hn; omega⟩
    simp only [List.length_cons, Nat.add_le_add_iff_right] at hn
    have hend : x.next.after.ended = false := by simp [ended_next, isEnd_of_ok h, hk, he]
    simp [Lexer.runFor, pull?, he, Step.isError, h, ih hend hn, pure, Except.pure, bind,
      Except.bind]

/-- Nothing was handed out or queued yet. -/
structure Fresh (x : Lexer) : Prop where
  queued : x.queued = none
  elides : x.elides = false
  text : x.text = []
  ended : x.ended = false

theorem Fresh.sane (h : x.Fresh) : Sane x := by simp [Sane, h.queued]

theorem Fresh.potential_le (h : x.Fresh) : x.potential ≤ x.budget := by
  have hp := Lexer.potential_le x
  simp only [h.queued, Option.toList_none, List.length_nil] at hp
  rw [budget]
  omega

/-- A run without an error reaches the end of the source. -/
theorem Fresh.yields (h : x.Fresh) {ts : List Token} (ht : x.tokens = .ok ts) : Yields x ts :=
  runFor_yields h.sane h.ended h.potential_le ht

theorem Fresh.tokens (h : x.Fresh) {ts : List Token} (hy : Yields x ts) : x.tokens = .ok ts :=
  hy.runFor h.ended (Nat.le_trans (hy.length_le h.sane h.ended) h.potential_le)

theorem Fresh.drain (h : x.Fresh) {ts : List Token} (hy : Yields x ts) :
    x.drain.map Step.outcome = ts.map .ok :=
  hy.drainFor (Nat.le_trans (hy.length_le h.sane h.ended) h.potential_le)

/-- A lexer starts with what its source decodes to. -/
theorem fresh_of_ofFeed {file : String} {feed : Feed} (h : ofFeed file feed = .ok x) :
    x.Fresh ∧ x.cursor.mark = .origin file ∧
      (x.cursor.ahead, x.cursor.breaks) = Break.split (Utf8.decode feed.octets) := by
  unfold ofFeed at h
  cases hc : Cursor.ofOctets file feed.octets with
  | error fault => simp [hc] at h
  | ok cursor =>
    simp only [hc, Except.ok.injEq] at h
    subst h
    refine ⟨⟨rfl, rfl, rfl, rfl⟩, ?_⟩
    unfold Cursor.ofOctets at hc
    split at hc
    · cases hc
    · rename_i run breaks _ heq
      cases hc
      exact ⟨rfl, heq.symm⟩

end Lexer
end GoSyntax
