import GoSyntax.Proofs.Termination
import GoSyntax.Proofs.Grammar.FileTakes
import GoSyntax.Proofs.Grammar.FileTracks

/-! A source up to its end or its first error, as the lexer hands it out and as it arrives at a
parser. -/
namespace GoSyntax

namespace Lexer

/-- The lexer gives the tokens in turn, and then the end of the source or its first error. -/
inductive Leads : Lexer → List Token → Except Error Token → Prop
  | last {x : Lexer} {stop : Except Error Token} (h : x.next.outcome = stop)
    (hstop : ∀ t, stop = .ok t → t.kind = .endOfFile) : Leads x [] stop
  | more {x : Lexer} {t : Token} {ts : List Token} {stop : Except Error Token}
    (h : x.next.outcome = .ok t) (hk : t.kind ≠ .endOfFile) (hr : Leads x.next.after ts stop) :
    Leads x (t :: ts) stop

variable {x : Lexer} {ts : List Token} {stop : Except Error Token} {n : Nat}

theorem Leads.solid (h : Leads x ts stop) : ∀ t ∈ ts, t.kind ≠ .endOfFile := by
  induction h with
  | last => simp
  | more _ hk _ ih => exact List.forall_mem_cons.2 ⟨hk, ih⟩

theorem Leads.stop_kind (h : Leads x ts stop) : ∀ t, stop = .ok t → t.kind = .endOfFile := by
  induction h with
  | last _ hstop => exact hstop
  | more _ _ _ ih => exact ih

/-- What holds at first and is kept by every token holds before each token and before what comes behind
them. -/
theorem Leads.reaches {P : List Token → Lexer → Prop}
    (hstep : ∀ l y t, P l y → y.next.outcome = .ok t → P (l ++ [t]) y.next.after)
    (h : Leads x ts stop) {l a b : List Token} (hx : P l x) (hts : ts = a ++ b) :
    ∃ y, P (l ++ a) y ∧ Leads y b stop := by
  induction a generalizing x ts l with
  | nil =>
    subst hts
    exact ⟨x, by rwa [List.append_nil], h⟩
  | cons u a ih =>
    subst hts
    cases h with
    | more hu _ hr =>
      obtain ⟨y, hy, hleads⟩ := ih hr (hstep l x u hx hu) rfl
      rw [List.append_assoc] at hy
      exact ⟨y, hy, hleads⟩

theorem Leads.head {t : Token} (h : Leads x (t :: ts) stop) : x.next.outcome = .ok t := by
  cases h with
  | more ht _ _ => exact ht

theorem exists_leads (hs : Sane x) (he : x.ended = false) (hn : x.potential ≤ n) :
    ∃ ts stop, Leads x ts stop ∧ ts.length < n := by
  induction n generalizing x with
  | zero =>
    have := potential_pos he
    omega
  | succ n ih =>
    cases ho : x.next.outcome with
    | error e => exact ⟨[], .error e, .last ho (by simp), Nat.succ_pos n⟩
    | ok t =>
      by_cases hk : t.kind = .endOfFile
      · exact ⟨[], .ok t, .last ho (by rintro _ ⟨⟩; exact hk), Nat.succ_pos n⟩
      · have hlt := potential_next hs he
        have hended : x.next.after.ended = false := by simp [ended_next, isEnd_of_ok ho, he, hk]
        obtain ⟨ts, stop, hl, hlen⟩ := ih (sane_next hs) hended (by omega)
        exact ⟨t :: ts, stop, .more ho hk hl, Nat.succ_lt_succ hlen⟩

/-- One who stops at the first error is given these tokens, and what comes behind them. -/
theorem Leads.runFor (h : Leads x ts stop) (he : x.ended = false) (hn : ts.length < n) :
    (x.runFor n).map Step.outcome = ts.map .ok ++ [stop] := by
  induction h generalizing n with
  | @last x stop h hstop =>
    obtain ⟨m, rfl⟩ : ∃ m, n = m + 1 := ⟨n - 1, by omega⟩
    cases stop with
    | error e =>
      have herr : x.next.isError = true := by simp [Step.isError, h]
      simp [Lexer.runFor, pull?, he, herr, runFor_of_ended, h]
    | ok t =>
      have herr : x.next.isError = false := by simp [Step.isError, h]
      have hended : x.next.after.ended = true := by
        simp [ended_next, isEnd_of_ok h, hstop t rfl]
      simp [Lexer.runFor, pull?, he, herr, runFor_of_ended hended, h]
  | @more x t ts stop h hk _ ih =>
    obtain ⟨m, rfl⟩ : ∃ m, n = m + 1 := ⟨n - 1, by omega⟩
    have herr : x.next.isError = false := by simp [Step.isError, h]
    have hended : x.next.after.ended = false := by simp [ended_next, isEnd_of_ok h, he, hk]
    simp only [List.length_cons, Nat.add_lt_add_iff_right] at hn
    simp [Lexer.runFor, pull?, he, herr, h, ih hended hn]

/-- One who goes on behind errors is given them as well, and more. -/
theorem Leads.drainFor (h : Leads x ts stop) (hn : ts.length < n) :
    ∃ steps, (x.drainFor n).map Step.outcome = ts.map .ok ++ stop :: steps := by
  induction h generalizing n with
  | @last x stop h hstop =>
    obtain ⟨m, rfl⟩ : ∃ m, n = m + 1 := ⟨n - 1, by omega⟩
    rw [Lexer.drainFor]
    split
    · exact ⟨[], by simp [h]⟩
    · exact ⟨_, by simp [h]; rfl⟩
  | @more x t ts stop h hk _ ih =>
    obtain ⟨m, rfl⟩ : ∃ m, n = m + 1 := ⟨n - 1, by omega⟩
    simp only [List.length_cons, Nat.add_lt_add_iff_right] at hn
    obtain ⟨steps, hsteps⟩ := ih hn
    exact ⟨steps, by simp [Lexer.drainFor, isEnd_of_ok h, isCrash_of_ok h, h, hk, hsteps]⟩

theorem mapM_outcome {steps : List Step} (h : steps.map Step.outcome = ts.map .ok ++ [stop]) :
    steps.mapM (·.outcome) = stop.map (ts ++ [·]) := by
  induction ts generalizing steps with
  | nil =>
    obtain ⟨s, rfl, rfl⟩ := List.map_eq_singleton_iff.1 h
    rw [List.mapM_cons]
    cases s.outcome with
    | ok t => rfl
    | error e => rfl
  | cons t ts ih =>
    obtain ⟨s, steps, rfl, hs, hrest⟩ := List.map_eq_cons_iff.1 h
    rw [List.mapM_cons, hs, ih hrest]
    cases stop with
    | ok u => rfl
    | error e => rfl

theorem handedOut_eq {steps : List Step} (h : steps.map Step.outcome = ts.map .ok ++ [stop]) :
    handedOut steps = ts ++ stop.toOption.toList := by
  have houtcomes : handedOut steps = (steps.map Step.outcome).filterMap Except.toOption := by
    rw [handedOut, List.filterMap_map]
    rfl
  have hok : ∀ us : List Token,
      (us.map Except.ok).filterMap (Except.toOption (ε := Error)) = us := by
    intro us
    rw [List.filterMap_map]
    exact List.filterMap_some
  rw [houtcomes, h, List.filterMap_append, hok]
  cases stop with
  | ok t => rfl
  | error e => rfl

/-- The tokens that the grammar sees of a source, up to its end or its first error. -/
def visibleTokens (x : Lexer) : List Token := (handedOut x.run).filterMap Token.visible?

section Fresh

variable (h : x.Fresh)

include h

theorem Fresh.exists_leads : ∃ ts stop, Leads x ts stop ∧ ts.length < x.budget :=
  Lexer.exists_leads h.sane h.ended h.potential_le

theorem Fresh.tokens_eq (hl : Leads x ts stop) (hn : ts.length < x.budget) :
    x.tokens = stop.map (ts ++ [·]) := mapM_outcome (hl.runFor h.ended hn)

theorem Fresh.visibleTokens_eq (hl : Leads x ts stop) (hn : ts.length < x.budget) :
    x.visibleTokens = ts.filterMap Token.visible? ++ stop.toOption.toList := by
  rw [visibleTokens, run, handedOut_eq (hl.runFor h.ended hn), List.filterMap_append]
  cases stop with
  | error e => rfl
  | ok t => simp [Except.toOption, Token.visible?_endOfFile (hl.stop_kind t rfl)]

end Fresh

end Lexer

theorem Token.visible?_solid {t v : Token} (h : t.visible? = some v) (ht : t.kind ≠ .endOfFile) :
    v.kind ≠ .endOfFile := by
  unfold visible? at h
  split at h
  · cases h
  · cases h
  · cases h
    simp [withKind]
  · cases h
    exact ht

/-- Being seen changes nothing of a token but its kind. -/
theorem Token.place_visible {t v : Token} (h : t.visible? = some v) :
    v.pos = t.pos ∧ v.text = t.text := by
  unfold visible? at h
  split at h
  · cases h
  · cases h
  · cases h
    exact ⟨rfl, rfl⟩
  · cases h
    exact ⟨rfl, rfl⟩

theorem Token.solid_visible {ts : List Token} (h : ∀ t ∈ ts, t.kind ≠ .endOfFile) :
    ∀ v ∈ ts.filterMap visible?, v.kind ≠ .endOfFile := by
  intro v hv
  obtain ⟨t, ht, hvis⟩ := List.mem_filterMap.1 hv
  exact visible?_solid hvis (h t ht)

/-- What arrives of steps that give tokens and then the end of the source or an error. -/
theorem Arrival.outcome_group_append {steps : List Step} {ts : List Token}
    {stop : Except Error Token} {rest : List (Except Error Token)} (passed : List Token)
    (hstop : ∀ t, stop = .ok t → t.kind = .endOfFile)
    (h : steps.map Step.outcome = ts.map .ok ++ stop :: rest) :
    ∃ more, (group passed steps).map outcome =
      (ts.filterMap Token.visible?).map .ok ++ stop :: more := by
  induction ts generalizing steps passed with
  | nil =>
    obtain ⟨⟨outcome, after⟩, steps, rfl, rfl, -⟩ := List.map_eq_cons_iff.1 h
    cases outcome with
    | error e => exact ⟨_, rfl⟩
    | ok t =>
      simp only [group, Token.visible?_endOfFile (hstop t rfl)]
      exact ⟨_, rfl⟩
  | cons t ts ih =>
    obtain ⟨⟨outcome, after⟩, steps, rfl, rfl, hrest⟩ := List.map_eq_cons_iff.1 h
    cases hv : t.visible? with
    | none =>
      simp only [group, hv]
      rw [List.filterMap_cons_none hv]
      exact ih _ hrest
    | some v =>
      obtain ⟨more, hmore⟩ := ih [] hrest
      refine ⟨more, ?_⟩
      simp only [group, hv, List.map_cons, hmore]
      rw [List.filterMap_cons_some hv]
      rfl

namespace Parser

variable {x : Lexer} {limit : Nat} {p : Parser} {ts : List Token} {stop : Except Error Token}

theorem arrivals_of_leads (hl : x.Leads ts stop) (hn : ts.length < x.budget) :
    ∃ more, (Arrival.ofLexer x).map Arrival.outcome =
      (ts.filterMap Token.visible?).map .ok ++ stop :: more := by
  obtain ⟨steps, hsteps⟩ := hl.drainFor hn
  exact Arrival.outcome_group_append [] hl.stop_kind hsteps

/-- A parser at the start of a source faces its visible tokens, and then its end or its first
error. -/
theorem stream_of_ofLexer (hl : x.Leads ts stop) (hn : ts.length < x.budget)
    (hp : ofLexer limit x = .ok p) :
    ∃ more, p.stream = (ts.filterMap Token.visible?).map .ok ++ stop :: more := by
  obtain ⟨more, hmore⟩ := arrivals_of_leads hl hn
  refine ⟨more, ?_⟩
  rw [← hmore]
  unfold ofLexer ofArrivals at hp
  cases ha : Arrival.ofLexer x with
  | nil => simp [ha] at hmore
  | cons a ahead =>
    simp only [ha] at hp
    cases ho : a.outcome with
    | error e => simp [ho, Except.map] at hp
    | ok t =>
      simp only [ho, Except.map, Except.ok.injEq] at hp
      subst hp
      simp [stream, ho]

/-- There is a parser unless an error comes before any visible token. -/
theorem ofLexer_of_error {e : Error} (hl : x.Leads ts stop) (hn : ts.length < x.budget)
    (hp : ofLexer limit x = .error e) : stop = .error e := by
  obtain ⟨more, hmore⟩ := arrivals_of_leads hl hn
  unfold ofLexer ofArrivals at hp
  cases ha : Arrival.ofLexer x with
  | nil => simp [ha] at hmore
  | cons a ahead =>
    simp only [ha] at hp
    cases ho : a.outcome with
    | ok t => simp [ho, Except.map] at hp
    | error d =>
      simp only [ho, Except.map, Except.error.injEq] at hp
      subst hp
      rw [ha, List.map_cons, ho] at hmore
      cases hvs : ts.filterMap Token.visible? with
      | nil =>
        rw [hvs] at hmore
        exact (List.cons.inj hmore).1.symm
      | cons v vs =>
        rw [hvs] at hmore
        cases (List.cons.inj hmore).1

variable {o : Outlook}

theorem along_append {vs : List Token} {rest : List (Except Error Token)}
    (hvs : ∀ v ∈ vs, o.place v.pos) (hrest : o.Along rest) : o.Along (vs.map .ok ++ rest) := by
  induction vs with
  | nil => exact hrest
  | cons v vs ih =>
    obtain ⟨hv, hvs⟩ := List.forall_mem_cons.1 hvs
    exact ⟨hv, fun _ => ih hvs⟩

/-- An outlook that is right about the visible tokens and about what comes behind them is right
about a parser at the start. -/
theorem ready_of_ofLexer (hl : x.Leads ts stop) (hn : ts.length < x.budget)
    (hp : ofLexer limit x = .ok p) (hplace : ∀ v ∈ ts.filterMap Token.visible?, o.place v.pos)
    (hend : ∀ t, stop = .ok t → o.place t.pos) (hflaw : ∀ e, stop = .error e → o.flaw e) :
    p.Ready o p.room 2 (2 * (ts.filterMap Token.visible?).length + 2) := by
  obtain ⟨more, hstream⟩ := stream_of_ofLexer hl hn hp
  have hstop : o.Along (stop :: more) ∧ reachOf (stop :: more) = 0 := by
    cases stop with
    | error e => exact ⟨hflaw e rfl, rfl⟩
    | ok t =>
      have hk := hl.stop_kind t rfl
      exact ⟨⟨hend t rfl, fun h => absurd hk h⟩, by simp [reachOf, hk]⟩
  have hreach : p.reach = (ts.filterMap Token.visible?).length := by
    rw [reach, hstream, reachOf_append (Token.solid_visible hl.solid), hstop.2, Nat.add_zero]
  refine ⟨?_, Nat.le_refl _, Nat.le_of_eq (by rw [hreach])⟩
  rw [hstream]
  exact along_append hplace hstop.1

/-- Where a stream first comes to an end or to an error is determined by the stream. -/
theorem stop_unique {us vs : List Token} {a b : Except Error Token}
    {rest rest' : List (Except Error Token)} (hus : ∀ t ∈ us, t.kind ≠ .endOfFile)
    (hvs : ∀ t ∈ vs, t.kind ≠ .endOfFile) (ha : ∀ t, a = .ok t → t.kind = .endOfFile)
    (hb : ∀ t, b = .ok t → t.kind = .endOfFile)
    (h : us.map .ok ++ a :: rest = vs.map .ok ++ b :: rest') : us = vs ∧ a = b := by
  induction us generalizing vs with
  | nil =>
    cases vs with
    | nil => exact ⟨rfl, (List.cons.inj h).1⟩
    | cons v vs => exact absurd (ha v (List.cons.inj h).1) (hvs v List.mem_cons_self)
  | cons u us ih =>
    obtain ⟨hu, hus⟩ := List.forall_mem_cons.1 hus
    cases vs with
    | nil => exact absurd (hb u (List.cons.inj h).1.symm) hu
    | cons v vs =>
      obtain ⟨-, hvs⟩ := List.forall_mem_cons.1 hvs
      obtain ⟨huv, hrest⟩ := List.cons.inj h
      obtain ⟨rfl, rfl⟩ := ih hus hvs hrest
      exact ⟨by rw [Except.ok.inj huv], rfl⟩

/-- A file that is read is written as all visible tokens of its source, up to its end and without an
error before it. -/
theorem written_of_file {f : File} {q : Parser} (hl : x.Leads ts stop) (hn : ts.length < x.budget)
    (hp : ofLexer limit x = .ok p) (hgood : p.Good) (hf : Parse.file p = .ok f q) :
    (∃ t, stop = .ok t) ∧ Written [.file f] (ts.filterMap Token.visible?) := by
  obtain ⟨more, hstream⟩ := stream_of_ofLexer hl hn hp
  have hready : p.Ready ⟨fun _ => True, fun _ => True⟩ p.room 2 _ :=
    ready_of_ofLexer hl hn hp (fun _ _ => trivial) (fun _ _ => trivial) (fun _ _ => trivial)
  obtain ⟨us, hpasses, hwritten⟩ := (Parse.tracks_file hready).of_ok hf
  obtain ⟨_, -, -, hend⟩ := Parse.takes_file hgood f q hf
  have hsame := hpasses.stream.symm.trans hstream
  obtain ⟨rfl, hstop⟩ := stop_unique hpasses.solid (Token.solid_visible hl.solid)
    (by rintro _ ⟨⟩; exact hend) hl.stop_kind hsame
  exact ⟨⟨q.peek, hstop.symm⟩, hwritten⟩

end Parser
end GoSyntax
