import GoSyntax.Grammar.Expr
import GoSyntax.Proofs.Tree.Written

/-! What a rule reads and what it may blame. A rule that succeeds has read the tokens of the tree it
gives. A rule that fails was stopped by the first flaw of the source, or names the place of a token
that it could see; and it asks for no more than two levels for each token it can reach. -/
namespace GoSyntax

/-- What is known of a stream up to its end or its first flaw. -/
structure Outlook where
  /-- Holds of the place of every token. -/
  place : Position → Prop
  /-- Holds of the flaw. -/
  flaw : Error → Prop

namespace Outlook

variable (o : Outlook)

/-- The outlook is right about the stream, which has an end or a flaw. -/
def Along : List (Except Error Token) → Prop
  | [] => False
  | .ok t :: rest => o.place t.pos ∧ (t.kind ≠ .endOfFile → Along rest)
  | .error e :: _ => o.flaw e

end Outlook

/-- How many tokens come before the end of the source or the first flaw. -/
def reachOf : List (Except Error Token) → Nat
  | .ok t :: rest => if t.kind = .endOfFile then 0 else reachOf rest + 1
  | _ => 0

namespace Parser

def reach (p : Parser) : Nat := reachOf p.stream

/-- From `p` on the tokens were taken to come to `q`, and the end of the source is none of them. -/
structure Passes (p : Parser) (ts : List Token) (q : Parser) : Prop where
  stream : p.stream = ts.map .ok ++ q.stream
  solid : ∀ t ∈ ts, t.kind ≠ .endOfFile
  depth : q.depth = p.depth
  limit : q.limit = p.limit

/-- The outlook is right about what `p` can see, at most `r` more rules can be opened, and `n` is at
least two for each token in reach and `k` more. -/
structure Ready (o : Outlook) (r k n : Nat) (p : Parser) : Prop where
  along : o.Along p.stream
  room : p.room ≤ r
  levels : 2 * p.reach + k ≤ n

variable {o : Outlook} {r r' k k' n : Nat} {p q q' : Parser} {t : Token} {ts us : List Token}

theorem Passes.refl (p : Parser) : p.Passes [] p := ⟨rfl, by simp, rfl, rfl⟩

theorem Passes.trans (h : p.Passes ts q) (h' : q.Passes us q') : p.Passes (ts ++ us) q' where
  stream := by rw [h.stream, h'.stream, List.map_append, List.append_assoc]
  solid t ht := (List.mem_append.1 ht).elim (h.solid t) (h'.solid t)
  depth := h'.depth.trans h.depth
  limit := h'.limit.trans h.limit

theorem Passes.room (h : p.Passes ts q) : q.room = p.room := by
  rw [Parser.room, Parser.room, h.depth, h.limit]

theorem reachOf_append (h : ∀ t ∈ ts, t.kind ≠ .endOfFile) (rest : List (Except Error Token)) :
    reachOf (ts.map .ok ++ rest) = ts.length + reachOf rest := by
  induction ts with
  | nil => simp
  | cons t ts ih =>
    obtain ⟨ht, hts⟩ := List.forall_mem_cons.1 h
    rw [List.map_cons, List.cons_append, reachOf, if_neg ht, ih hts, List.length_cons]
    omega

theorem Passes.reach (h : p.Passes ts q) : p.reach = ts.length + q.reach := by
  rw [Parser.reach, h.stream, reachOf_append h.solid]
  rfl

theorem along_of_append (hs : ∀ t ∈ ts, t.kind ≠ .endOfFile) {rest : List (Except Error Token)}
    (h : o.Along (ts.map .ok ++ rest)) : (∀ t ∈ ts, o.place t.pos) ∧ o.Along rest := by
  induction ts with
  | nil => exact ⟨by simp, h⟩
  | cons t ts ih =>
    obtain ⟨ht, hts⟩ := List.forall_mem_cons.1 hs
    obtain ⟨hplaces, hrest⟩ := ih hts (h.2 ht)
    exact ⟨List.forall_mem_cons.2 ⟨h.1, hplaces⟩, hrest⟩

theorem Ready.place (h : p.Ready o r k n) : o.place p.peek.pos := h.along.1

theorem Ready.mono (h : p.Ready o r k n) (hr : r ≤ r') (hk : k' ≤ k) : p.Ready o r' k' n :=
  ⟨h.along, Nat.le_trans h.room hr, Nat.le_trans (Nat.add_le_add_left hk _) h.levels⟩

theorem Ready.less (h : p.Ready o r k n) (hk : k' ≤ k) : p.Ready o r k' n :=
  h.mono (Nat.le_refl r) hk

theorem Passes.ready (h : p.Passes ts q) (hp : p.Ready o r k n) : q.Ready o r k n where
  along := (along_of_append h.solid (by rw [← h.stream]; exact hp.along)).2
  room := by rw [h.room]; exact hp.room
  levels := by
    have := h.reach
    have := hp.levels
    omega

/-- Each token that is taken leaves two levels more for the rest. -/
theorem Passes.gain (h : p.Passes (t :: ts) q) (hp : p.Ready o r k n) : q.Ready o r (k + 2) n where
  along := (h.ready hp).along
  room := (h.ready hp).room
  levels := by
    have hreach := h.reach
    have hlevels := hp.levels
    rw [List.length_cons] at hreach
    omega

/-- One level deeper. -/
theorem Ready.deeper (h : p.Ready o r (k + 1) (n + 1)) :
    p.enter.Ready o (r - 1) k n where
  along := h.along
  room := by
    have hroom := h.room
    simp only [Parser.room, enter_depth, enter_limit] at hroom ⊢
    omega
  levels := Nat.le_of_succ_le_succ h.levels

end Parser

namespace Parse

open GoSyntax.Parser

variable {α β σ : Type} {m : Parse α} {f : α → Parse β} {p q : Parser} {o : Outlook} {r k n : Nat}
  {Q Q' : α → List Token → Parser → Prop} {R : β → List Token → Parser → Prop}

/-- The error is the flaw ahead, or it is none of the text itself and blames a place in sight; and
where levels were wanting there were fewer than `n`. -/
def Excused (o : Outlook) (n : Nat) (p : Parser) (e : Error) : Prop :=
  o.flaw e ∨ o.place e.pos ∧ ¬e.cause.IsLexical ∧ (e.isTooDeep = true → p.room < n)

/-- If the rule succeeds at `p`, then `Q` holds of what it gives, of the tokens that it read and of
where it ended. If it fails, there is an excuse for it. -/
def Tracks (o : Outlook) (n : Nat) (m : Parse α) (p : Parser) (Q : α → List Token → Parser → Prop) :
    Prop :=
  match m p with
  | .ok a q => ∃ ts, p.Passes ts q ∧ Q a ts q
  | .error e _ => Excused o n p e

theorem Tracks.pure {a : α} (h : Q a [] p) : Tracks o n (pure a) p Q := ⟨[], .refl p, h⟩

theorem Tracks.of_ok {a : α} (h : Tracks o n m p Q) (hm : m p = .ok a q) :
    ∃ ts, p.Passes ts q ∧ Q a ts q := by
  unfold Tracks at h
  rwa [hm] at h

theorem Tracks.of_error {e : Error} (h : Tracks o n m p Q) (hm : m p = .error e q) :
    Excused o n p e := by
  unfold Tracks at h
  rwa [hm] at h

theorem Tracks.mono (h : Tracks o n m p Q) (hQ : ∀ a ts q, p.Passes ts q → Q a ts q → Q' a ts q) :
    Tracks o n m p Q' := by
  unfold Tracks at h ⊢
  split at h
  · obtain ⟨ts, hts, ha⟩ := h
    exact ⟨ts, hts, hQ _ ts _ hts ha⟩
  · exact h

/-- What is asked of the second rule is asked of the tokens of both. -/
theorem Tracks.bind (hm : Tracks o n m p Q)
    (hf : ∀ a ts q, p.Passes ts q → Q a ts q → Tracks o n (f a) q fun b us => R b (ts ++ us)) :
    Tracks o n (m >>= f) p R := by
  unfold Tracks
  cases hr : m p with
  | error e q =>
    rw [bind_error hr]
    exact hm.of_error hr
  | ok a q =>
    rw [bind_ok hr]
    obtain ⟨ts, hts, ha⟩ := hm.of_ok hr
    have hrest := hf a ts q hts ha
    unfold Tracks at hrest
    split at hrest
    · obtain ⟨us, hus, hR⟩ := hrest
      exact ⟨ts ++ us, hts.trans hus, hR⟩
    · rw [Excused, hts.room] at hrest
      exact hrest

theorem Tracks.map {g : α → β} (hm : Tracks o n m p Q)
    (hg : ∀ a ts q, p.Passes ts q → Q a ts q → R (g a) ts q) : Tracks o n (g <$> m) p R := by
  rw [map_eq_pure_bind]
  refine hm.bind fun a ts q hts ha => .pure ?_
  rw [List.append_nil]
  exact hg a ts q hts ha

theorem tracks_failAt {pos : Position} {cause : Cause} (hpos : o.place pos)
    (hcause : ¬cause.IsLexical) (hdeep : ∀ limit, cause ≠ .tooDeep limit) :
    Tracks o n (failAt pos cause : Parse α) p Q := by
  refine Or.inr ⟨hpos, hcause, fun h => ?_⟩
  cases cause with
  | tooDeep limit => exact absurd rfl (hdeep limit)
  | _ => cases h

theorem tracks_problemAt {pos : Position} (hpos : o.place pos) (problem : Problem) :
    Tracks o n (problemAt pos problem : Parse α) p Q :=
  tracks_failAt hpos (by simp [Cause.IsLexical]) (by rintro limit ⟨⟩)

theorem tracks_unexpected (hp : p.Ready o r k n) (wanted : Expected) :
    Tracks o n (unexpected wanted : Parse α) p Q :=
  Or.inr ⟨hp.place, by simp [Cause.IsLexical], by rintro ⟨⟩⟩

/-- A rule that asks for a level has one left to ask for. -/
theorem tracks_tooDeep (hp : p.Ready o r (k + 1) n) (hroom : p.room = 0) :
    Tracks o n (tooDeep : Parse α) p Q := by
  refine Or.inr ⟨hp.place, by simp [Cause.IsLexical], fun _ => ?_⟩
  have := hp.levels
  omega

theorem tracks_defectAt {pos : Position} (hpos : o.place pos) (d : Defect) :
    Tracks o n (failAt pos (.defect d) : Parse α) p Q :=
  tracks_failAt hpos (by simp [Cause.IsLexical]) (by rintro limit ⟨⟩)

theorem tracks_stringLit {t : Token} (hpos : o.place t.pos) :
    Tracks o n (stringLit t) p fun _ ts _ => ts = [] := by
  unfold stringLit
  split
  · exact .pure rfl
  · exact tracks_defectAt hpos _

theorem tracks_note (e : Event) : Tracks o n (note e) p fun _ ts _ => ts = [] :=
  ⟨[], ⟨rfl, by simp, rfl, rfl⟩, rfl⟩

theorem tracks_peek : Tracks o n peek p fun t ts q => t = p.peek ∧ ts = [] ∧ p = q :=
  ⟨[], .refl p, rfl, rfl, rfl⟩

theorem tracks_peekIs (kind : Kind) : Tracks o n (peekIs kind) p fun b ts q =>
    (b = true ↔ p.peek.kind = kind) ∧ ts = [] ∧ p = q :=
  ⟨[], .refl p, by simp, rfl, rfl⟩

theorem Tracks.nested (hp : p.Ready o r (k + 1) n)
    (h : ∀ n', p.enter.Ready o (r - 1) k n' →
      Tracks o n' m p.enter
        fun a ts q => Q a ts q.leave) : Tracks o n (nested m) p Q := by
  unfold Tracks Parse.nested
  by_cases hd : p.limit ≤ p.depth
  · rw [if_pos hd]
    exact tracks_tooDeep (Q := Q) hp (by rw [Parser.room]; omega)
  · rw [if_neg hd]
    -- inside there is one level less to open, and one less is needed
    obtain ⟨n, rfl⟩ : ∃ n', n = n' + 1 := ⟨n - 1, by have := hp.levels; omega⟩
    have hm := h n hp.deeper
    cases hr : m p.enter with
    | ok a q =>
      obtain ⟨ts, hts, hQ⟩ := hm.of_ok hr
      refine ⟨ts, ⟨hts.stream, hts.solid, ?_, hts.limit⟩, hQ⟩
      rw [leave_depth, hts.depth]
      exact Nat.add_sub_cancel p.depth 1
    | error e q =>
      rcases hm.of_error hr with hflaw | ⟨hpos, hcause, hlevels⟩
      · exact .inl hflaw
      · refine .inr ⟨hpos, hcause, fun he => ?_⟩
        have hlt := hlevels he
        simp only [Parser.room, enter_depth, enter_limit] at hlt ⊢
        omega

section Steps

variable (hp : p.Ready o r k n)

include hp

theorem tracks_advance (hk : p.peek.kind ≠ .endOfFile) :
    Tracks o n advance p fun t ts _ => t = p.peek ∧ ts = [p.peek] := by
  have hrest := hp.along.2 hk
  unfold Tracks advance
  cases ha : p.ahead with
  | nil =>
    rw [ha] at hrest
    exact hrest.elim
  | cons a ahead =>
    rw [ha] at hrest
    dsimp only
    cases ho : a.outcome with
    | ok t =>
      refine ⟨[p.peek], ⟨?_, by simpa using hk, rfl, rfl⟩, rfl, rfl⟩
      simp [stream, ha, ho]
    | error e =>
      rw [List.map_cons, ho] at hrest
      exact Or.inl hrest

theorem tracks_consumeIf {kind : Kind} (hk : kind ≠ .endOfFile) :
    Tracks o n (consumeIf kind) p fun b ts q =>
      b = true ∧ p.peek.kind = kind ∧ ts = [p.peek] ∨ b = false ∧ ts = [] ∧ p = q := by
  refine (tracks_peekIs kind).bind ?_
  rintro b _ _ - ⟨hb, rfl, rfl⟩
  cases b with
  | true =>
    have hkind := hb.1 rfl
    refine (tracks_advance hp (by rwa [hkind])).bind ?_
    rintro _ _ q - ⟨rfl, rfl⟩
    exact .pure (.inl ⟨rfl, hkind, rfl⟩)
  | false => exact .pure (.inr ⟨rfl, rfl, rfl⟩)

theorem tracks_requireAny (wanted : Expected) {kinds : List Kind} (hk : .endOfFile ∉ kinds) :
    Tracks o n (require wanted kinds) p fun t ts _ =>
      t = p.peek ∧ p.peek.kind ∈ kinds ∧ ts = [p.peek] := by
  refine tracks_peek.bind ?_
  rintro _ _ _ - ⟨rfl, rfl, rfl⟩
  split
  · rename_i h
    have hkind : p.peek.kind ∈ kinds := by simpa using h
    refine (tracks_advance hp fun he => hk (he ▸ hkind)).mono ?_
    rintro _ _ q - ⟨rfl, rfl⟩
    exact ⟨rfl, hkind, rfl⟩
  · exact tracks_unexpected hp wanted

theorem tracks_require (wanted : Expected) {kind : Kind} (hk : kind ≠ .endOfFile) :
    Tracks o n (require wanted [kind]) p fun t ts _ =>
      t = p.peek ∧ p.peek.kind = kind ∧ ts = [p.peek] := by
  refine (tracks_requireAny hp wanted (by simpa using hk.symm)).mono ?_
  rintro _ _ q - ⟨rfl, hkind, rfl⟩
  exact ⟨rfl, List.mem_singleton.1 hkind, rfl⟩

theorem tracks_identifier (wanted : Expected) : Tracks o n (identifier wanted) p fun i ts _ =>
    i = .ofToken p.peek ∧ p.peek.kind = .identifier ∧ ts = [p.peek] := by
  refine (tracks_require hp wanted (by simp)).map ?_
  rintro _ _ q - ⟨rfl, hk, rfl⟩
  exact ⟨rfl, hk, rfl⟩

theorem tracks_terminator (wanted : Expected) :
    Tracks o n (terminator wanted) p fun _ ts _ => Written [] ts := by
  refine tracks_peek.bind ?_
  rintro _ _ _ - ⟨rfl, rfl, rfl⟩
  split
  · exact .pure .nil
  · refine (tracks_require hp wanted (by simp)).bind ?_
    rintro _ _ q - ⟨rfl, hk, rfl⟩
    exact .pure (.mark (by simp [hk]) .nil)

end Steps

/-- A loop keeps what each of its rounds keeps. -/
theorem Tracks.loop {body : σ → Parse (ForInStep σ)} {I : σ → List Token → Prop} {s : σ}
    (hbody : ∀ s ts q, q.Ready o r k n → I s ts → Tracks o n (body s) q fun x us _ =>
      I x.value (ts ++ us)) (hp : p.Ready o r k n) (hs : I s []) :
    Tracks o n (loop body s) p fun s' ts _ => I s' ts := by
  have hloop : ∀ i s ts (q : Parser), q.Ready o r k n → I s ts →
      Tracks o n (loopFor body i s) q fun s' us _ => I s' (ts ++ us) := by
    intro i
    induction i with
    | zero =>
      intro s ts q _ hs
      exact .pure (by rwa [List.append_nil])
    | succ i ih =>
      intro s ts q hq hs
      refine (hbody s ts q hq hs).bind fun x us q' hq' hx => ?_
      cases x with
      | done s' => exact .pure (by rwa [List.append_nil])
      | yield s' =>
        refine (ih s' _ q' (hq'.ready hq) hx).mono fun _ _ _ _ h => ?_
        rwa [List.append_assoc] at h
  exact (hloop _ s [] p hp hs).mono fun _ _ _ _ h => h

section Lists

variable {item : Parse α} {G : α → Prop} {row : α → List Node}
  (hitem : ∀ q : Parser, q.Ready o r k n → Tracks o n item q fun a ts _ => G a ∧ Written (row a) ts)

include hitem

theorem Tracks.commaList {stop : Kind} (hp : p.Ready o r k n) :
    Tracks o n (commaList stop item) p fun l ts _ =>
      (∀ a ∈ l, G a) ∧ Written (l.flatMap row) ts := by
  have hlist : ∀ i (q : Parser), q.Ready o r k n → Tracks o n (commaListFor stop item i) q
      fun l ts _ => (∀ a ∈ l, G a) ∧ Written (l.flatMap row) ts := by
    intro i
    induction i with
    | zero => exact fun q _ => .pure ⟨by simp, .nil⟩
    | succ i ih =>
      intro q hq
      refine (tracks_peekIs stop).bind ?_
      rintro b _ _ - ⟨-, rfl, rfl⟩
      cases b with
      | true => exact .pure ⟨by simp, .nil⟩
      | false =>
        refine (hitem q hq).bind ?_
        rintro a ts q₁ h₁ ⟨ha, hts⟩
        refine (tracks_consumeIf (h₁.ready hq) (by simp)).bind fun b us q₂ h₂ hb => ?_
        rcases hb with ⟨rfl, hk, rfl⟩ | ⟨rfl, rfl, rfl⟩
        · refine (ih q₂ (h₂.ready (h₁.ready hq))).bind ?_
          rintro l vs q₃ - ⟨hl, hvs⟩
          refine .pure ⟨List.forall_mem_cons.2 ⟨ha, hl⟩, ?_⟩
          simpa using hts.append (.mark (by simp [hk]) hvs)
        · exact .pure ⟨by simpa using ha, by simpa using hts⟩
  exact hlist _ p hp

theorem Tracks.termList {stop : Kind} {wanted : Expected} (hp : p.Ready o r k n) :
    Tracks o n (termList stop wanted item) p fun l ts _ =>
      (∀ a ∈ l, G a) ∧ Written (l.flatMap row) ts := by
  have hlist : ∀ i (q : Parser), q.Ready o r k n → Tracks o n (termListFor stop wanted item i) q
      fun l ts _ => (∀ a ∈ l, G a) ∧ Written (l.flatMap row) ts := by
    intro i
    induction i with
    | zero => exact fun q _ => .pure ⟨by simp, .nil⟩
    | succ i ih =>
      intro q hq
      refine (tracks_peekIs stop).bind ?_
      rintro b _ _ - ⟨-, rfl, rfl⟩
      cases b with
      | true => exact .pure ⟨by simp, .nil⟩
      | false =>
        refine (hitem q hq).bind ?_
        rintro a ts q₁ h₁ ⟨ha, hts⟩
        refine (tracks_terminator (h₁.ready hq) wanted).bind fun _ us q₂ h₂ hus => ?_
        refine (ih q₂ (h₂.ready (h₁.ready hq))).bind ?_
        rintro l vs q₃ - ⟨hl, hvs⟩
        refine .pure ⟨List.forall_mem_cons.2 ⟨ha, hl⟩, ?_⟩
        simpa using hts.append (hus.append hvs)
  exact hlist _ p hp

theorem Tracks.openedList {opener : Kind} (ho : opener ≠ .identifier) (he : opener ≠ .endOfFile)
    (hp : p.Ready o r k n) : Tracks o n (openedList opener item) p fun l ts _ =>
      (∀ a ∈ l, G a) ∧ Written (l.flatMap row) ts := by
  have hlist : ∀ i (q : Parser), q.Ready o r k n → Tracks o n (openedListFor opener item i) q
      fun l ts _ => (∀ a ∈ l, G a) ∧ Written (l.flatMap row) ts := by
    intro i
    induction i with
    | zero => exact fun q _ => .pure ⟨by simp, .nil⟩
    | succ i ih =>
      intro q hq
      refine (tracks_consumeIf hq he).bind fun b us q₁ h₁ hb => ?_
      rcases hb with ⟨rfl, hk, rfl⟩ | ⟨rfl, rfl, rfl⟩
      · refine (hitem q₁ (h₁.ready hq)).bind ?_
        rintro a ts q₂ h₂ ⟨ha, hts⟩
        refine (ih q₂ (h₂.ready (h₁.ready hq))).bind ?_
        rintro l vs q₃ - ⟨hl, hvs⟩
        refine .pure ⟨List.forall_mem_cons.2 ⟨ha, hl⟩, ?_⟩
        simpa using Written.mark (by rwa [hk]) (hts.append hvs)
      · exact .pure ⟨by simp, .nil⟩
  exact hlist _ p hp

end Lists

namespace Expr

/-- The rules one level deeper read what they give where levels are left. -/
def Deepens (o : Outlook) (r : Nat) (deeper : Goal → Parse Expr) : Prop :=
  ∀ goal n (p : Parser), p.Ready o r 2 n →
    Tracks o n (deeper goal) p fun e ts _ => Written [.expr e] ts

section Rules

variable {deeper : Goal → Parse GoSyntax.Expr} (hd : Deepens o r deeper)

include hd

theorem tracks_operand (hp : p.Ready o r 0 n) :
    Tracks o n (operand deeper) p fun e ts _ => Written [.expr e] ts := by
  refine tracks_peek.bind ?_
  rintro _ _ _ - ⟨rfl, rfl, rfl⟩
  split
  · refine (tracks_identifier hp _).map ?_
    rintro _ _ q - ⟨rfl, hk, rfl⟩
    exact .wrap rfl (.of_ident hk)
  · rename_i hk
    refine (tracks_advance hp (by simp [hk])).bind ?_
    rintro _ _ q₁ h₁ ⟨rfl, rfl⟩
    have hp₁ := h₁.gain hp
    refine (hd _ n q₁ hp₁).bind fun e ts q₂ h₂ he => ?_
    refine (tracks_require (h₂.ready hp₁) _ (by simp)).bind ?_
    rintro _ _ q₃ - ⟨rfl, hclose, rfl⟩
    exact .pure (.wrap rfl (.mark (by simp [hk]) (he.snoc (by simp [hclose]))))
  · rename_i form hk
    refine (tracks_advance hp (by simp [hk])).bind ?_
    rintro _ _ q - ⟨rfl, rfl⟩
    split
    · exact .pure (.wrap rfl (.mark (by simp [hk]) .nil))
    · exact tracks_defectAt hp.place _
  · exact tracks_unexpected hp _

theorem tracks_postfixStep {e : GoSyntax.Expr} {ts : List Token} (hp : p.Ready o r 0 n)
    (he : Written [.expr e] ts) :
    Tracks o n (postfixStep deeper e) p fun x us _ => Written [.expr x.value] (ts ++ us) := by
  refine (tracks_consumeIf hp (by simp)).bind fun b us q₁ h₁ hb => ?_
  rcases hb with ⟨rfl, hk, rfl⟩ | ⟨rfl, rfl, rfl⟩
  · refine (tracks_identifier (h₁.ready hp) _).bind ?_
    rintro _ _ q₂ - ⟨rfl, hfield, rfl⟩
    exact .pure (.wrap rfl (he.append (.mark (by simp [hk]) (.of_ident hfield))))
  · refine (tracks_consumeIf hp (by simp)).bind fun b us q₁ h₁ hb => ?_
    rcases hb with ⟨rfl, hk, rfl⟩ | ⟨rfl, rfl, rfl⟩
    · have hp₁ := h₁.gain hp
      have hitem : ∀ q : Parser, q.Ready o r 2 n → Tracks o n (deeper (.binary 1)) q
          fun e ts _ => True ∧ Written [.expr e] ts := fun q hq =>
        (hd _ n q hq).mono fun _ _ _ _ he => ⟨trivial, he⟩
      refine (Tracks.commaList hitem hp₁).bind ?_
      rintro args us q₂ h₂ ⟨-, hargs⟩
      refine (tracks_require (h₂.ready hp₁) _ (by simp)).bind ?_
      rintro _ _ q₃ - ⟨rfl, hclose, rfl⟩
      refine .pure (.wrap rfl ?_)
      rw [Node.parts_eq rfl]
      have hclosed := hargs.snoc (t := q₂.peek) (by simp [hclose])
      have hall := he.append (hclosed.mark (t := p.peek) (by simp [hk]))
      simpa [Node.children, Node.exprChildren, ← List.map_eq_flatMap] using hall
    · exact .pure (by simpa using he)

theorem tracks_primary (hp : p.Ready o r 1 n) :
    Tracks o n (primary deeper) p fun e ts _ => Written [.expr e] ts := by
  refine .nested hp fun n' hp' => ?_
  have hp' := hp'.mono (Nat.sub_le r 1) (Nat.le_refl 0)
  refine (tracks_operand hd hp').bind fun e ts q₁ h₁ he => ?_
  refine Tracks.loop (I := fun e' us => Written [.expr e'] (ts ++ us)) ?_ (h₁.ready hp')
    (by simpa using he)
  intro e' us q hq he'
  simpa only [List.append_assoc] using tracks_postfixStep hd hq he'

theorem tracks_unaryRule (hp : p.Ready o r 1 n) :
    Tracks o n (unaryRule deeper) p fun e ts _ => Written [.expr e] ts := by
  refine tracks_peek.bind ?_
  rintro _ _ _ - ⟨rfl, rfl, rfl⟩
  split
  · rename_i op hk
    split
    · refine (tracks_advance hp (by simp [hk])).bind ?_
      rintro _ _ q₁ h₁ ⟨rfl, rfl⟩
      refine (hd _ n q₁ ((h₁.gain hp).less (by omega))).bind fun e ts q₂ h₂ he => .pure ?_
      rw [List.append_nil]
      exact .wrap rfl (.mark (by simp [hk]) he)
    · exact tracks_primary hd hp
  · exact tracks_primary hd hp

omit hd in
theorem tracks_operatorInView (least : Nat) : Tracks o n (operatorInView? least) p fun x ts q =>
    ts = [] ∧ p = q ∧ ∀ op precedence, x = some (op, precedence) → p.peek.kind = .operator op := by
  refine tracks_peek.bind ?_
  rintro _ _ _ - ⟨rfl, rfl, rfl⟩
  split
  · rename_i op hk
    refine .pure ⟨rfl, rfl, fun op' precedence h => ?_⟩
    obtain ⟨_, -, hj⟩ := Option.map_eq_some_iff.1 h
    cases hj
    exact hk
  · exact .pure ⟨rfl, rfl, by simp⟩

theorem tracks_binaryStep {least : Nat} {left : GoSyntax.Expr} {ts : List Token}
    (hp : p.Ready o r 0 n) (hl : Written [.expr left] ts) :
    Tracks o n (binaryStep deeper least left) p fun x us _ =>
      Written [.expr x.value] (ts ++ us) := by
  refine (tracks_operatorInView least).bind ?_
  rintro x _ _ - ⟨rfl, rfl, hx⟩
  match x with
  | none => exact .pure (by simpa using hl)
  | some (op, precedence) =>
    have hk := hx op precedence rfl
    refine (tracks_advance hp (by simp [hk])).bind ?_
    rintro _ _ q₁ h₁ ⟨rfl, rfl⟩
    refine (hd _ n q₁ (h₁.gain hp)).bind fun e us q₂ h₂ he => .pure ?_
    rw [List.append_nil]
    exact .wrap rfl (hl.append (.mark (by simp [hk]) he))

theorem tracks_binaryRule (hp : p.Ready o r 1 n) (least : Nat) :
    Tracks o n (binaryRule deeper least) p fun e ts _ => Written [.expr e] ts := by
  refine (tracks_unaryRule hd hp).bind fun e ts q₁ h₁ he => ?_
  refine Tracks.loop (I := fun e' us => Written [.expr e'] (ts ++ us)) ?_
    ((h₁.ready hp).less (Nat.zero_le 1)) (by simpa using he)
  intro e' us q hq he'
  simpa only [List.append_assoc] using tracks_binaryStep hd hq he'

end Rules

theorem deepens_rule (r : Nat) : Deepens o r (rule r) := by
  induction r with
  | zero => exact fun _ _ _ hp => tracks_tooDeep hp (Nat.le_zero.1 hp.room)
  | succ r ih =>
    intro goal n p hp
    cases goal with
    | binary least => exact .nested hp fun _ hp' => tracks_binaryRule ih hp' least
    | unary => exact .nested hp fun _ hp' => tracks_unaryRule ih hp'

end Expr

theorem tracks_expr (hp : p.Ready o r 2 n) :
    Tracks o n expr p fun e ts _ => Written [.expr e] ts :=
  Expr.deepens_rule p.room (.binary 1) n p ⟨hp.along, Nat.le_refl _, hp.levels⟩

end Parse
end GoSyntax
