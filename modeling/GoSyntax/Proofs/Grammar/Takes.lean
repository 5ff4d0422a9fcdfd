import GoSyntax.Proofs.Grammar.ExprSound
import GoSyntax.Proofs.Grammar.Gives
import GoSyntax.Proofs.Tree.Yield

/-! What a rule that succeeds has taken: the words of the tokens from the place where it started up
to the place where it ended. -/
namespace GoSyntax

/-- Kinds whose tokens are all written alike. -/
def Kind.isFixed : Kind → Bool
  | .keyword _ | .operator _ | .delimiter _ => true
  | _ => false

/-- The word of a kind whose tokens are all written alike. -/
def Word.fixed (kind : Kind) : Word := ⟨kind, kind.spelling.toList, none⟩

@[simp] theorem Word.fixed_keyword (k : Keyword) : fixed (.keyword k) = .keyword k := rfl

@[simp] theorem Word.fixed_operator (op : Operator) : fixed (.operator op) = .operator op := rfl

@[simp] theorem Word.fixed_delimiter (d : Delimiter) : fixed (.delimiter d) = .delimiter d := rfl

namespace Lexeme

theorem spelling_of_symbols {s : Text} {kind : Kind} (h : (s, kind) ∈ symbols) :
    kind.spelling.toList = s := by
  have hall : symbols.all (fun x => x.2.spelling.toList == x.1) = true := by decide
  simpa using List.all_eq_true.1 hall _ h

theorem read_fixed {elides : Bool} {c : Char} {cs : Text} {n : Nat} {kind : Kind} {v : Option Value}
    (h : read elides (c :: cs) = .done n (.token kind v)) (hs : isSolid kind = true)
    (hk : kind.isFixed = true) : kind.spelling.toList = (c :: cs).take n ∧ v = none := by
  have ho := read_opening elides c cs
  generalize read elides (c :: cs) = r at h ho
  have hlit : r.IsLiteral → False := by
    intro hl
    obtain ⟨form, w, hm⟩ := hl.eq_token (congrArg Reading.result h)
    cases hm
    cases hk
  have hresult : r.result = .ok (.token kind v) := congrArg Reading.result h
  have hsize : r.size = n := congrArg Reading.size h
  cases ho with
  | newline =>
    cases hresult
    cases elides <;> cases hs
  | lineComment => cases hresult; cases hk
  | blockComment =>
    unfold Comment.block at hresult
    split at hresult <;> cases hresult
    cases hk
  | rune => exact (hlit (Quotation.literal_rune cs)).elim
  | string => exact (hlit (Quotation.literal_string cs)).elim
  | rawString => exact (hlit (Quotation.literal_rawString cs)).elim
  | number => exact (hlit (Number.literal_read (c :: cs))).elim
  | word =>
    unfold word at hresult hsize
    dsimp only at hresult hsize
    split at hresult
    · rename_i k hword
      cases hresult
      have hspell : k.spelling.toList = c :: cs.takeWhile Identifier.isContinue := by
        simpa using List.find?_some hword
      have hpre : c :: cs.takeWhile Identifier.isContinue <+: c :: cs :=
        List.cons_prefix_cons.2 ⟨rfl, List.takeWhile_prefix _⟩
      refine ⟨?_, rfl⟩
      rw [← hsize]
      exact hspell.trans (List.prefix_iff_eq_take.1 hpre)
    · cases hresult
      cases hk
  | symbol =>
    rw [symbol_eq_longest] at hresult hsize
    split at hresult
    · cases hresult
    · rename_i s k hsym
      obtain ⟨hmem, hpre, -⟩ := longestSymbol?_eq_some hsym
      split at hresult
      · cases hresult
      · rename_i hdots
        cases hresult
        simp only [hsym, if_neg hdots] at hsize
        refine ⟨?_, rfl⟩
        rw [spelling_of_symbols hmem, ← hsize]
        exact List.prefix_iff_eq_take.1 hpre

end Lexeme

theorem Word.Stands.eq_fixed {w : Word} (h : w.Stands) (hk : w.kind.isFixed = true) :
    w = .fixed w.kind := by
  obtain ⟨c, cs, hs⟩ := List.exists_cons_of_ne_nil h.ne_nil
  have hr := h.read false [] (by simp)
  rw [List.append_nil, hs] at hr
  obtain ⟨htext, hval⟩ := Lexeme.read_fixed hr h.solid hk
  rw [List.take_length, ← hs] at htext
  rw [fixed, htext, ← hval]

namespace Token

variable {t : Token}

theorem word_of_ne (h : t.kind ≠ .delimiter .semicolon) : t.word = ⟨t.kind, t.text, t.value⟩ :=
  if_neg h

theorem Lawful.word_fixed (h : t.Lawful) (hk : t.kind.isFixed = true) : t.word = .fixed t.kind := by
  by_cases hsemi : t.kind = .delimiter .semicolon
  · rw [word, if_pos hsemi, hsemi]
    rfl
  · have hend : t.kind ≠ .endOfFile := by
      intro hend
      rw [hend] at hk
      cases hk
    rw [word_of_ne hsemi]
    exact (h.stands hend hsemi).eq_fixed hk

theorem Lawful.word_identifier (h : t.Lawful) (hk : t.kind = .identifier) :
    t.word = .identifier t.text := by
  have hs := h.stands (by simp [hk]) (by simp [hk])
  rw [hk] at hs
  rw [word_of_ne (by simp [hk]), hk, hs.identifier]
  rfl

end Token

namespace Parser

/-- From `p` on tokens with these words were taken to come to `q`. -/
def Taken (p : Parser) (ws : List Word) (q : Parser) : Prop :=
  ∃ ts : List Token, p.stream = ts.map .ok ++ q.stream ∧ ts.map Token.word = ws

variable {p q r : Parser} {ws ws' : List Word}

theorem Taken.refl (p : Parser) : p.Taken [] p := ⟨[], rfl, rfl⟩

theorem Taken.trans (h : p.Taken ws q) (h' : q.Taken ws' r) : p.Taken (ws ++ ws') r := by
  obtain ⟨ts, hp, rfl⟩ := h
  obtain ⟨ts', hq, rfl⟩ := h'
  exact ⟨ts ++ ts', by rw [hp, hq, List.map_append, List.append_assoc], List.map_append⟩

theorem Taken.stream_eq {us : List Token} {rest : List (Except Error Token)} (h : p.Taken ws q)
    (hp : p.stream = us.map .ok ++ rest) (hlen : q.stream.length = rest.length) :
    q.stream = rest := by
  obtain ⟨ts, hts, -⟩ := h
  exact (List.append_inj' (hts.symm.trans hp) hlen).2

/-- The first word that was taken is the one in view. -/
theorem Taken.head {w : Word} (h : p.Taken (w :: ws) q) : w = p.peek.word := by
  obtain ⟨ts, hts, hw⟩ := h
  obtain ⟨t, ts, rfl, rfl, -⟩ := List.map_eq_cons_iff.1 hw
  simp only [stream, List.map_cons, List.cons_append, List.cons.injEq, Except.ok.injEq] at hts
  rw [hts.1]

theorem Taken.length (h : p.Taken ws q) : p.ahead.length = ws.length + q.ahead.length := by
  obtain ⟨ts, hts, rfl⟩ := h
  have hlen := congrArg List.length hts
  simp only [stream, List.length_cons, List.length_append, List.length_map] at hlen ⊢
  omega

theorem lawful_of_mem_stream (h : p.Good) {t : Token} (ht : .ok t ∈ p.stream) : t.Lawful := by
  rcases List.mem_cons.1 ht with ht | ht
  · cases ht
    exact h.peek
  · obtain ⟨a, ha, hout⟩ := List.mem_map.1 ht
    exact (h.ahead a ha).ok t hout

theorem final_eq_getLast (p : Parser) : p.stream.getLast? = some p.final := by
  rw [stream, List.getLast?_cons, List.getLast?_map]
  rfl

/-- A parser is good if what has arrived at it is. -/
theorem Taken.good (h : p.Taken ws q) (hp : p.Good) : q.Good := by
  obtain ⟨ts, hstream, -⟩ := h
  have hmem : ∀ x ∈ q.stream, x ∈ p.stream := by
    intro x hx
    rw [hstream]
    exact List.mem_append_right _ hx
  refine ⟨lawful_of_mem_stream hp (hmem _ List.mem_cons_self), fun a ha => ?_, ?_⟩
  · have hout : a.outcome ∈ p.stream :=
      hmem _ (List.mem_cons_of_mem _ (List.mem_map_of_mem ha))
    refine ⟨fun t ht => lawful_of_mem_stream hp (by rwa [ht] at hout), fun e he => ?_⟩
    rw [he] at hout
    rcases List.mem_cons.1 hout with hpeek | hahead
    · cases hpeek
    · obtain ⟨b, hb, hbe⟩ := List.mem_map.1 hahead
      exact (hp.ahead b hb).error e hbe
  · have hlast : p.stream.getLast? = q.stream.getLast? := by
      rw [hstream, List.getLast?_append, final_eq_getLast q]
      rfl
    rw [final_eq_getLast, final_eq_getLast, Option.some.injEq] at hlast
    rw [← hlast]
    exact hp.final

end Parser

namespace Parse

open GoSyntax.Parser

variable {α β σ : Type} {m : Parse α} {f : α → Parse β} {p q : Parser}
  {Q Q' : α → List Word → Parser → Prop} {R : β → List Word → Parser → Prop}

/-- If the rule succeeds at `p`, then `Q` holds of what it gives, of the words that it took and of
where it ended. -/
def Takes (m : Parse α) (p : Parser) (Q : α → List Word → Parser → Prop) : Prop :=
  ∀ a q, m p = .ok a q → ∃ ws, p.Taken ws q ∧ Q a ws q

theorem Takes.pure {a : α} (h : Q a [] p) : Takes (pure a) p Q := by
  rintro _ _ ⟨⟩
  exact ⟨[], .refl p, h⟩

theorem Takes.mono (h : Takes m p Q) (hQ : ∀ a ws q, p.Taken ws q → Q a ws q → Q' a ws q) :
    Takes m p Q' := by
  intro a q hm
  obtain ⟨ws, hws, ha⟩ := h a q hm
  exact ⟨ws, hws, hQ a ws q hws ha⟩

theorem Takes.congr {m' : Parse α} (h : m p = m' p) (hm : Takes m' p Q) : Takes m p Q := by
  intro a q hq
  exact hm a q (h.symm.trans hq)

/-- What is asked of the second rule is asked of the words of both. -/
theorem Takes.bind (hm : Takes m p Q)
    (hf : ∀ a ws q, p.Taken ws q → Q a ws q → Takes (f a) q fun b vs => R b (ws ++ vs)) :
    Takes (m >>= f) p R := by
  intro b r hb
  cases hr : m p with
  | error e q =>
    rw [bind_error hr] at hb
    cases hb
  | ok a q =>
    rw [bind_ok hr] at hb
    obtain ⟨ws, hws, ha⟩ := hm a q hr
    obtain ⟨vs, hvs, hR⟩ := hf a ws q hws ha b r hb
    exact ⟨ws ++ vs, hws.trans hvs, hR⟩

theorem Takes.map {g : α → β} (hm : Takes m p Q)
    (hg : ∀ a ws q, p.Taken ws q → Q a ws q → R (g a) ws q) : Takes (g <$> m) p R := by
  rw [map_eq_pure_bind]
  refine hm.bind fun a ws q hws ha => .pure ?_
  rw [List.append_nil]
  exact hg a ws q hws ha

theorem takes_unexpected (wanted : Expected) : Takes (unexpected wanted : Parse α) p Q := by
  rintro _ _ ⟨⟩

theorem takes_tooDeep : Takes (tooDeep : Parse α) p Q := by
  rintro _ _ ⟨⟩

/-- A level that is opened and closed again takes nothing. -/
theorem Takes.nested (h : Takes m p.enter
    fun a ws q => Q a ws q.leave) : Takes (nested m) p Q := by
  intro a r hr
  unfold Parse.nested at hr
  split at hr
  · cases hr
  · split at hr
    · rename_i b q hm
      cases hr
      exact h a q hm
    · cases hr

theorem takes_failAt (pos : Position) (cause : Cause) : Takes (failAt pos cause : Parse α) p Q := by
  rintro _ _ ⟨⟩

theorem takes_problemAt (pos : Position) (problem : Problem) :
    Takes (problemAt pos problem : Parse α) p Q := takes_failAt pos (.grammar problem)

theorem takes_note (e : Event) : Takes (note e) p fun _ ws _ => ws = [] := by
  rintro _ _ ⟨⟩
  exact ⟨[], ⟨[], rfl, rfl⟩, rfl⟩

theorem takes_peek : Takes peek p fun t ws q => t = p.peek ∧ ws = [] ∧ p = q := by
  rintro _ _ ⟨⟩
  exact ⟨[], .refl p, rfl, rfl, rfl⟩

theorem takes_peekIs (kind : Kind) : Takes (peekIs kind) p fun b ws q =>
    (b = true ↔ p.peek.kind = kind) ∧ ws = [] ∧ p = q := by
  rintro _ _ ⟨⟩
  exact ⟨[], .refl p, by simp, rfl, rfl⟩

section Steps

variable (hp : p.Good)

include hp

theorem takes_advance (hk : p.peek.kind ≠ .endOfFile) :
    Takes advance p fun t ws _ => t = p.peek ∧ ws = [p.peek.word] := by
  intro t q h
  unfold advance at h
  cases ha : p.ahead with
  | nil => exact absurd (hp.endOfFile ha) hk
  | cons a ahead =>
    simp only [ha] at h
    cases ho : a.outcome with
    | error e => simp [ho] at h
    | ok u =>
      simp only [ho] at h
      cases h
      exact ⟨_, ⟨[p.peek], by simp [stream, ha, ho], rfl⟩, rfl, rfl⟩

theorem takes_advance_fixed {kind : Kind} (hk : p.peek.kind = kind) (hf : kind.isFixed = true) :
    Takes advance p fun t ws _ => t = p.peek ∧ ws = [.fixed kind] := by
  subst hk
  refine (takes_advance hp (by intro h; rw [h] at hf; cases hf)).mono ?_
  rintro _ _ q - ⟨rfl, rfl⟩
  exact ⟨rfl, congrArg ([·]) (hp.peek.word_fixed hf)⟩

theorem takes_consumeIf {kind : Kind} (hk : kind.isFixed = true) :
    Takes (consumeIf kind) p fun b ws q =>
      b = true ∧ ws = [.fixed kind] ∨ b = false ∧ p.peek.kind ≠ kind ∧ ws = [] ∧ p = q := by
  refine (takes_peekIs kind).bind ?_
  rintro b _ _ - ⟨hb, rfl, rfl⟩
  cases b with
  | true =>
    refine (takes_advance_fixed hp (hb.1 rfl) hk).bind ?_
    rintro _ _ q - ⟨rfl, rfl⟩
    exact .pure (.inl ⟨rfl, rfl⟩)
  | false => exact .pure (.inr ⟨rfl, fun h => Bool.false_ne_true (hb.2 h), rfl, rfl⟩)

theorem takes_requireAny (wanted : Expected) {kinds : List Kind} (hk : .endOfFile ∉ kinds) :
    Takes (require wanted kinds) p fun t ws _ =>
      t = p.peek ∧ p.peek.kind ∈ kinds ∧ ws = [p.peek.word] := by
  refine takes_peek.bind ?_
  rintro _ _ _ - ⟨rfl, rfl, rfl⟩
  split
  · rename_i h
    have hkind : p.peek.kind ∈ kinds := by simpa using h
    refine (takes_advance hp fun he => hk (he ▸ hkind)).mono ?_
    rintro _ _ q - ⟨rfl, rfl⟩
    exact ⟨rfl, hkind, rfl⟩
  · exact takes_unexpected wanted

theorem takes_require (wanted : Expected) {kind : Kind} (hk : kind ≠ .endOfFile) :
    Takes (require wanted [kind]) p fun t ws _ =>
      t = p.peek ∧ p.peek.kind = kind ∧ ws = [p.peek.word] := by
  refine (takes_requireAny hp wanted (by simpa using hk.symm)).mono ?_
  rintro _ _ q - ⟨rfl, hkind, rfl⟩
  exact ⟨rfl, List.mem_singleton.1 hkind, rfl⟩

theorem takes_fixed (wanted : Expected) {kind : Kind} (hk : kind.isFixed = true) :
    Takes (require wanted [kind]) p fun _ ws _ => ws = [.fixed kind] := by
  refine (takes_require hp wanted (by rintro rfl; cases hk)).mono ?_
  rintro _ _ q - ⟨rfl, rfl, rfl⟩
  rw [hp.peek.word_fixed hk]

theorem takes_identifier (wanted : Expected) :
    Takes (identifier wanted) p fun i ws _ =>
      p.peek.kind = .identifier ∧ ws = [.identifier i.name] := by
  refine (takes_require hp wanted (by simp)).map ?_
  rintro _ _ q - ⟨rfl, hk, rfl⟩
  exact ⟨hk, congrArg ([·]) (hp.peek.word_identifier hk)⟩

end Steps

/-- A loop keeps what each of its rounds keeps, also if it runs out of them. -/
theorem Takes.loop {body : σ → Parse (ForInStep σ)} {I : σ → List Word → Prop} {s : σ}
    (hbody : ∀ s ws q, p.Taken ws q → I s ws → Takes (body s) q fun r vs _ =>
      I r.value (ws ++ vs)) (hs : I s []) :
    Takes (loop body s) p fun t ws _ => I t ws := by
  have hloop : ∀ n s ws q, p.Taken ws q → I s ws →
      Takes (loopFor body n s) q fun t vs _ => I t (ws ++ vs) := by
    intro n
    induction n with
    | zero =>
      intro s ws q _ hs
      exact .pure (by rwa [List.append_nil])
    | succ n ih =>
      intro s ws q hq hs
      refine (hbody s ws q hq hs).bind fun r vs q' hq' hr => ?_
      cases r with
      | done t => exact .pure (by rwa [List.append_nil])
      | yield t =>
        refine (ih t _ q' (hq.trans hq') hr).mono fun _ _ _ _ h => ?_
        rwa [List.append_assoc] at h
  exact (hloop _ s [] p (.refl p) hs).mono fun _ _ _ _ h => h

/-- Items with commas between them are taken one by one, whatever is taken for each. -/
theorem Takes.commaList {stop : Kind} {item : Parse α} {P : α → List Word → Prop} (hp : p.Good)
    (hitem : ∀ q : Parser, q.Good → Takes item q fun a ws _ => P a ws) :
    Takes (commaList stop item) p fun l ws _ => ∃ pairs : List (α × List Word),
      pairs.map Prod.fst = l ∧ (∀ i ∈ pairs, P i.1 i.2) ∧
        Separated (.delimiter .comma) (pairs.map Prod.snd) ws := by
  have hlist : ∀ n (q : Parser), q.Good → Takes (commaListFor stop item n) q fun l ws _ =>
      ∃ pairs : List (α × List Word), pairs.map Prod.fst = l ∧ (∀ i ∈ pairs, P i.1 i.2) ∧
        Separated (.delimiter .comma) (pairs.map Prod.snd) ws := by
    intro n
    induction n with
    | zero => exact fun q _ => .pure ⟨[], rfl, by simp, .nil⟩
    | succ n ih =>
      intro q hq
      refine (takes_peekIs stop).bind ?_
      rintro b _ _ - ⟨-, rfl, rfl⟩
      cases b with
      | true => exact .pure ⟨[], rfl, by simp, .nil⟩
      | false =>
        refine (hitem q hq).bind fun a ws q₁ h₁ ha => ?_
        refine (takes_consumeIf (h₁.good hq) rfl).bind fun b vs q₂ h₂ hb => ?_
        rcases hb with ⟨rfl, rfl⟩ | ⟨rfl, -, rfl, rfl⟩
        · refine (ih q₂ (h₂.good (h₁.good hq))).bind ?_
          rintro l us q₃ - ⟨pairs, rfl, hpairs, hsep⟩
          refine .pure ⟨(a, ws) :: pairs, rfl, List.forall_mem_cons.2 ⟨ha, hpairs⟩, ?_⟩
          simpa using Separated.cons ws hsep
        · refine .pure ⟨[(a, ws)], rfl, by simpa using ha, ?_⟩
          simpa using Separated.last ws
  exact hlist _ p hp

theorem takes_terminator {wanted : Expected} (hp : p.Good) :
    Takes (terminator wanted) p fun _ ws q => ws = [.delimiter .semicolon] ∨
      ws = [] ∧ p = q ∧ (p.peek.kind = .delimiter .rparen ∨ p.peek.kind = .delimiter .rbrace) := by
  refine takes_peek.bind ?_
  rintro _ _ _ - ⟨rfl, rfl, rfl⟩
  split
  · rename_i hk
    exact .pure (.inr ⟨rfl, rfl, by simpa using hk⟩)
  · refine (takes_fixed hp wanted rfl).bind ?_
    rintro _ _ q - rfl
    exact .pure (.inl rfl)

/-- Items each with a terminator are taken one by one. A closing bracket that stays in view ends the
list, as no item opens with one. -/
theorem Takes.termList {stop : Kind} {wanted : Expected} {item : Parse α}
    {P : α → List Word → Prop} (hp : p.Good)
    (hitem : ∀ q : Parser, q.Good → Takes item q fun a ws _ => P a ws)
    (hP : ∀ a ws, P a ws → ∃ w vs, ws = w :: vs ∧ w.kind ≠ .delimiter .rparen ∧
      w.kind ≠ .delimiter .rbrace) :
    Takes (termList stop wanted item) p fun l ws _ => ∃ pairs : List (α × List Word),
      pairs.map Prod.fst = l ∧ (∀ i ∈ pairs, P i.1 i.2) ∧
        Separated (.delimiter .semicolon) (pairs.map Prod.snd) ws := by
  have hclosed : ∀ n (q : Parser), q.Good →
      q.peek.kind = .delimiter .rparen ∨ q.peek.kind = .delimiter .rbrace →
      Takes (termListFor stop wanted item n) q fun l ws _ => l = [] ∧ ws = [] := by
    intro n q hq hk
    cases n with
    | zero => exact .pure ⟨rfl, rfl⟩
    | succ n =>
      refine (takes_peekIs stop).bind ?_
      rintro b _ _ - ⟨-, rfl, rfl⟩
      cases b with
      | true => exact .pure ⟨rfl, rfl⟩
      | false =>
        refine (hitem q hq).bind fun a ws q₁ h₁ ha => ?_
        obtain ⟨w, vs, rfl, hparen, hbrace⟩ := hP a ws ha
        rw [h₁.head, kind_word] at hparen hbrace
        exact absurd hk (by simp [hparen, hbrace])
  have hlist : ∀ n (q : Parser), q.Good → Takes (termListFor stop wanted item n) q fun l ws _ =>
      ∃ pairs : List (α × List Word), pairs.map Prod.fst = l ∧ (∀ i ∈ pairs, P i.1 i.2) ∧
        Separated (.delimiter .semicolon) (pairs.map Prod.snd) ws := by
    intro n
    induction n with
    | zero => exact fun q _ => .pure ⟨[], rfl, by simp, .nil⟩
    | succ n ih =>
      intro q hq
      refine (takes_peekIs stop).bind ?_
      rintro b _ _ - ⟨-, rfl, rfl⟩
      cases b with
      | true => exact .pure ⟨[], rfl, by simp, .nil⟩
      | false =>
        refine (hitem q hq).bind fun a ws q₁ h₁ ha => ?_
        have hq₁ := h₁.good hq
        refine (takes_terminator hq₁).bind fun _ vs q₂ h₂ hend => ?_
        rcases hend with rfl | ⟨rfl, rfl, hk⟩
        · refine (ih q₂ (h₂.good hq₁)).bind ?_
          rintro l us q₃ - ⟨pairs, rfl, hpairs, hsep⟩
          refine .pure ⟨(a, ws) :: pairs, rfl, List.forall_mem_cons.2 ⟨ha, hpairs⟩, ?_⟩
          simpa using Separated.cons ws hsep
        · refine (hclosed n q₁ hq₁ hk).bind ?_
          rintro _ _ q₃ - ⟨rfl, rfl⟩
          refine .pure ⟨[(a, ws)], rfl, by simpa using ha, ?_⟩
          simpa using Separated.last ws
  exact hlist _ p hp

/-- Items each behind a fixed word are taken one by one. -/
theorem Takes.openedItems {opener : Kind} {item : Parse α} {P : α → List Word → Prop} (hp : p.Good)
    (hk : opener.isFixed = true)
    (hitem : ∀ q : Parser, q.Good → Takes item q fun a ws _ => P a ws) :
    Takes (openedList opener item) p fun l ws _ => ∃ pairs : List (α × List Word),
      pairs.map Prod.fst = l ∧ (∀ i ∈ pairs, P i.1 i.2) ∧
        ws = pairs.flatMap fun i => .fixed opener :: i.2 := by
  have hlist : ∀ n (q : Parser), q.Good → Takes (openedListFor opener item n) q fun l ws _ =>
      ∃ pairs : List (α × List Word), pairs.map Prod.fst = l ∧ (∀ i ∈ pairs, P i.1 i.2) ∧
        ws = pairs.flatMap fun i => .fixed opener :: i.2 := by
    intro n
    induction n with
    | zero => exact fun q _ => .pure ⟨[], rfl, by simp, rfl⟩
    | succ n ih =>
      intro q hq
      refine (takes_consumeIf hq hk).bind fun b ws q₁ h₁ hb => ?_
      rcases hb with ⟨rfl, rfl⟩ | ⟨rfl, -, rfl, rfl⟩
      · refine (hitem q₁ (h₁.good hq)).bind fun a ws q₂ h₂ ha => ?_
        refine (ih q₂ (h₂.good (h₁.good hq))).bind ?_
        rintro l _ q₃ - ⟨pairs, rfl, hpairs, rfl⟩
        refine .pure ⟨(a, ws) :: pairs, rfl, List.forall_mem_cons.2 ⟨ha, hpairs⟩, ?_⟩
        simp
      · exact .pure ⟨[], rfl, by simp, rfl⟩
  exact hlist _ p hp

/-- The same where what an item gives tells its words. -/
theorem Takes.openedList {opener : Kind} {item : Parse α} {f : α → List Word} (hp : p.Good)
    (hk : opener.isFixed = true)
    (hitem : ∀ q : Parser, q.Good → Takes item q fun a ws _ => ws = f a) :
    Takes (openedList opener item) p fun l ws _ =>
      ws = l.flatMap fun a => .fixed opener :: f a := by
  refine (Takes.openedItems hp hk hitem).mono ?_
  rintro _ _ q - ⟨pairs, rfl, hpairs, rfl⟩
  rw [List.flatMap_map, List.flatMap_def, List.flatMap_def]
  congr 1
  refine List.map_congr_left fun i hi => ?_
  rw [hpairs i hi]

end Parse
end GoSyntax
