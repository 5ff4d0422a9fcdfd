import Mathlib.Algebra.Ring.Int.Defs
import GoSyntax.Proofs.Grammar.Runs
import GoSyntax.Proofs.Grammar.FileSound

/-! Function bodies. Which brace closes a body, whether it is reached, and what is kept of the tokens
before it follows from the braces among the tokens behind the opening one. -/
namespace GoSyntax

/-- How many braces the token opens, less those that it closes. -/
def Token.brace (t : Token) : Int :=
  match t.kind with
  | .delimiter .lbrace => 1
  | .delimiter .rbrace => -1
  | _ => 0

/-- How many of the braces that the tokens open they leave open. -/
def openBraces (ts : List Token) : Int := (ts.map Token.brace).sum

@[simp] theorem openBraces_nil : openBraces [] = 0 := rfl

@[simp] theorem openBraces_cons (t : Token) (ts : List Token) :
    openBraces (t :: ts) = t.brace + openBraces ts := by
  simp [openBraces]

namespace Token

variable {t : Token}

theorem brace_lbrace (h : t.kind = .delimiter .lbrace) : t.brace = 1 := by
  simp [brace, h]

theorem brace_rbrace (h : t.kind = .delimiter .rbrace) : t.brace = -1 := by
  simp [brace, h]

theorem brace_of_ne (h₁ : t.kind ≠ .delimiter .lbrace) (h₂ : t.kind ≠ .delimiter .rbrace) :
    t.brace = 0 := by
  unfold brace
  split
  · exact absurd ‹_› h₁
  · exact absurd ‹_› h₂
  · rfl

end Token

/-- Behind `opened` open braces the tokens stay in the body: the source does not end among them, they
close no brace that was not opened, and never more than `room` braces are open. -/
structure Inside (room : Nat) (opened : Int) (ts : List Token) : Prop where
  goesOn : ∀ t ∈ ts, t.kind ≠ .endOfFile
  level : ∀ us, us <+: ts → 0 ≤ opened + openBraces us ∧ opened + openBraces us ≤ room

namespace Inside

variable {room : Nat} {opened : Int} {t : Token} {ts : List Token}

theorem nil (h₁ : 0 ≤ opened) (h₂ : opened ≤ room) : Inside room opened [] := by
  refine ⟨by simp, fun us hus => ?_⟩
  simpa [List.prefix_nil.1 hus] using ⟨h₁, h₂⟩

theorem bounds (h : Inside room opened ts) : 0 ≤ opened ∧ opened ≤ room := by
  simpa using h.level [] List.nil_prefix

theorem cons_iff : Inside room opened (t :: ts) ↔
    t.kind ≠ .endOfFile ∧ 0 ≤ opened ∧ opened ≤ room ∧ Inside room (opened + t.brace) ts := by
  constructor
  · intro h
    refine ⟨h.goesOn t List.mem_cons_self, h.bounds.1, h.bounds.2,
      fun u hu => h.goesOn u (List.mem_cons_of_mem _ hu), fun us hus => ?_⟩
    have hlevel := h.level (t :: us) ((List.prefix_cons_inj t).2 hus)
    rwa [openBraces_cons, ← Int.add_assoc] at hlevel
  · rintro ⟨hend, h₁, h₂, h⟩
    refine ⟨fun u hu => ?_, fun us hus => ?_⟩
    · rcases List.mem_cons.1 hu with rfl | hu
      · exact hend
      · exact h.goesOn u hu
    · rcases List.prefix_cons_iff.1 hus with rfl | ⟨vs, rfl, hvs⟩
      · simpa using ⟨h₁, h₂⟩
      · rw [openBraces_cons, ← Int.add_assoc]
        exact h.level vs hvs

theorem of_append {us : List Token} (h : Inside room opened (ts ++ us)) :
    Inside room opened ts ∧ Inside room (opened + openBraces ts) us := by
  induction ts generalizing opened with
  | nil => exact ⟨.nil h.bounds.1 h.bounds.2, by simpa using h⟩
  | cons t ts ih =>
    obtain ⟨hend, h₁, h₂, hrest⟩ := cons_iff.1 h
    obtain ⟨hts, hus⟩ := ih hrest
    refine ⟨cons_iff.2 ⟨hend, h₁, h₂, hts⟩, ?_⟩
    rwa [openBraces_cons, ← Int.add_assoc]

end Inside

/-- What ends the tokens of a body: a flaw of the source, its end, a brace that opens one level too
many, or the brace that closes the body. -/
inductive EndsBody (room : Nat) (opened : Int) : Except Error Token → Prop
  | flaw (e : Error) : EndsBody room opened (.error e)
  | source {t : Token} (h : t.kind = .endOfFile) : EndsBody room opened (.ok t)
  | deep {t : Token} (h : t.kind = .delimiter .lbrace) (hr : opened = room) :
      EndsBody room opened (.ok t)
  | closed {t : Token} (h : t.kind = .delimiter .rbrace) (ho : opened = 0) :
      EndsBody room opened (.ok t)

/-- What arrives up to the last of it stays in the body up to something that ends it. -/
theorem exists_ending {room : Nat} {opened : Int} {w : List (Except Error Token)}
    {last : Except Error Token} (hw : w.getLast? = some last) (hlast : Arrival.Closes last)
    (h₁ : 0 ≤ opened) (h₂ : opened ≤ room) :
    ∃ ts x rest, w = ts.map .ok ++ x :: rest ∧ Inside room opened ts ∧
      EndsBody room (opened + openBraces ts) x := by
  induction w generalizing opened with
  | nil => cases hw
  | cons x w ih =>
    by_cases hx : EndsBody room opened x
    · exact ⟨[], x, w, rfl, .nil h₁ h₂, by simpa using hx⟩
    · cases x with
      | error e => exact absurd (.flaw e) hx
      | ok t =>
        have hend : t.kind ≠ .endOfFile := fun h => hx (.source h)
        have hlevel : 0 ≤ opened + t.brace ∧ opened + t.brace ≤ room := by
          by_cases hl : t.kind = .delimiter .lbrace
          · have hne : opened ≠ room := fun h => hx (.deep hl h)
            rw [Token.brace_lbrace hl]
            omega
          by_cases hr : t.kind = .delimiter .rbrace
          · have hne : opened ≠ 0 := fun h => hx (.closed hr h)
            rw [Token.brace_rbrace hr]
            omega
          rw [Token.brace_of_ne hl hr]
          omega
        have hrest : w.getLast? = some last := by
          cases w with
          | nil =>
            cases hw
            exact absurd hlast hend
          | cons y w => rwa [List.getLast?_cons_cons] at hw
        obtain ⟨ts, y, rest, rfl, hin, hy⟩ := ih hrest hlevel.1 hlevel.2
        refine ⟨t :: ts, y, rest, rfl, Inside.cons_iff.2 ⟨hend, h₁, h₂, hin⟩, ?_⟩
        rwa [openBraces_cons, ← Int.add_assoc]

namespace Parse

variable {p q : Parser} {t u : Token} {rest : List (Except Error Token)} {e : Error}

/-- The token in view is taken where another one arrives behind it. -/
theorem advance_of_stream (h : p.stream = .ok t :: .ok u :: rest) :
    ∃ q, advance p = .ok t q ∧ q.stream = .ok u :: rest := by
  obtain ⟨ahead, peek, drained, depth, limit, peak, log⟩ := p
  cases ahead with
  | nil => simp [Parser.stream] at h
  | cons a ahead =>
    simp only [Parser.stream, List.map_cons, List.cons.injEq, Except.ok.injEq] at h
    obtain ⟨rfl, ha, rfl⟩ := h
    refine ⟨⟨ahead, u, a.drained, depth, limit, peak, a.events.reverse ++ log⟩, ?_, rfl⟩
    simp only [advance, ha]

/-- The token in view is taken where tokens arrive behind it. -/
theorem advance_of_tokens {ts : List Token}
    (h : p.stream = .ok u :: (ts.map .ok ++ .ok t :: rest)) :
    ∃ q, advance p = .ok u q ∧ q.stream = ts.map .ok ++ .ok t :: rest ∧ q.depth = p.depth ∧
      q.limit = p.limit := by
  obtain ⟨v, more, hv⟩ : ∃ v more, ts.map .ok ++ .ok t :: rest = .ok v :: more := by
    cases ts with
    | nil => exact ⟨t, rest, rfl⟩
    | cons v ts => exact ⟨v, _, rfl⟩
  rw [hv] at h ⊢
  obtain ⟨q, hq, hqs⟩ := advance_of_stream h
  obtain ⟨-, hdepth, hlimit⟩ := advance_keeps hq
  exact ⟨q, hq, hqs, hdepth, hlimit⟩

theorem advance_of_flaw (h : p.stream = .ok t :: .error e :: rest) : ∃ q, advance p = .error e q := by
  obtain ⟨ahead, peek, drained, depth, limit, peak, log⟩ := p
  cases ahead with
  | nil => simp [Parser.stream] at h
  | cons a ahead =>
    simp only [Parser.stream, List.map_cons, List.cons.injEq, Except.ok.injEq] at h
    obtain ⟨rfl, ha, rfl⟩ := h
    exact ⟨⟨ahead, peek, a.drained, depth, limit, peak, a.events.reverse ++ log⟩, by
      simp only [advance, ha]⟩

theorem peek_of_stream (h : p.stream = .ok t :: rest) : p.peek = t := by
  simp only [Parser.stream, List.cons.injEq, Except.ok.injEq] at h
  exact h.1

/-- A token inside the body is taken and kept, whatever the rounds before it have counted. -/
theorem blockTokensFor_step {start : Position} {opened n k : Nat}
    (hin : Inside p.room opened [p.peek]) (hk : (k : Int) = opened + p.peek.brace) :
    blockTokensFor start opened (n + 1) p =
      (advance >>= fun t => (t :: ·) <$> blockTokensFor start k n) p := by
  obtain ⟨hend, -, -, hnext⟩ := Inside.cons_iff.1 hin
  have hlevel := hnext.bounds
  have hmap : ∀ k, (advance >>= fun t => (t :: ·) <$> blockTokensFor start k n) p =
      (do return (← advance) :: (← blockTokensFor start k n)) p := by
    intro k
    simp only [map_eq_pure_bind]
  rw [hmap]
  conv => lhs; unfold blockTokensFor
  split
  · exact absurd ‹_› hend
  · rename_i hl
    rw [Token.brace_lbrace hl] at hk hlevel
    have hroom : ¬p.limit ≤ p.depth + opened := by
      simp only [Parser.room] at hlevel
      omega
    obtain rfl : k = opened + 1 := by omega
    rw [if_neg hroom]
  · rename_i hr
    rw [Token.brace_rbrace hr] at hk
    cases opened with
    | zero => omega
    | succ j =>
      obtain rfl : k = j := by omega
      rfl
  · rename_i hl hr
    rw [Token.brace_of_ne hl hr] at hk
    obtain rfl : k = opened := by omega
    rfl

/-- Tokens inside the body are taken and kept one after the other, up to the one behind them. -/
theorem blockTokensFor_inside (start : Position) {ts : List Token} (opened n : Nat)
    (hs : p.stream = ts.map .ok ++ .ok t :: rest) (hin : Inside p.room opened ts) :
    ∃ (q : Parser) (k : Nat), q.stream = .ok t :: rest ∧ q.depth = p.depth ∧ q.limit = p.limit ∧
      (k : Int) = opened + openBraces ts ∧
      blockTokensFor start opened (n + ts.length) p = ((ts ++ ·) <$> blockTokensFor start k n) q := by
  induction ts generalizing p opened with
  | nil => exact ⟨p, opened, hs, rfl, rfl, by simp, by simp⟩
  | cons u ts ih =>
    obtain ⟨hend, h₁, h₂, hin'⟩ := Inside.cons_iff.1 hin
    obtain rfl := peek_of_stream hs
    obtain ⟨j, hj⟩ := Int.eq_ofNat_of_zero_le hin'.bounds.1
    obtain ⟨q, hq, hqs, hdepth, hlimit⟩ := advance_of_tokens hs
    have hroom : q.room = p.room := by rw [Parser.room, Parser.room, hdepth, hlimit]
    have hone : Inside p.room opened [p.peek] :=
      Inside.cons_iff.2 ⟨hend, h₁, h₂, .nil hin'.bounds.1 hin'.bounds.2⟩
    rw [hj, ← hroom] at hin'
    obtain ⟨r, k, hr, hrd, hrl, hk, hrun⟩ := ih j hqs hin'
    refine ⟨r, k, hr, hrd.trans hdepth, hrl.trans hlimit, ?_, ?_⟩
    · rw [hk, openBraces_cons]
      omega
    · rw [List.length_cons, ← Nat.add_assoc, blockTokensFor_step hone hj.symm, bind_ok hq]
      have hmap : ∀ f : List Token → List Token,
          (f <$> blockTokensFor start j (n + ts.length)) q =
            (f <$> (ts ++ ·) <$> blockTokensFor start k n) r := by
        intro f
        simp only [Functor.map, EStateM.map] at hrun ⊢
        rw [hrun]
      rw [hmap, Functor.map_map]
      rfl

section Ends

variable {start : Position} {opened n : Nat}

theorem blockTokensFor_source (h : p.peek.kind = .endOfFile) :
    blockTokensFor start opened (n + 1) p =
      .error ⟨p.peek.pos, .grammar (.openBlock start)⟩ p := by
  unfold blockTokensFor
  simp only [h]
  rfl

theorem blockTokensFor_deep (h : p.peek.kind = .delimiter .lbrace) (hr : p.room = opened) :
    blockTokensFor start opened (n + 1) p = .error ⟨p.peek.pos, .tooDeep p.limit⟩ p := by
  have hle : p.limit ≤ p.depth + opened := by
    rw [Parser.room] at hr
    omega
  unfold blockTokensFor
  simp only [h, if_pos hle]
  rfl

theorem blockTokensFor_closed (h : p.peek.kind = .delimiter .rbrace) :
    blockTokensFor start 0 (n + 1) p = .ok [] p := by
  simp only [blockTokensFor, h]

theorem blockTokensFor_flaw (start : Position) (n : Nat) (h : p.stream = .ok t :: .error e :: rest)
    (hin : Inside p.room opened [t]) : ∃ q, blockTokensFor start opened (n + 1) p = .error e q := by
  obtain rfl := peek_of_stream h
  obtain ⟨-, -, -, hnext⟩ := Inside.cons_iff.1 hin
  obtain ⟨k, hk⟩ := Int.eq_ofNat_of_zero_le hnext.bounds.1
  obtain ⟨q, hq⟩ := advance_of_flaw h
  exact ⟨q, by rw [blockTokensFor_step hin hk.symm, bind_error hq]⟩

end Ends

section Blocks

variable {ts : List Token} (hk : p.peek.kind = .delimiter .lbrace)

include hk

/-- A body whose first tokens are inside of it goes on behind them with these tokens kept. -/
theorem block_inside (hs : p.ahead.map Arrival.outcome = ts.map .ok ++ .ok t :: rest)
    (hin : Inside p.room 0 ts) :
    ∃ (q : Parser) (k n : Nat), q.stream = .ok t :: rest ∧ q.limit = p.limit ∧ q.room = p.room ∧
      (k : Int) = openBraces ts ∧
      block p = (do
        let more ← blockTokensFor p.peek.pos k (n + 1)
        let closing ← require .blockEnd [.delimiter .rbrace]
        return (⟨p.peek.pos, ts ++ more, closing.stop⟩ : Block)) q := by
  have hstream : p.stream = .ok p.peek :: (ts.map .ok ++ .ok t :: rest) := by
    rw [Parser.stream, hs]
  obtain ⟨q, hq, hqts, hdepth, hlimit⟩ := advance_of_tokens hstream
  have hroom : q.room = p.room := by rw [Parser.room, Parser.room, hdepth, hlimit]
  have hlen : q.ahead.length + 1 = rest.length + 1 + ts.length := by
    have := congrArg List.length hqts
    simp only [Parser.stream, List.length_cons, List.length_map, List.length_append] at this
    omega
  rw [← hroom] at hin
  obtain ⟨r, k, hr, hrd, hrl, hkk, hrun⟩ :=
    blockTokensFor_inside p.peek.pos 0 (rest.length + 1) hqts hin
  refine ⟨r, k, rest.length, hr, hrl.trans hlimit, ?_, by simpa using hkk, ?_⟩
  · rw [← hroom, Parser.room, Parser.room, hrd, hrl]
  · have hbounded : bounded (blockTokensFor p.peek.pos 0) q =
        ((ts ++ ·) <$> blockTokensFor p.peek.pos k (rest.length + 1)) r := by
      rw [bounded, hlen, hrun]
    rw [block, bind_ok ((require_of_mem _ (by simp [hk])).trans hq)]
    simp only [Bind.bind, EStateM.bind, hbounded, Functor.map, EStateM.map]
    cases blockTokensFor p.peek.pos k (rest.length + 1) r with
    | ok more q => rfl
    | error e q => rfl

theorem block_of_source (hs : p.ahead.map Arrival.outcome = ts.map .ok ++ .ok t :: rest)
    (hin : Inside p.room 0 ts) (ht : t.kind = .endOfFile) :
    ∃ q, block p = .error ⟨t.pos, .grammar (.openBlock p.peek.pos)⟩ q := by
  obtain ⟨q, k, n, hq, -, -, -, hrun⟩ := block_inside hk hs hin
  obtain rfl := peek_of_stream hq
  exact ⟨q, by rw [hrun, bind_error (blockTokensFor_source ht)]⟩

theorem block_of_deep (hs : p.ahead.map Arrival.outcome = ts.map .ok ++ .ok t :: rest)
    (hin : Inside p.room 0 ts) (ht : t.kind = .delimiter .lbrace) (hr : openBraces ts = p.room) :
    ∃ q, block p = .error ⟨t.pos, .tooDeep p.limit⟩ q := by
  obtain ⟨q, k, n, hq, hlimit, hroom, hkts, hrun⟩ := block_inside hk hs hin
  obtain rfl := peek_of_stream hq
  have hfull : q.room = k := by omega
  exact ⟨q, by rw [hrun, bind_error (blockTokensFor_deep ht hfull), hlimit]⟩

theorem block_of_flaw (hs : p.ahead.map Arrival.outcome = ts.map .ok ++ .error e :: rest)
    (hin : Inside p.room 0 ts) : ∃ q, block p = .error e q := by
  rcases List.eq_nil_or_concat ts with rfl | ⟨us, t, rfl⟩
  · have hstream : p.stream = .ok p.peek :: .error e :: rest := by rw [Parser.stream, hs]; rfl
    obtain ⟨q, hq⟩ := advance_of_flaw hstream
    exact ⟨q, by rw [block, bind_error ((require_of_mem _ (by simp [hk])).trans hq)]⟩
  · rw [List.concat_eq_append] at hs hin
    obtain ⟨hus, ht⟩ := hin.of_append
    obtain ⟨q, k, n, hq, -, hroom, hkts, hrun⟩ :=
      block_inside hk (by simpa using hs) hus
    rw [Int.zero_add, ← hkts, ← hroom] at ht
    obtain ⟨r, hr⟩ := blockTokensFor_flaw p.peek.pos n hq ht
    exact ⟨r, by rw [hrun, bind_error hr]⟩

section Closed

variable (hs : p.ahead.map Arrival.outcome = ts.map .ok ++ .ok t :: rest)
  (hin : Inside p.room 0 ts) (ht : t.kind = .delimiter .rbrace) (hc : openBraces ts = 0)

include hs hin ht hc

/-- At the brace that closes it, the body is all that was kept so far. -/
theorem block_at_closing : ∃ q, q.stream = .ok t :: rest ∧
    block p = (do
      let closing ← advance
      return (⟨p.peek.pos, ts, closing.stop⟩ : Block)) q := by
  obtain ⟨q, k, n, hq, -, -, hkts, hrun⟩ := block_inside hk hs hin
  obtain rfl := peek_of_stream hq
  obtain rfl : k = 0 := by omega
  refine ⟨q, hq, ?_⟩
  rw [hrun, bind_ok (blockTokensFor_closed ht), List.append_nil]
  simp only [Bind.bind, EStateM.bind, require_of_mem _ (List.mem_singleton.2 ht)]

theorem block_of_closed {u : Token} {more : List (Except Error Token)}
    (hrest : rest = .ok u :: more) :
    ∃ q, block p = .ok ⟨p.peek.pos, ts, t.stop⟩ q ∧ q.stream = rest := by
  obtain ⟨q, hq, hrun⟩ := block_at_closing hk hs hin ht hc
  rw [hrest] at hq ⊢
  obtain ⟨r, hr, hrs⟩ := advance_of_stream hq
  exact ⟨r, by rw [hrun, bind_ok hr]; rfl, hrs⟩

theorem block_of_flaw_behind {more : List (Except Error Token)} (hrest : rest = .error e :: more) :
    ∃ q, block p = .error e q := by
  obtain ⟨q, hq, hrun⟩ := block_at_closing hk hs hin ht hc
  rw [hrest] at hq
  obtain ⟨r, hr⟩ := advance_of_flaw hq
  exact ⟨r, by rw [hrun, bind_error hr]⟩

end Closed

end Blocks

end Parse

/-- The brace `closing` behind the tokens `ts` of a body is the one that closes it. -/
structure Closes (room : Nat) (ts : List Token) (closing : Token) : Prop where
  inside : Inside room 0 ts
  balanced : openBraces ts = 0
  closing : closing.kind = .delimiter .rbrace

/-- The kinds of tokens that a body has none of. -/
def Kind.neverInBody : List Kind :=
  [.comment .line, .comment .block, .delimiter .endOfLine, .delimiter .elidedSemicolon, .endOfFile]

theorem Token.Lawful.inBody {t : Token} (h : t.Lawful) (hend : t.kind ≠ .endOfFile) :
    t.kind ∉ Kind.neverInBody := by
  intro hk
  by_cases hsemi : t.kind = .delimiter .semicolon
  · rw [hsemi] at hk
    revert hk
    decide
  · have hsolid := (h.stands hend hsemi).solid
    simp only [Kind.neverInBody, List.mem_cons, List.not_mem_nil, or_false] at hk
    rcases hk with hk | hk | hk | hk | hk <;> simp [hk, Lexeme.isSolid, Delimiter.isWritten] at hsolid

namespace Parser.Good

variable {p : Parser} (hp : p.Good)

include hp

theorem getLast_ahead (hk : p.peek.kind ≠ .endOfFile) :
    ∃ last, (p.ahead.map Arrival.outcome).getLast? = some last ∧ Arrival.Closes last := by
  refine ⟨p.final, ?_, hp.final⟩
  rw [List.getLast?_map]
  cases ha : p.ahead.getLast? with
  | none => exact absurd (hp.endOfFile (List.getLast?_eq_none_iff.1 ha)) hk
  | some a => simp [Parser.final, ha]

theorem lawful_ahead {t : Token} (h : .ok t ∈ p.ahead.map Arrival.outcome) : t.Lawful := by
  obtain ⟨a, ha, ht⟩ := List.mem_map.1 h
  exact (hp.ahead a ha).ok t ht

end Parser.Good

/-- A body that is read has a brace that closes it and a token behind that, and is what is between
the braces. -/
theorem block_closed {p q : Parser} {b : Block} (hp : p.Good)
    (hk : p.peek.kind = .delimiter .lbrace) (h : Parse.block p = .ok b q) :
    ∃ closing, p.ahead.map Arrival.outcome = b.tokens.map .ok ++ .ok closing :: q.stream ∧
      Closes p.room b.tokens closing ∧ b.start = p.peek.pos ∧ b.stop = closing.stop := by
  obtain ⟨last, hlast, hend⟩ := hp.getLast_ahead (by simp [hk])
  obtain ⟨ts, x, rest, hw, hin, hx⟩ :=
    exists_ending hlast hend (Int.le_refl 0) (Int.natCast_nonneg p.room)
  rw [Int.zero_add] at hx
  cases hx with
  | flaw e =>
    obtain ⟨r, hr⟩ := Parse.block_of_flaw hk hw hin
    rw [hr] at h
    cases h
  | source ht =>
    obtain ⟨r, hr⟩ := Parse.block_of_source hk hw hin ht
    rw [hr] at h
    cases h
  | deep ht hfull =>
    obtain ⟨r, hr⟩ := Parse.block_of_deep hk hw hin ht hfull
    rw [hr] at h
    cases h
  | @closed t ht hc =>
    -- The closing brace is not the end of the source, so something arrives behind it.
    obtain ⟨y, more, rfl⟩ : ∃ y more, rest = y :: more := by
      refine List.exists_cons_of_ne_nil fun hnil => ?_
      rw [hw, hnil, List.getLast?_concat] at hlast
      cases hlast
      simp [Arrival.Closes, ht] at hend
    cases y with
    | error e =>
      obtain ⟨r, hr⟩ := Parse.block_of_flaw_behind hk hw hin ht hc rfl
      rw [hr] at h
      cases h
    | ok u =>
      obtain ⟨r, hr, hrs⟩ := Parse.block_of_closed hk hw hin ht hc rfl
      rw [hr] at h
      cases h
      exact ⟨t, by rw [hw, hrs], ⟨hin, hc, ht⟩, rfl, rfl⟩

/-- A body is read just if the brace that closes it and the token behind that arrive with no flaw of
the source before them and no brace one level too deep. What is kept of it are then the tokens
between its braces. Otherwise the source ends, a brace is too deep, or a flaw is met, and what comes
first of these is the error. -/
theorem bodies_exact {p : Parser} (hp : p.Good) (hk : p.peek.kind = .delimiter .lbrace) :
    ((∃ b q, Parse.block p = .ok b q) ↔
      ∃ ts closing next rest,
        p.ahead.map Arrival.outcome = ts.map .ok ++ .ok closing :: .ok next :: rest ∧
          Closes p.room ts closing) ∧
    (∀ b q, Parse.block p = .ok b q →
      ∃ closing, p.ahead.map Arrival.outcome = b.tokens.map .ok ++ .ok closing :: q.stream ∧
        Closes p.room b.tokens closing ∧ b.start = p.peek.pos ∧ b.stop = closing.stop ∧
        ∀ t ∈ b.tokens, t.kind ∉ Kind.neverInBody) ∧
    ∀ ts x rest, p.ahead.map Arrival.outcome = ts.map .ok ++ x :: rest → Inside p.room 0 ts →
      (∀ t, x = .ok t → t.kind = .endOfFile →
        ∃ q, Parse.block p = .error ⟨t.pos, .grammar (.openBlock p.peek.pos)⟩ q) ∧
      (∀ t, x = .ok t → t.kind = .delimiter .lbrace → openBraces ts = p.room →
        ∃ q, Parse.block p = .error ⟨t.pos, .tooDeep p.limit⟩ q) ∧
      (∀ e, x = .error e → ∃ q, Parse.block p = .error e q) ∧
      ∀ closing e more, x = .ok closing → Closes p.room ts closing → rest = .error e :: more →
        ∃ q, Parse.block p = .error e q := by
  refine ⟨⟨?_, ?_⟩, ?_, ?_⟩
  · rintro ⟨b, q, h⟩
    obtain ⟨closing, hw, hcloses, -⟩ := block_closed hp hk h
    exact ⟨b.tokens, closing, q.peek, q.ahead.map Arrival.outcome, hw, hcloses⟩
  · rintro ⟨ts, closing, next, rest, hw, hcloses⟩
    obtain ⟨q, hq, -⟩ :=
      Parse.block_of_closed hk hw hcloses.inside hcloses.closing hcloses.balanced rfl
    exact ⟨_, q, hq⟩
  · intro b q h
    obtain ⟨closing, hw, hcloses, hstart, hstop⟩ := block_closed hp hk h
    refine ⟨closing, hw, hcloses, hstart, hstop, fun t ht => ?_⟩
    have hlawful : t.Lawful := hp.lawful_ahead (by simp [hw, ht])
    exact hlawful.inBody (hcloses.inside.goesOn t ht)
  · intro ts x rest hw hin
    refine ⟨?_, ?_, ?_, ?_⟩
    · rintro t rfl ht
      exact Parse.block_of_source hk hw hin ht
    · rintro t rfl ht hfull
      exact Parse.block_of_deep hk hw hin ht hfull
    · rintro e rfl
      exact Parse.block_of_flaw hk hw hin
    · rintro closing e more rfl hcloses rfl
      exact Parse.block_of_flaw_behind hk hw hin hcloses.closing hcloses.balanced rfl

theorem block_nested : ∃ p b q,
    Parser.ofText 1 "a.go" ['{', '{', 'b', '}', 'c', '}'] = .ok p ∧
      p.peek.kind = .delimiter .lbrace ∧ Parse.block p = .ok b q ∧
      b.tokens.map Token.text = [['{'], ['b'], ['}'], ['c']] := by
  have hrun : ((Parser.ofText 1 "a.go" ['{', '{', 'b', '}', 'c', '}']).toOption.bind fun p =>
      match Parse.block p with
      | .ok b _ => some (p.peek.kind, b.tokens.map Token.text)
      | .error _ _ => none) =
      some (.delimiter .lbrace, [['{'], ['b'], ['}'], ['c']]) := by decide +kernel
  cases hp : Parser.ofText 1 "a.go" ['{', '{', 'b', '}', 'c', '}'] with
  | error e => simp [hp, Except.toOption] at hrun
  | ok p =>
    cases hb : Parse.block p with
    | error e q => simp [hp, hb, Except.toOption] at hrun
    | ok b q =>
      simp only [hp, Except.toOption, Option.bind_some, hb, Option.some.injEq,
        Prod.mk.injEq] at hrun
      exact ⟨p, b, q, rfl, hrun.1, hb, hrun.2⟩

/-- With one level, a body may have a block inside. -/
theorem bodies_exact_nested : ∃ p b q closing,
    Parser.ofText 1 "a.go" ['{', '{', 'b', '}', 'c', '}'] = .ok p ∧ p.Good ∧
      p.peek.kind = .delimiter .lbrace ∧ Parse.block p = .ok b q ∧
      b.tokens.map Token.text = [['{'], ['b'], ['}'], ['c']] ∧
      p.ahead.map Arrival.outcome = b.tokens.map .ok ++ .ok closing :: q.stream ∧
      Closes p.room b.tokens closing := by
  obtain ⟨p, b, q, hp, hk, hb, htexts⟩ := block_nested
  have hgood := (Parser.good_of_ofFeed hp).1
  obtain ⟨closing, hw, hcloses, -⟩ := (bodies_exact hgood hk).2.1 b q hb
  exact ⟨p, b, q, closing, hp, hgood, hk, hb, htexts, hw, hcloses⟩

end GoSyntax
