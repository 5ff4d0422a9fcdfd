import GoSyntax.Proofs.Decoding
import GoSyntax.Proofs.Lexer.Places

/-! Positions are exact: a token's line and column are those that the text before it leads to. So are
those of the first error, for some text that goes up to the last token at least. -/
namespace GoSyntax

/-- The text is what the first `n` bytes encode, and the position is where it leads to. -/
def LeadsTo (file : String) (bytes : List UInt8) (n : Nat) (p : Position) : Prop :=
  ∃ s : Text, s.encode = bytes.take n ∧ s.byteLength = n ∧ p = .reached file s

namespace Lexer

variable {x : Lexer} {s : Text} {l ts : List Token} {t : Token} {file : String} {bytes : List UInt8}

/-- The lexer stands behind the tokens `l` of the text `s`, at the place that they lead to. -/
structure Located (file : String) (s : Text) (l : List Token) (x : Lexer) : Prop where
  text : l.flatMap Token.raw ++ x.rest = s
  stands : Stands ((Mark.origin file).pastAll (l.flatMap Token.raw)) x
  stop : ∀ t ∈ l, t.span.stop ≤ Text.byteLength (l.flatMap Token.raw)

theorem offset_pastAll (file : String) (s : Text) :
    ((Mark.origin file).pastAll s).offset = s.byteLength := by
  rw [Mark.pastAll_origin]

/-- A text at the front of a source leads to the place behind it. -/
theorem leadsTo_of_prefix {w : Text} (hs : s.encode <+: bytes) (hw : w <+: s) :
    LeadsTo file bytes w.byteLength ((Mark.origin file).pastAll w).pos := by
  obtain ⟨more, rfl⟩ := hw
  obtain ⟨rest, rfl⟩ := hs
  refine ⟨w, ?_, rfl, by rw [Mark.pastAll_origin]⟩
  rw [Text.encode_append, List.append_assoc, ← Text.length_encode, List.take_left]

/-- The next token is cut out of the text where the tokens before it end, and stands where they lead
to. -/
theorem Located.step (h : Located file s l x) (hlen : s.byteLength < counterMax)
    (ht : x.next.outcome = .ok t) :
    let before : Text := l.flatMap Token.raw
    before ++ (t.raw ++ x.next.after.rest) = s ∧
      t.span = ⟨before.byteLength + Text.byteLength t.leading,
        before.byteLength + t.raw.byteLength⟩ ∧
      t.At ((Mark.origin file).pastAll before) ∧
        Stands ((Mark.origin file).pastAll (before ++ t.raw)) x.next.after := by
  intro before
  have htotal := congrArg Text.byteLength h.text
  rw [Text.byteLength_append] at htotal
  have hlays := lays_next h.stands.tidy ht
  rw [offset_pastAll] at hlays
  obtain ⟨hat, hstands⟩ := h.stands.next (by rw [offset_pastAll]; omega) ht
  rw [← Mark.pastAll_append] at hstands
  exact ⟨by rw [← hlays.rest, h.text], hlays.span_eq (by omega), hat, hstands⟩

theorem Located.next (h : Located file s l x) (hlen : s.byteLength < counterMax)
    (ht : x.next.outcome = .ok t) : Located file s (l ++ [t]) x.next.after := by
  obtain ⟨htext, hspan, -, hstands⟩ := h.step hlen ht
  have hraw : (l ++ [t]).flatMap Token.raw = l.flatMap Token.raw ++ t.raw := by simp
  refine ⟨?_, ?_, ?_⟩
  · rw [hraw, List.append_assoc, htext]
  · rwa [hraw]
  · rw [hraw, Text.byteLength_append]
    intro u hu
    rcases List.mem_append.1 hu with hu | hu
    · exact Nat.le_trans (h.stop u hu) (Nat.le_add_right _ _)
    · obtain rfl := List.mem_singleton.1 hu
      exact Nat.le_of_eq (congrArg Span.stop hspan)

theorem Located.leadsTo (h : Located file s l x) (hlen : s.byteLength < counterMax)
    (hs : s.encode <+: bytes) (ht : x.next.outcome = .ok t) :
    LeadsTo file bytes t.span.start t.pos := by
  obtain ⟨htext, hspan, hat, -⟩ := h.step hlen ht
  have hpre : l.flatMap Token.raw ++ t.leading <+: s := by
    refine ⟨t.text ++ x.next.after.rest, ?_⟩
    rw [← htext]
    simp [Token.raw]
  rw [hspan, hat.pos, ← Mark.pastAll_append, ← Text.byteLength_append]
  exact leadsTo_of_prefix hs hpre

theorem Located.error {e : Error} (h : Located file s l x) (hs : s.encode <+: bytes)
    (he : x.next.outcome = .error e) :
    ∃ n, LeadsTo file bytes n e.pos ∧ ∀ t ∈ l, t.span.stop ≤ n := by
  obtain ⟨w, hw, hpos⟩ := h.stands.error he
  have hpre : l.flatMap Token.raw ++ w <+: s := by
    rw [← h.text]
    exact (List.prefix_append_right_inj _).2 hw
  refine ⟨Text.byteLength (l.flatMap Token.raw ++ w), ?_, ?_⟩
  · rw [hpos, ← Mark.pastAll_append]
    exact leadsTo_of_prefix hs hpre
  · intro t ht
    rw [Text.byteLength_append]
    exact Nat.le_trans (h.stop t ht) (Nat.le_add_right _ _)

theorem Fresh.located (h : x.Fresh) (hm : x.cursor.mark = .origin file) :
    Located file x.rest [] x :=
  ⟨rfl, h.stands hm, by simp⟩

end Lexer

open Lexer in
/-- Up to the end of a source or its first error, the bytes before each token lead to its position. The
bytes before some place behind all of these tokens lead to the position of the error, which is the
start of the source if there is no first character. -/
theorem positions_exact {file : String} {feed : Feed} {bytes : List UInt8}
    (hf : feed.octets = bytes.map .ok) (hlen : bytes.length < counterMax) :
    (∀ e, Lexer.ofFeed file feed = .error e → LeadsTo file bytes 0 e.pos) ∧
    ∀ x, Lexer.ofFeed file feed = .ok x →
      (∀ t ∈ handedOut x.run, LeadsTo file bytes t.span.start t.pos) ∧
      ∀ step ∈ x.run, ∀ e, step.outcome = .error e →
        ∃ n, LeadsTo file bytes n e.pos ∧ ∀ t ∈ handedOut x.run, t.span.stop ≤ n := by
  constructor
  · intro e he
    unfold Lexer.ofFeed at he
    split at he
    · cases he
    · cases he
      exact ⟨[], rfl, rfl, rfl⟩
  · intro x hx
    obtain ⟨hfresh, hmark, -⟩ := fresh_of_ofFeed hx
    obtain ⟨ts, stop, hleads, hbudget⟩ := hfresh.exists_leads
    have hrun := hleads.runFor hfresh.ended hbudget
    have hencode := encode_rest hf hx
    have hrest : x.rest.byteLength < counterMax :=
      Nat.lt_of_le_of_lt (byteLength_rest hf hx) hlen
    have hreach : ∀ {a b : List Token}, ts = a ++ b →
        ∃ y, Located file x.rest a y ∧ Leads y b stop := by
      intro a b hts
      exact hleads.reaches (fun l y t hy ht => hy.next hrest ht) (hfresh.located hmark) hts
    obtain ⟨y, hy, hlast⟩ := hreach (List.append_nil ts).symm
    have hstop : y.next.outcome = stop := by
      cases hlast with
      | last h _ => exact h
    rw [run, handedOut_eq hrun]
    constructor
    · intro t ht
      rcases List.mem_append.1 ht with ht | ht
      · obtain ⟨a, b, hts⟩ := List.append_of_mem ht
        obtain ⟨z, hz, hnext⟩ := hreach hts
        exact hz.leadsTo hrest hencode hnext.head
      · cases stop with
        | error e => cases ht
        | ok u =>
          obtain rfl : t = u := by simpa [Except.toOption] using ht
          exact hy.leadsTo hrest hencode hstop
    · intro step hstep e he
      have hmem : .error e ∈ ts.map .ok ++ [stop] := by
        rw [← hrun, ← he]
        exact List.mem_map_of_mem hstep
      obtain rfl : stop = .error e := by simpa [eq_comm] using hmem
      obtain ⟨n, hn, hle⟩ := hy.error hencode hstop
      exact ⟨n, hn, by simpa [Except.toOption] using hle⟩

/-- A byte order mark, a comment over two lines, the line's end behind it, two dots and a character
that opens nothing. -/
theorem positions_exact_stray :
    let bytes : List UInt8 := [0xEF, 0xBB, 0xBF, 0x2F, 0x2A, 0x0A, 0x2A, 0x2F, 0x2E, 0x2E, 0x24]
    ∃ x step e, Lexer.ofFeed "a.go" (.ofBytes bytes) = .ok x ∧ step ∈ x.run ∧
      step.outcome = .error e ∧ e.pos = ⟨"a.go", 2, 5⟩ ∧
        (Lexer.handedOut x.run).map (fun t => (t.span.start, t.pos.line, t.pos.column)) =
          [(3, 1, 1), (8, 2, 3), (8, 2, 3), (9, 2, 4)] ∧
        (∀ t ∈ Lexer.handedOut x.run, LeadsTo "a.go" bytes t.span.start t.pos) ∧
        ∃ n, LeadsTo "a.go" bytes n e.pos ∧ ∀ t ∈ Lexer.handedOut x.run, t.span.stop ≤ n := by
  intro bytes
  obtain ⟨x, hx⟩ : ∃ x, Lexer.ofFeed "a.go" (.ofBytes bytes) = .ok x := ⟨_, rfl⟩
  have hrun : ∃ a b c d step e, x.run = [a, b, c, d, step] ∧ step.outcome = .error e ∧
      e.pos = ⟨"a.go", 2, 5⟩ ∧
        (Lexer.handedOut x.run).map (fun t => (t.span.start, t.pos.line, t.pos.column)) =
          [(3, 1, 1), (8, 2, 3), (8, 2, 3), (9, 2, 4)] := by
    cases hx
    exact ⟨_, _, _, _, _, _, rfl, rfl, rfl, rfl⟩
  obtain ⟨a, b, c, d, step, e, hsteps, he, hpos, hplaces⟩ := hrun
  have hstep : step ∈ x.run := by simp [hsteps]
  have hexact := (positions_exact (Feed.octets_ofBytes bytes) (by decide)).2 x hx
  exact ⟨x, step, e, hx, hstep, he, hpos, hplaces, hexact.1, hexact.2 step hstep e he⟩

end GoSyntax
