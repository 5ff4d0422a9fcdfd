import GoSyntax.Proofs.Lexeme.Longest
import GoSyntax.Proofs.Semicolons
import GoSyntax.Proofs.Decoding
import GoSyntax.Proofs.Grammar.Arrivals

/-! Every token is the longest that its place in the source allows, but for the second of two dots,
which is split off without a look at what follows it. -/
namespace GoSyntax

open Lexeme (Whole)

/-- The bytes, as a source of their own, are read without an error, all of them as the first token. -/
def OneToken (bytes : List UInt8) : Prop :=
  ∃ file x t ts, Lexer.ofFeed file (.ofBytes bytes) = .ok x ∧ x.tokens = .ok (t :: ts) ∧
    t.text.encode = bytes

/-- No prefix of the source from the token on is longer than the token and one token itself. -/
def Longest (bytes : List UInt8) (t : Token) : Prop :=
  ∀ p, p <+: bytes.drop t.span.start → t.text.encode.length < p.length → ¬OneToken p

/-- The token is a dot right behind another, the last of the tokens `l`, and right before a digit. -/
structure SecondDot (bytes : List UInt8) (l : List Token) (t : Token) : Prop where
  kind : t.kind = .delimiter .dot
  behind : ∃ u, l.getLast? = some u ∧ u.kind = .delimiter .dot ∧ u.span.stop = t.span.start
  before : ∃ b, bytes[t.span.stop]? = some b ∧ 0x30 ≤ b ∧ b ≤ 0x39

theorem Text.encode_eq_nil {s : Text} (h : s.encode = []) : s = [] := by
  cases s with
  | nil => rfl
  | cons c s =>
    have hlen := congrArg List.length h
    rw [Text.length_encode, Text.byteLength_cons] at hlen
    have := c.utf8Size_pos
    simp at hlen
    omega

/-- Where bytes go on from others, so do the characters. -/
theorem Text.prefix_of_encode {s w : Text} (hs : '\x00' ∉ s) (hw : '\x00' ∉ w)
    (h : s.encode <+: w.encode) : s <+: w := by
  obtain ⟨more, hmore⟩ := h
  have hdecode := Utf8.decode_encode hw
  rw [← hmore, Utf8.decode_encode_append hs] at hdecode
  have htake := congrArg (List.take s.length) hdecode
  rw [← List.map_take, List.take_left' (by simp)] at htake
  have hs : s = w.take s.length := List.map_injective_iff.2 (fun _ _ => Except.ok.inj) htake
  rw [hs]
  exact List.take_prefix _ _

/-- A text in the front of `a ++ rest` that has more bytes than `a` goes on from it. -/
theorem Text.exists_of_prefix {a rest w : Text} (h : w <+: a ++ rest)
    (hlen : a.encode.length < w.encode.length) : ∃ b, w = a ++ b ∧ b ≠ [] ∧ b <+: rest := by
  have hle : a.length ≤ w.length := by
    by_contra hlt
    obtain ⟨b, rfl⟩ := List.prefix_of_prefix_length_le h (List.prefix_append a rest) (by omega)
    rw [Text.encode_append, List.length_append] at hlen
    omega
  obtain ⟨b, rfl⟩ := List.prefix_of_prefix_length_le (List.prefix_append a rest) h hle
  refine ⟨b, rfl, ?_, (List.prefix_append_right_inj a).1 h⟩
  rintro rfl
  simp at hlen

namespace Lexer

variable {x : Lexer} {s rest : Text} {l ts : List Token} {t : Token}

theorem read_lexeme {m : Lexeme.Meaning} (h : x.reading.result = .ok m) :
    Lexeme.read x.elides (x.lexeme ++ x.stop.ahead) = .done x.lexeme.length m := by
  rw [lexeme_append]
  exact Lexeme.eq_done x.length_lexeme.symm h

/-- Between the tokens `l` and the rest of the text `s`. A queued token ends a line, or is the second of
two dots. -/
structure Between (s : Text) (l : List Token) (x : Lexer) : Prop where
  text : l.flatMap Token.raw ++ x.rest = s
  tidy : Tidy (Text.byteLength (l.flatMap Token.raw)) x
  last : ∀ u, l.getLast? = some u → u.span.stop = Text.byteLength (l.flatMap Token.raw)
  queued : ∀ q, x.queued = some q → q.kind.isLineEnd = true ∨
    q.kind = .delimiter .dot ∧ q.text = ['.'] ∧ x.cursor.ahead.head? ≠ some '.' ∧
      ∃ u, l.getLast? = some u ∧ u.kind = .delimiter .dot

/-- The tokens that can be handed out behind the tokens `l` and before the text `rest`. -/
inductive Bounded (l : List Token) (t : Token) (rest : Text) : Prop
  | marker (h : t.kind.isLineEnd = true ∨ t.kind = .endOfFile)
  | lexeme {elides : Bool} {v : Option Value} (hne : t.text ≠ []) (hk : t.kind.isLineEnd = false)
    (h : Lexeme.read elides (t.text ++ rest) = .done t.text.length (.token t.kind v))
  | firstDot {more : Text} (ht : t.text = ['.']) (hrest : rest = '.' :: more)
    (h : more.head? ≠ some '.')
  | secondDot (hk : t.kind = .delimiter .dot) (hleading : t.leading = []) (ht : t.text = ['.'])
    (h : rest.head? ≠ some '.') (hl : ∃ u, l.getLast? = some u ∧ u.kind = .delimiter .dot)

theorem bounded_queued (h : Between s l x) (hq : x.queued = some t) :
    Bounded l t (emit { x with queued := none } t).after.rest := by
  rcases h.queued t hq with hk | ⟨hk, ht, hh, hl⟩
  · exact .marker (Or.inl hk)
  · exact .secondDot hk (h.tidy.queued t hq).1 ht hh hl

theorem bounded_token {kind : Kind} {v : Option Value}
    (hr : x.reading.result = .ok (.token kind v)) :
    let step := x.filled.produce (x.text ++ x.blanks) x.lexeme x.start.mark (.token kind v)
    ∃ t, step.outcome = .ok t ∧ Bounded l t step.after.rest ∧
      ∀ q, step.after.queued = some q → q.kind.isLineEnd = true := by
  intro step
  have hrest : step.after.rest = x.stop.ahead := by
    show ((queuedBehind x.elides kind x.lexeme x.stop.mark).map Token.text).getD [] ++ _ = _
    unfold queuedBehind
    split <;> rfl
  refine ⟨_, rfl, ?_, ?_⟩
  · rw [hrest]
    by_cases hline : kind.isLineEnd = true
    · exact .marker (Or.inl hline)
    by_cases hend : kind = .endOfFile
    · exact .marker (Or.inr hend)
    refine .lexeme ?_ (by simpa using hline) (read_lexeme hr)
    intro hnil
    -- nothing is read at the end of the source only
    have ha : x.start.ahead = [] := by
      by_contra hne
      have hsize := one_le_size hne
      rw [← length_lexeme, show x.lexeme = [] from hnil] at hsize
      exact absurd hsize (by decide)
    rw [reading, ha] at hr
    cases hr
    cases hel : x.elides <;> simp [hel, Lexeme.sourceEnd, Kind.isLineEnd] at hline hend
  · intro q hq
    have hq : queuedBehind x.elides kind x.lexeme x.stop.mark = some q := hq
    unfold queuedBehind at hq
    split at hq
    · cases hq
      exact isLineEnd_lineEnd x.elides
    · cases hq

theorem bounded_twoDots (hr : x.reading.result = .ok .twoDots) :
    let step := x.filled.produce (x.text ++ x.blanks) x.lexeme x.start.mark .twoDots
    ∃ t, step.outcome = .ok t ∧ t.kind = .delimiter .dot ∧ Bounded l t step.after.rest ∧
      ∀ q, step.after.queued = some q → q.kind = .delimiter .dot ∧ q.text = ['.'] ∧
        step.after.cursor.ahead.head? ≠ some '.' := by
  intro step
  have hdots := lexeme_of_twoDots hr
  have hread := read_lexeme hr
  rw [hdots] at hread
  have hthird := (Lexeme.read_twoDots_iff x.elides x.stop.ahead).1 hread
  refine ⟨_, rfl, rfl, .firstDot (by rw [hdots]; rfl) ?_ hthird, ?_⟩
  · show x.lexeme.drop 1 ++ x.stop.ahead = '.' :: x.stop.ahead
    rw [hdots]
    rfl
  · rintro q ⟨⟩
    exact ⟨rfl, by rw [hdots]; rfl, hthird⟩

/-- A step hands out a token that is bounded, and leaves a lexer between tokens again. -/
theorem Between.next (h : Between s l x) (hlen : s.byteLength < counterMax)
    (ht : x.next.outcome = .ok t) :
    Bounded l t x.next.after.rest ∧ Between s (l ++ [t]) x.next.after := by
  have hlays := lays_next h.tidy ht
  obtain ⟨-, hstop, htext⟩ := hlays.cut h.text rfl hlen
  have hraw : (l ++ [t]).flatMap Token.raw = l.flatMap Token.raw ++ t.raw := by simp
  have htidy := hlays.tidy
  rw [← Text.byteLength_append, ← hraw] at htidy
  have hlast : ∀ u, (l ++ [t]).getLast? = some u →
      u.span.stop = Text.byteLength ((l ++ [t]).flatMap Token.raw) := by
    intro u hu
    obtain rfl : t = u := by simpa using hu
    rw [hraw, hstop]
  rw [← hraw] at htext
  have hm := next_move x
  generalize x.next = step at hm ht htext htidy ⊢
  cases hm with
  | queued hq =>
    cases ht
    exact ⟨bounded_queued h hq, htext, htidy, hlast, by simp⟩
  | blankFault => cases ht
  | lexemeFault => cases ht
  | flaw => cases ht
  | @lexeme meaning hq hc hr =>
    cases meaning with
    | token kind v =>
      obtain ⟨u, hu, hbounded, hqueued⟩ := @bounded_token x l kind v hr
      obtain rfl : u = t := Except.ok.inj (hu.symm.trans ht)
      exact ⟨hbounded, htext, htidy, hlast, fun q hq' => Or.inl (hqueued q hq')⟩
    | twoDots =>
      obtain ⟨u, hu, hk, hbounded, hqueued⟩ := @bounded_twoDots x l hr
      obtain rfl : u = t := Except.ok.inj (hu.symm.trans ht)
      refine ⟨hbounded, htext, htidy, hlast, fun q hq' => Or.inr ?_⟩
      obtain ⟨hkq, htq, hh⟩ := hqueued q hq'
      exact ⟨hkq, htq, hh, u, by simp, hk⟩

/-- Where the token's text and what lies behind it begin. -/
theorem Lays.drop_span {i : Nat} {y : Lexer} {before : Text} (h : Lays i x t y)
    (hs : before ++ x.rest = s) (hb : before.byteLength = i) (hlen : s.byteLength < counterMax) :
    t.span.start = i + Text.byteLength t.leading ∧
      s.encode.drop t.span.start = (t.text ++ y.rest).encode ∧
        s.encode.drop t.span.stop = y.rest.encode := by
  have htotal := congrArg Text.byteLength hs
  rw [Text.byteLength_append] at htotal
  have hspan := h.span_eq (by omega)
  rw [← hs, h.rest, hspan]
  refine ⟨rfl, ?_, ?_⟩
  · have hlead : (before ++ t.leading).encode.length = i + Text.byteLength t.leading := by
      rw [Text.length_encode, Text.byteLength_append, hb]
    have hsplit : before ++ (t.raw ++ y.rest) = before ++ t.leading ++ (t.text ++ y.rest) := by
      simp [Token.raw]
    rw [hsplit, Text.encode_append, ← hlead, List.drop_left]
  · have hlead : (before ++ t.raw).encode.length = i + t.raw.byteLength := by
      rw [Text.length_encode, Text.byteLength_append, hb]
    rw [← List.append_assoc, Text.encode_append, ← hlead, List.drop_left]

/-- What a source without errors decodes to, and the tokens it leads to. -/
theorem leads_of_tokens {file : String} {feed : Feed} {bytes : List UInt8}
    (hf : feed.octets = bytes.map .ok) (hx : ofFeed file feed = .ok x) (ht : x.tokens = .ok ts) :
    x.Fresh ∧ x.rest.encode = bytes ∧ '\x00' ∉ x.rest ∧ Between x.rest [] x ∧
      ∃ us e, Leads x us (.ok e) ∧ ts = us ++ [e] ∧ e.kind = .endOfFile := by
  obtain ⟨hfresh, hmark, hsplit⟩ := fresh_of_ofFeed hx
  have htidy : Tidy 0 x := hfresh.tidy (by rw [Cursor.offset, hmark]; rfl)
  rw [rest_of_queued_none hfresh.queued]
  have hdecode : Utf8.decode (bytes.map .ok) = x.cursor.ahead.map .ok := by
    rw [hf] at hsplit
    have hbreaks := (hfresh.yields ht).breaks_nil htidy
    have hnil := Break.split_nil ((congrArg Prod.snd hsplit).symm.trans hbreaks)
    rw [← hsplit] at hnil
    exact hnil
  refine ⟨hfresh, Utf8.encode_of_decode hdecode, ?_, ?_, ?_⟩
  · intro hnul
    have hmem : .ok '\x00' ∈ Utf8.decode (bytes.map .ok) := by
      rw [hdecode]
      exact List.mem_map_of_mem hnul
    exact Utf8.decode_ne_nul hmem rfl
  · exact ⟨rest_of_queued_none hfresh.queued, htidy, by simp, by simp [hfresh.queued]⟩
  · obtain ⟨us, stop, hleads, hlen⟩ := hfresh.exists_leads
    rw [hfresh.tokens_eq hleads hlen] at ht
    cases stop with
    | error e => cases ht
    | ok e => exact ⟨us, e, hleads, (Except.ok.inj ht).symm, hleads.stop_kind e rfl⟩

end Lexer

/-- Bytes that are one token are one lexeme. -/
theorem OneToken.whole {p : List UInt8} (h : OneToken p) :
    ∃ s, s.encode = p ∧ '\x00' ∉ s ∧ Whole s := by
  obtain ⟨file, x, t, ts, hx, hts, htext⟩ := h
  obtain ⟨hfresh, hencode, hnul, hbetween, us, e, hleads, hus, -⟩ :=
    Lexer.leads_of_tokens (Feed.octets_ofBytes p) hx hts
  have ht : x.next.outcome = .ok t := by
    cases hleads with
    | last h _ =>
      cases hus
      exact h
    | more h _ _ =>
      obtain ⟨rfl, -⟩ := List.cons.inj hus
      exact h
  have hlays := Lexer.lays_next hbetween.tidy ht
  -- the token's text has as many bytes as the source, so nothing is left for what surrounds it
  have hbytes : x.rest.encode = Text.encode t.leading ++ t.text.encode ++ x.next.after.rest.encode := by
    rw [hlays.rest, Text.encode_append, Token.raw, Text.encode_append]
  rw [hencode, ← htext] at hbytes
  have hlen := congrArg List.length hbytes
  simp only [List.length_append] at hlen
  have hleading : t.leading = [] :=
    Text.encode_eq_nil (List.eq_nil_of_length_eq_zero (by omega))
  have hafter : x.next.after.rest = [] :=
    Text.encode_eq_nil (List.eq_nil_of_length_eq_zero (by omega))
  have hrest : x.rest = t.text := by
    rw [hlays.rest, hafter, Token.raw, hleading]
    simp
  refine ⟨x.rest, hencode, hnul, ?_⟩
  have hm := Lexer.next_move x
  generalize x.next = step at hm ht
  cases hm with
  | queued hq => simp [hfresh.queued] at hq
  | blankFault => cases ht
  | lexemeFault => cases ht
  | flaw => cases ht
  | @lexeme meaning hq hc hr =>
    have hpieces := Lexer.rest_eq hq
    have hread := Lexer.read_lexeme hr
    cases meaning with
    | token kind v =>
      cases ht
      have hstop : x.blanks = [] ∧ x.stop.ahead = [] := by
        have hsize := congrArg List.length (hpieces.symm.trans hrest)
        simp only [List.length_append] at hsize
        exact ⟨List.eq_nil_of_length_eq_zero (by omega), List.eq_nil_of_length_eq_zero (by omega)⟩
      rw [hstop.2, List.append_nil, hfresh.elides] at hread
      rw [hrest]
      exact ⟨kind, v, hread⟩
    | twoDots =>
      cases ht
      have hsize := congrArg List.length (hpieces.symm.trans hrest)
      simp [Lexer.lexeme_of_twoDots hr] at hsize
      omega

namespace Lexer

variable {x : Lexer} {s rest : Text} {l : List Token} {t : Token}

theorem Bounded.longest (h : Bounded l t rest) (hend : t.kind.isLineEnd = false)
    (hlast : t.kind ≠ .endOfFile)
    (hdigit : t.kind = .delimiter .dot → t.leading = [] →
      (∃ u, l.getLast? = some u ∧ u.kind = .delimiter .dot) →
        ∀ c ∈ rest.head?, isDigitIn 10 c = false)
    {b : Text} (hb : b ≠ []) (hp : b <+: rest) : ¬Whole (t.text ++ b) := by
  cases h with
  | marker h =>
    rcases h with h | h
    · rw [hend] at h
      cases h
    · exact absurd h hlast
  | lexeme hne hk h => exact Lexeme.not_whole_of_read hne hk h hb hp
  | firstDot ht hrest h =>
    subst hrest
    obtain ⟨c, b, rfl⟩ := List.exists_cons_of_ne_nil hb
    obtain ⟨rfl, hmore⟩ := List.cons_prefix_cons.1 hp
    rw [ht]
    exact Lexeme.not_whole_of_twoDots h hmore
  | secondDot hk hleading ht h hl =>
    rw [ht]
    have hread := @Lexeme.read_dot false rest h (hdigit hk hleading hl)
    exact Lexeme.not_whole_of_read (s := ['.']) (by simp) rfl hread hb hp

/-- A token that is handed out is the longest, or the second of two dots. -/
theorem Between.longest (h : Between s l x) (hs : '\x00' ∉ s) (hlen : s.byteLength < counterMax)
    (ht : x.next.outcome = .ok t) (hend : t.kind.isLineEnd = false) (hlast : t.kind ≠ .endOfFile) :
    Longest s.encode t ∨ SecondDot s.encode l t := by
  obtain ⟨hstart, hfrom, hbehind⟩ := (lays_next h.tidy ht).drop_span h.text rfl hlen
  have hbounded := (h.next hlen ht).1
  generalize hrest : x.next.after.rest = rest at hfrom hbehind hbounded
  by_cases hdot : t.kind = .delimiter .dot ∧ t.leading = [] ∧
      (∃ u, l.getLast? = some u ∧ u.kind = .delimiter .dot) ∧
        ∃ c ∈ rest.head?, isDigitIn 10 c = true
  · obtain ⟨hk, hleading, ⟨u, hu, huk⟩, c, hc, hdigit⟩ := hdot
    refine Or.inr ⟨hk, ⟨u, hu, huk, ?_⟩, ?_⟩
    · rw [h.last u hu, hstart, hleading]
      rfl
    · obtain ⟨more, rfl⟩ := List.head?_eq_some_iff.1 hc
      have hrange := Lexeme.decimal_range hdigit
      have hbyte : (UInt8.ofNat c.toNat).toNat = c.toNat := by
        rw [UInt8.toNat_ofNat']
        omega
      have hencode := @Utf8.encode_one (UInt8.ofNat c.toNat) (by omega)
      rw [hbyte, Char.ofNat_toNat] at hencode
      refine ⟨UInt8.ofNat c.toNat, ?_, ?_, ?_⟩
      · rw [← Nat.add_zero t.span.stop, ← List.getElem?_drop, hbehind, Text.encode_cons, hencode]
        rfl
      · rw [UInt8.le_iff_toNat_le, hbyte]
        exact hrange.1
      · rw [UInt8.le_iff_toNat_le, hbyte]
        exact hrange.2
  · refine Or.inl fun p hp hlonger hone => ?_
    obtain ⟨w, rfl, hw, hwhole⟩ := hone.whole
    have hnul : '\x00' ∉ t.text ++ rest := by
      intro hmem
      apply hs
      rw [← h.text, (lays_next h.tidy ht).rest, Token.raw, hrest]
      simp only [List.mem_append] at hmem ⊢
      tauto
    rw [hfrom] at hp
    obtain ⟨b, rfl, hb, hpre⟩ :=
      Text.exists_of_prefix (Text.prefix_of_encode hw hnul hp) hlonger
    refine hbounded.longest hend hlast ?_ hb hpre hwhole
    intro hk hleading hl c hc
    rw [Bool.eq_false_iff]
    intro hdigit
    exact hdot ⟨hk, hleading, hl, c, hc, hdigit⟩

end Lexer

/-- In a source without errors every token with a text of its own is the longest at its place, but for
a second dot right before a digit. -/
theorem tokens_longest {file : String} {feed : Feed} {bytes : List UInt8} {x : Lexer}
    {ts : List Token} (hf : feed.octets = bytes.map .ok) (hlen : bytes.length < counterMax)
    (hx : Lexer.ofFeed file feed = .ok x) (ht : x.tokens = .ok ts) :
    ∀ l t r, ts = l ++ t :: r → t.kind.isLineEnd = false → t.kind ≠ .endOfFile →
      Longest bytes t ∨ SecondDot bytes l t := by
  intro l t r hts hend hlast
  obtain ⟨-, rfl, hnul, hbetween, us, e, hleads, hus, hkind⟩ := Lexer.leads_of_tokens hf hx ht
  rw [Text.length_encode] at hlen
  rcases List.eq_nil_or_concat r with rfl | ⟨r, e', rfl⟩
  · obtain ⟨-, he⟩ := List.append_inj' (hus.symm.trans hts) rfl
    obtain rfl : e = t := (List.cons.inj he).1
    exact absurd hkind hlast
  · have hsplit : us ++ [e] = (l ++ t :: r) ++ [e'] := by
      rw [← hus, hts]
      simp
    obtain ⟨hsplit, -⟩ := List.append_inj' hsplit rfl
    have hstep : ∀ l y t, Lexer.Between x.rest l y → y.next.outcome = .ok t →
        Lexer.Between x.rest (l ++ [t]) y.next.after :=
      fun l y t hy ht => (hy.next hlen ht).2
    obtain ⟨y, hy, hleads⟩ := hleads.reaches hstep hbetween hsplit
    exact hy.longest hnul hlen hleads.head hend hlast

/-- A shift with assignment between a name and two dots: no longer piece from its start is a token. -/
theorem tokens_longest_shift :
    ∃ x l t r, Lexer.ofFeed "a.go" (.ofBytes [0x61, 0x3C, 0x3C, 0x3D, 0x2E, 0x2E, 0x35]) = .ok x ∧
      x.tokens = .ok (l ++ t :: r) ∧ l.length = 1 ∧ t.text = ['<', '<', '='] ∧
        Longest [0x61, 0x3C, 0x3C, 0x3D, 0x2E, 0x2E, 0x35] t := by
  obtain ⟨x, hx⟩ : ∃ x, Lexer.ofFeed "a.go" (.ofBytes
      [0x61, 0x3C, 0x3C, 0x3D, 0x2E, 0x2E, 0x35]) = .ok x := ⟨_, rfl⟩
  have hts : ∃ a t r, x.tokens = .ok ([a] ++ t :: r) ∧ t.text = ['<', '<', '='] ∧
      t.kind = .operator .shlAssign := by
    cases hx
    exact ⟨_, _, _, rfl, rfl, rfl⟩
  obtain ⟨a, t, r, hts, htext, hk⟩ := hts
  refine ⟨x, [a], t, r, hx, hts, rfl, htext, ?_⟩
  rcases tokens_longest (Feed.octets_ofBytes _) (by decide) hx hts [a] t r rfl (by rw [hk]; rfl)
    (by simp [hk]) with hlongest | hdot
  · exact hlongest
  · have hkind := hdot.kind
    rw [hk] at hkind
    cases hkind

/-- Two dots before a digit are three tokens, although a point and a digit are one. -/
theorem tokens_longest_fails :
    ¬∀ (file : String) (feed : Feed) (bytes : List UInt8) (x : Lexer) (ts : List Token),
      feed.octets = bytes.map .ok → bytes.length < counterMax → Lexer.ofFeed file feed = .ok x →
        x.tokens = .ok ts → ∀ t ∈ ts, t.kind.isLineEnd = false → t.kind ≠ .endOfFile →
          Longest bytes t := by
  intro h
  obtain ⟨x, hx⟩ : ∃ x, Lexer.ofFeed "a.go" (.ofBytes [0x2E, 0x2E, 0x35]) = .ok x := ⟨_, rfl⟩
  have hts : ∃ a b c d e, x.tokens = .ok [a, b, c, d, e] ∧ b.kind = .delimiter .dot ∧
      b.span = ⟨1, 2⟩ ∧ b.text = ['.'] := by
    cases hx
    exact ⟨_, _, _, _, _, rfl, rfl, rfl, rfl⟩
  obtain ⟨a, b, c, d, e, hts, hk, hspan, htext⟩ := hts
  have hone : OneToken [0x2E, 0x35] := ⟨"a.go", _, _, _, rfl, rfl, rfl⟩
  have hlongest := h _ _ _ x _ (Feed.octets_ofBytes _) (by decide) hx hts b (by simp)
    (by rw [hk]; rfl) (by simp [hk])
  refine hlongest [0x2E, 0x35] ?_ ?_ hone
  · rw [hspan]
    exact List.prefix_refl _
  · rw [htext]
    decide

end GoSyntax
