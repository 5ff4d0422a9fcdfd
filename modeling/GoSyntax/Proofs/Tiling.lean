import GoSyntax.Proofs.Utf8
import GoSyntax.Proofs.Lexer.Run

/-! The tokens of a source lie side by side: each begins where the one before it ends, and together
they cover every byte. -/
namespace GoSyntax

/-- The bytes from offset `i` up to offset `j`. -/
def slice (bytes : List UInt8) (i j : Nat) : List UInt8 := (bytes.take j).drop i

/-- A space, a tab or a carriage return. -/
def IsBlankByte (b : UInt8) : Prop := b = 0x20 ∨ b = 0x09 ∨ b = 0x0D

/-- What may be skipped from offset `i` on: blanks, behind a byte order mark if a source opens
there. -/
def Skipped (i : Nat) (bytes : List UInt8) : Prop :=
  (∀ b ∈ bytes, IsBlankByte b) ∨
    i = 0 ∧ ∃ blanks, bytes = 0xEF :: 0xBB :: 0xBF :: blanks ∧ ∀ b ∈ blanks, IsBlankByte b

/-- The token is cut out of the source behind offset `i`: first what it skips, then its own text. -/
structure Cut (bytes : List UInt8) (i : Nat) (t : Token) : Prop where
  behind : i ≤ t.span.start
  ordered : t.span.start ≤ t.span.stop
  within : t.span.stop ≤ bytes.length
  raw : t.raw.encode = slice bytes i t.span.stop
  text : t.text.encode = slice bytes t.span.start t.span.stop
  skipped : Skipped i (slice bytes i t.span.start)

/-- The tokens cover the bytes from offset `i` on, one behind the other. -/
def Tiles (bytes : List UInt8) : Nat → List Token → Prop
  | i, [] => i = bytes.length
  | i, t :: ts => Cut bytes i t ∧ Tiles bytes t.span.stop ts

theorem slice_append (a b c : List UInt8) :
    slice (a ++ b ++ c) a.length (a.length + b.length) = b := by
  rw [slice, ← List.length_append, List.take_left' rfl, List.drop_left]

theorem Tiles.flatMap_raw {bytes : List UInt8} {i : Nat} {ts : List Token}
    (h : Tiles bytes i ts) : ts.flatMap (fun t => t.raw.encode) = bytes.drop i := by
  induction ts generalizing i with
  | nil =>
    obtain rfl : i = bytes.length := h
    simp
  | cons t ts ih =>
    obtain ⟨hc, hr⟩ := h
    rw [List.flatMap_cons, ih hr, hc.raw, slice]
    have hle := Nat.le_trans hc.behind hc.ordered
    have := hc.within
    have hsplit : bytes.drop i = (bytes.take t.span.stop ++ bytes.drop t.span.stop).drop i := by
      rw [List.take_append_drop]
    rw [hsplit, List.drop_append_of_le_length (by rw [List.length_take]; omega)]

namespace Lexer

/-- What may be skipped from offset `i` on, as characters. -/
def Blanks (i : Nat) (s : Text) : Prop :=
  (∀ c ∈ s, isBlank c) ∨ i = 0 ∧ ∃ blanks, s = Mark.bom :: blanks ∧ ∀ c ∈ blanks, isBlank c

theorem encode_blanks {s : Text} (h : ∀ c ∈ s, isBlank c) : ∀ b ∈ s.encode, IsBlankByte b := by
  intro b hb
  obtain ⟨c, hc, hb⟩ := List.mem_flatMap.1 hb
  have hblank := h c hc
  simp only [isBlank, Bool.or_eq_true, beq_iff_eq] at hblank
  rcases hblank with (rfl | rfl) | rfl
  · exact Or.inl (by simpa [String.utf8EncodeChar] using hb)
  · exact Or.inr (Or.inl (by simpa [String.utf8EncodeChar] using hb))
  · exact Or.inr (Or.inr (by simpa [String.utf8EncodeChar] using hb))

theorem Blanks.skipped {i : Nat} {s : Text} (h : Blanks i s) : Skipped i s.encode := by
  rcases h with h | ⟨rfl, blanks, rfl, h⟩
  · exact Or.inl (encode_blanks h)
  · refine Or.inr ⟨rfl, Text.encode blanks, ?_, encode_blanks h⟩
    rw [Text.encode_cons]
    rfl

theorem Blanks.append {i : Nat} {s l : Text} (h : Blanks i s) (hl : ∀ c ∈ l, isBlank c) :
    Blanks i (s ++ l) := by
  have hall : ∀ s : Text, (∀ c ∈ s, isBlank c) → ∀ c ∈ s ++ l, isBlank c := fun s hs c hc =>
    (List.mem_append.1 hc).elim (hs c) (hl c)
  rcases h with h | ⟨hi, blanks, rfl, h⟩
  · exact Or.inl (hall s h)
  · exact Or.inr ⟨hi, blanks ++ l, rfl, hall blanks h⟩

theorem mem_takeWhile_isBlank (s : Text) : ∀ c ∈ s.takeWhile isBlank, isBlank c :=
  List.all_eq_true.1 List.all_takeWhile

theorem take_blankCount (x : Cursor) : Blanks x.offset (x.ahead.take (blankCount x)) := by
  unfold blankCount
  split
  · rename_i c cs hx
    have htake : ∀ s : Text, s.take (s.takeWhile isBlank).length = s.takeWhile isBlank :=
      fun s => List.prefix_iff_eq_take.1 (List.takeWhile_prefix isBlank) |>.symm
    split
    · rename_i hb
      refine Or.inr ⟨hb.2, cs.takeWhile isBlank, ?_, mem_takeWhile_isBlank cs⟩
      rw [hx, Nat.add_comm, List.take_succ_cons, htake, hb.1]
    · rw [hx, htake]
      exact Or.inl (mem_takeWhile_isBlank _)
  · simp [Blanks]

variable {x : Lexer} {i : Nat} {t : Token} {ts : List Token}

/-- The characters that are in no token yet. -/
def rest (x : Lexer) : Text := (x.queued.map Token.text).getD [] ++ x.cursor.ahead

/-- Between tokens no text is held back, and a queued token lies between the last one, which ends at
offset `i`, and the cursor. -/
structure Tidy (i : Nat) (x : Lexer) : Prop where
  text : x.text = []
  idle : x.queued = none → x.cursor.offset = i
  queued : ∀ q, x.queued = some q → q.leading = [] ∧ q.kind ≠ .endOfFile ∧
    q.span = .ofBounds i x.cursor.offset ∧ x.cursor.offset = i + q.text.byteLength

/-- The token `t` is the next piece of the source, and leads from `x` to `y`. -/
structure Lays (i : Nat) (x : Lexer) (t : Token) (y : Lexer) : Prop where
  tidy : Tidy (i + t.raw.byteLength) y
  rest : x.rest = t.raw ++ y.rest
  span : t.span = .ofBounds (i + Text.byteLength t.leading) (i + t.raw.byteLength)
  blanks : Blanks i t.leading
  breaks : y.cursor.breaks = x.cursor.breaks
  last : t.kind = .endOfFile → y.rest = [] ∧ x.cursor.breaks = []

theorem rest_of_queued_none (h : x.queued = none) : x.rest = x.cursor.ahead := by
  simp [Lexer.rest, h]

theorem rest_eq (h : x.queued = none) : x.rest = x.blanks ++ x.lexeme ++ x.stop.ahead := by
  rw [rest_of_queued_none h, List.append_assoc, lexeme_append, blanks_append]

theorem Tidy.blanks (h : Tidy i x) (hq : x.queued = none) : Blanks i x.blanks := by
  have hb := take_blankCount x.cursor
  rwa [h.idle hq] at hb

theorem Tidy.start_offset (h : Tidy i x) (hq : x.queued = none) :
    x.start.mark.offset = i + x.blanks.byteLength := by
  have ho := Lexer.start_offset x
  rwa [h.idle hq] at ho

theorem lays_queued (h : Tidy i x) (hq : x.queued = some t) :
    Lays i x t (emit { x with queued := none } t).after := by
  obtain ⟨hl, hk, hs, ho⟩ := h.queued t hq
  have hraw : t.raw = t.text := by simp [Token.raw, hl]
  refine ⟨⟨h.text, fun _ => ?_, by simp⟩, ?_, ?_, ?_, rfl, fun h => absurd h hk⟩
  · rw [hraw]
    exact ho
  · rw [hraw]
    simp [Lexer.rest, hq]
  · rw [hs, ho, hl, hraw]
    rfl
  · simp [hl, Blanks]

/-- The two tokens of two dots take one byte each. -/
theorem lays_twoDots (h : Tidy i x) (hq : x.queued = none) (hr : x.reading.result = .ok .twoDots) :
    ∃ t, (x.filled.produce (x.text ++ x.blanks) x.lexeme x.start.mark .twoDots).outcome = .ok t ∧
      Lays i x t (x.filled.produce (x.text ++ x.blanks) x.lexeme x.start.mark .twoDots).after := by
  have hdots := lexeme_of_twoDots hr
  have ho := h.start_offset hq
  have hstop := stop_offset x
  have hrest := rest_eq hq
  have hone : Text.byteLength ['.'] = 1 := rfl
  rw [hdots] at hstop hrest
  have hraw : Text.byteLength (x.blanks ++ ['.']) = x.blanks.byteLength + 1 := by
    rw [Text.byteLength_append, hone]
  have hoff : x.stop.offset = x.start.mark.offset + 2 := hstop
  refine ⟨_, rfl, ⟨rfl, by simp [produce], ?_⟩, ?_, ?_, ?_, rfl, by simp⟩
  · rintro q hq'
    obtain rfl := Option.some.inj hq'
    refine ⟨rfl, by simp, ?_, ?_⟩
    · simp only [Token.raw, hdots, h.text, List.nil_append, List.take_succ_cons, List.take_zero, hraw]
      rw [ho, produce_cursor, hoff, ho, Nat.add_assoc]
    · simp only [Token.raw, hdots, h.text, List.nil_append, List.take_succ_cons, List.take_zero, hraw,
        List.drop_succ_cons, List.drop_zero, hone]
      rw [produce_cursor, hoff, ho]
      omega
  · rw [hrest]
    simp [produce, Token.raw, hdots, h.text, Lexer.rest]
  · simp only [Token.raw, hdots, h.text, List.nil_append, List.take_succ_cons, List.take_zero, hraw]
    rw [ho, Nat.add_assoc]
  · simpa [h.text] using h.blanks hq

/-- A token of a lexeme ends where the lexeme does, and so does what it queues. -/
theorem lays_token {kind : Kind} {v : Option Value} (h : Tidy i x) (hq : x.queued = none)
    (hc : x.Clear) (hr : x.reading.result = .ok (.token kind v)) :
    ∃ t, (x.filled.produce (x.text ++ x.blanks) x.lexeme x.start.mark (.token kind v)).outcome =
        .ok t ∧
      Lays i x t
        (x.filled.produce (x.text ++ x.blanks) x.lexeme x.start.mark (.token kind v)).after := by
  have ho := h.start_offset hq
  have hstop : x.stop.offset = i + (x.blanks ++ x.lexeme).byteLength := by
    rw [stop_offset, Text.byteLength_append]
    have : x.start.offset = i + x.blanks.byteLength := ho
    omega
  have hrest := rest_eq hq
  refine ⟨_, rfl, ⟨rfl, ?_, ?_⟩, ?_, ?_, ?_, rfl, ?_⟩
  · intro _
    simpa [Token.raw, h.text, produce] using hstop
  · intro q hq'
    simp only [produce, emit_queued, queuedBehind, filled_cursor, filled_elides] at hq'
    split at hq'
    · obtain rfl := Option.some.inj hq'
      refine ⟨rfl, ?_, ?_, ?_⟩
      · cases x.elides <;> simp [Token.emptyAt, Lexeme.lineEnd]
      · simp only [Token.raw, h.text, List.nil_append, ← hstop]
        rfl
      · simpa [Token.raw, h.text, produce, Token.emptyAt] using hstop
    · cases hq'
  · rw [hrest]
    simp only [Token.raw, h.text, List.nil_append, Lexer.rest, produce, emit_queued, emit_cursor,
      queuedBehind, filled_cursor]
    split <;> simp [Token.emptyAt]
  · simp only [Token.raw, h.text, List.nil_append, ← hstop, ho, filled_cursor]
  · simpa [h.text] using h.blanks hq
  · rintro rfl
    have ha := ahead_of_end hr
    refine ⟨?_, hc.breaks_nil ha⟩
    simp [Lexer.rest, produce, queuedBehind, stop, ha]

/-- Each token that is handed out is the next piece of the source. -/
theorem lays_next (h : Tidy i x) (ht : x.next.outcome = .ok t) : Lays i x t x.next.after := by
  have hm := next_move x
  generalize x.next = s at hm ht ⊢
  cases hm with
  | queued hq =>
    cases ht
    exact lays_queued h hq
  | blankFault => cases ht
  | lexemeFault => cases ht
  | flaw => cases ht
  | @lexeme meaning hq hc hr =>
    cases meaning with
    | token kind v =>
      obtain ⟨u, hu, hl⟩ := lays_token h hq hc hr
      obtain rfl : u = t := Except.ok.inj (hu.symm.trans ht)
      exact hl
    | twoDots =>
      obtain ⟨u, hu, hl⟩ := lays_twoDots h hq hr
      obtain rfl : u = t := Except.ok.inj (hu.symm.trans ht)
      exact hl

theorem Lays.span_eq {y : Lexer} (h : Lays i x t y) (hlen : i + x.rest.byteLength < counterMax) :
    t.span = ⟨i + Text.byteLength t.leading, i + t.raw.byteLength⟩ := by
  have hrest := congrArg Text.byteLength h.rest
  have hraw : t.raw.byteLength = Text.byteLength t.leading + t.text.byteLength :=
    Text.byteLength_append _ _
  rw [Text.byteLength_append] at hrest
  rw [h.span, Span.ofBounds, Nat.min_eq_left (by omega), Nat.min_eq_left (by omega)]

/-- In a source of fewer bytes than offsets can count, the next piece is cut out where its span
says. -/
theorem Lays.cut {y : Lexer} {before s : Text} (h : Lays i x t y) (hs : before ++ x.rest = s)
    (hb : before.byteLength = i) (hlen : s.byteLength < counterMax) :
    Cut s.encode i t ∧ t.span.stop = (before ++ t.raw).byteLength ∧
      before ++ t.raw ++ y.rest = s := by
  subst hb
  have hs' : before ++ t.raw ++ y.rest = s := by
    rw [← hs, h.rest, List.append_assoc]
  have hraw : t.raw.byteLength = Text.byteLength t.leading + t.text.byteLength :=
    Text.byteLength_append _ _
  have htotal : before.byteLength + t.raw.byteLength + y.rest.byteLength = s.byteLength := by
    rw [← hs', Text.byteLength_append, Text.byteLength_append]
  have hstart : t.span.start = before.byteLength + Text.byteLength t.leading := by
    rw [h.span]
    exact Nat.min_eq_left (by omega)
  have hstop : t.span.stop = before.byteLength + t.raw.byteLength := by
    rw [h.span]
    exact Nat.min_eq_left (by omega)
  have hskip : slice s.encode before.byteLength t.span.start = Text.encode t.leading := by
    have he : s.encode = before.encode ++ Text.encode t.leading ++ (t.text ++ y.rest).encode := by
      rw [← hs', ← Text.encode_append, ← Text.encode_append]
      simp [Token.raw]
    rw [he, hstart, ← Text.length_encode before, ← Text.length_encode t.leading]
    exact slice_append _ _ _
  refine ⟨⟨by omega, by omega, ?_, ?_, ?_, ?_⟩, ?_, hs'⟩
  · rw [Text.length_encode]
    omega
  · have he : s.encode = before.encode ++ t.raw.encode ++ y.rest.encode := by
      rw [← hs', Text.encode_append, Text.encode_append]
    rw [he, hstop, ← Text.length_encode before, ← Text.length_encode t.raw]
    exact (slice_append _ _ _).symm
  · have he : s.encode = (before ++ t.leading).encode ++ t.text.encode ++ y.rest.encode := by
      rw [← hs', ← Text.encode_append, ← Text.encode_append]
      simp [Token.raw]
    have hfrom : t.span.start = (before ++ t.leading).encode.length := by
      rw [Text.length_encode, Text.byteLength_append, hstart]
    have hto : t.span.stop = (before ++ t.leading).encode.length + t.text.encode.length := by
      rw [Text.length_encode, Text.length_encode, Text.byteLength_append]
      omega
    rw [he, hfrom, hto]
    exact (slice_append _ _ _).symm
  · rw [hskip]
    exact h.blanks.skipped
  · rw [Text.byteLength_append, hstop]

/-- The end of the source is not reached past a fault. -/
theorem Yields.breaks_nil (hy : Yields x ts) (h : Tidy i x) : x.cursor.breaks = [] := by
  induction hy generalizing i with
  | last ht hk => exact ((lays_next h ht).last hk).2
  | more ht _ _ ih =>
    have hl := lays_next h ht
    rw [← hl.breaks]
    exact ih hl.tidy

/-- From any place between two tokens the rest of a run tiles the rest of the source. -/
theorem Yields.tiles (hy : Yields x ts) (before : Text) {s : Text} (h : Tidy i x)
    (hs : before ++ x.rest = s) (hb : before.byteLength = i) (hlen : s.byteLength < counterMax) :
    Tiles s.encode i ts := by
  induction hy generalizing i before with
  | @last x t ht hk =>
    have hl := lays_next h ht
    obtain ⟨hcut, hstop, hs'⟩ := hl.cut hs hb hlen
    refine ⟨hcut, ?_⟩
    rw [(hl.last hk).1, List.append_nil] at hs'
    rw [Tiles, hstop, hs', Text.length_encode]
  | @more x t ts ht hk _ ih =>
    have hl := lays_next h ht
    obtain ⟨hcut, hstop, hs'⟩ := hl.cut hs hb hlen
    have hnext : i + t.raw.byteLength = (before ++ t.raw).byteLength := by
      rw [Text.byteLength_append, hb]
    have htiles := ih (before ++ t.raw) hl.tidy hs' hnext.symm
    rw [hnext, ← hstop] at htiles
    exact ⟨hcut, htiles⟩

theorem Fresh.tidy (h : x.Fresh) (hm : x.cursor.offset = 0) : Tidy 0 x :=
  ⟨h.text, fun _ => hm, by simp [h.queued]⟩

end Lexer

theorem Break.split_nil {glyphs : List Utf8.Glyph} (h : (Break.split glyphs).2 = []) :
    glyphs = (Break.split glyphs).1.map .ok := by
  induction glyphs with
  | nil => rfl
  | cons g glyphs ih =>
    cases g with
    | ok c =>
      simp only [Break.split, List.map_cons] at h ⊢
      rw [← ih h]
    | error fault => simp [Break.split] at h

/-- The token stream tiles the source: raw texts are the pieces between the ends of successive spans,
own texts are what the spans say, and only blanks and an opening byte order mark are skipped. -/
theorem tokens_tile {file : String} {feed : Feed} {bytes : List UInt8} {x : Lexer}
    {ts : List Token} (hf : feed.octets = bytes.map .ok) (hlen : bytes.length < counterMax)
    (hx : Lexer.ofFeed file feed = .ok x) (ht : x.tokens = .ok ts) :
    Tiles bytes 0 ts ∧ ts.flatMap (fun t => t.raw.encode) = bytes ∧
      ∃ t, ts.getLast? = some t ∧ t.kind = .endOfFile := by
  obtain ⟨hfresh, hmark, hsplit⟩ := Lexer.fresh_of_ofFeed hx
  have hy := hfresh.yields ht
  have hrest := Lexer.rest_of_queued_none hfresh.queued
  have hoff : x.cursor.offset = 0 := by rw [Cursor.offset, hmark]; rfl
  have htidy := hfresh.tidy hoff
  have hdecode : Utf8.decode (bytes.map .ok) = x.cursor.ahead.map .ok := by
    rw [hf] at hsplit
    have hbreaks := hy.breaks_nil htidy
    have hnil := Break.split_nil ((congrArg Prod.snd hsplit).symm.trans hbreaks)
    rw [← hsplit] at hnil
    exact hnil
  have hencode := Utf8.encode_of_decode hdecode
  have hb : x.cursor.ahead.byteLength < counterMax := by
    rwa [← Text.length_encode, hencode]
  have htiles := hy.tiles [] htidy hrest rfl hb
  rw [hencode] at htiles
  exact ⟨htiles, htiles.flatMap_raw, hy.exists_last⟩

/-- A byte order mark, a comment over two lines and two dots: six tokens, two of them split off. -/
theorem tokens_tile_comment_dots :
    ∃ ts : List Token, ts.length = 6 ∧
      Tiles [0xEF, 0xBB, 0xBF, 0x61, 0x2F, 0x2A, 0x0A, 0x2A, 0x2F, 0x20, 0x2E, 0x2E] 0 ts := by
  obtain ⟨x, hx⟩ : ∃ x, Lexer.ofFeed "a.go" (.ofBytes
      [0xEF, 0xBB, 0xBF, 0x61, 0x2F, 0x2A, 0x0A, 0x2A, 0x2F, 0x20, 0x2E, 0x2E]) = .ok x := ⟨_, rfl⟩
  have hts : ∃ ts, x.tokens = .ok ts ∧ ts.length = 6 := by
    cases hx
    exact ⟨_, rfl, rfl⟩
  obtain ⟨ts, hts, hn⟩ := hts
  exact ⟨ts, hn, (tokens_tile (Feed.octets_ofBytes _) (by decide) hx hts).1⟩

end GoSyntax
