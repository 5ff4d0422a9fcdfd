import GoSyntax.Proofs.Decoding
import GoSyntax.Proofs.Tiling
import GoSyntax.Proofs.Grammar.Arrivals

/-! Where tokens and errors stand. Each token stands behind the raw texts of those before it, so the
places of tokens rise, and an error stands behind all tokens that came before it. -/
namespace GoSyntax

namespace Position

variable {p q r : Position}

theorem le_iff : p ≤ q ↔ p.line < q.line ∨ p.line = q.line ∧ p.column ≤ q.column := Iff.rfl

theorem le_refl (p : Position) : p ≤ p := Or.inr ⟨rfl, Nat.le_refl _⟩

theorem le_trans (h : p ≤ q) (h' : q ≤ r) : p ≤ r := by
  rw [le_iff] at *
  omega

theorem le_of_not_le (h : ¬p ≤ q) : q ≤ p := by
  rw [le_iff] at *
  omega

theorem le_moved (h : p.column ≤ counterMax) (n : Nat) : p ≤ p.moved n := by
  refine Or.inr ⟨rfl, ?_⟩
  simp only [moved]
  omega

end Position

namespace Mark

/-- A text that does not open a source with a byte order mark moves on by its characters. -/
def Shows (m : Mark) (s : Text) : Prop := m.offset ≠ 0 ∨ s.head? ≠ some bom

variable {m : Mark} {s : Text}

theorem le_past (m : Mark) (c : Char) : m.pos ≤ (m.past c).pos := by
  unfold past Position.advance
  rw [Position.le_iff]
  split
  · simp
  · split <;> simp

theorem le_pastAll (m : Mark) (s : Text) : m.pos ≤ (m.pastAll s).pos := by
  induction s generalizing m with
  | nil => exact Position.le_refl _
  | cons c s ih => exact Position.le_trans (m.le_past c) (ih _)

/-- Columns are counted from one, and each of them takes a byte. -/
theorem column_pastAll (h : m.pos.column ≤ m.offset + 1) (s : Text) :
    (m.pastAll s).pos.column ≤ (m.pastAll s).offset + 1 := by
  induction s generalizing m with
  | nil => exact h
  | cons c s ih =>
    refine ih ?_
    have := c.utf8Size_pos
    unfold past Position.advance
    dsimp only
    split
    · omega
    · split
      · dsimp only
        omega
      · dsimp only
        omega

theorem pos_past {c : Char} (h : m.Shows (c :: s)) : (m.past c).pos = m.pos.advance c := by
  refine if_neg fun hbom => ?_
  rcases h with h | h
  · exact h hbom.2
  · exact h (by rw [hbom.1]; rfl)

/-- A text ends on a later line, or as many columns further as it has characters. -/
theorem pastAll_shows (h : m.Shows s) : m.pos.line < (m.pastAll s).pos.line ∨
    m.pos.line = (m.pastAll s).pos.line ∧ (m.pastAll s).pos.column = m.pos.column + s.length := by
  induction s generalizing m with
  | nil => exact Or.inr ⟨rfl, rfl⟩
  | cons c s ih =>
    have hshows : (m.past c).Shows s := Or.inl (by
      have := c.utf8Size_pos
      rw [past_offset]
      omega)
    have hrest := ih hshows
    rw [pos_past h] at hrest
    unfold Position.advance at hrest
    rw [pastAll_cons, List.length_cons]
    split at hrest
    · dsimp only at hrest
      omega
    · dsimp only at hrest
      omega

theorem not_pastAll_le (h : m.Shows s) (hs : s ≠ []) : ¬(m.pastAll s).pos ≤ m.pos := by
  have hlen := List.length_pos_iff.2 hs
  have hshows := pastAll_shows h
  rw [Position.le_iff]
  omega

theorem moved_le_pastAll (h : m.Shows s) : m.pos.moved s.length ≤ (m.pastAll s).pos := by
  have hshows := pastAll_shows h
  rw [Position.le_iff]
  simp only [Position.moved]
  omega

end Mark

namespace Token

/-- The token stands behind `m`: first what it skips, then its own text. -/
structure At (m : Mark) (t : Token) : Prop where
  pos : t.pos = (m.pastAll t.leading).pos
  column : t.pos.column ≤ counterMax
  shows : (m.pastAll t.leading).Shows t.text

/-- All of the first token stands before the second one. -/
def Before (t u : Token) : Prop := t.stop ≤ u.pos ∧ (t.text ≠ [] → ¬u.pos ≤ t.pos)

/-- The tokens stand one behind the other from `m` on. -/
def Placed : Mark → List Token → Prop
  | _, [] => True
  | m, t :: ts => t.At m ∧ Placed (m.pastAll t.raw) ts

variable {m : Mark} {t u : Token} {ts us : List Token}

theorem At.le_pos (h : t.At m) : m.pos ≤ t.pos := by
  rw [h.pos]
  exact m.le_pastAll _

theorem pastAll_raw (m : Mark) (t : Token) :
    m.pastAll t.raw = (m.pastAll t.leading).pastAll t.text := Mark.pastAll_append _ _ _

theorem At.pos_le (h : t.At m) : t.pos ≤ (m.pastAll t.raw).pos := by
  rw [h.pos, pastAll_raw]
  exact Mark.le_pastAll _ _

theorem At.before (h : t.At m) (hu : (m.pastAll t.raw).pos ≤ u.pos) : t.Before u := by
  rw [pastAll_raw] at hu
  refine ⟨?_, fun hne hle => ?_⟩
  · rw [stop, h.pos]
    exact Position.le_trans (Mark.moved_le_pastAll h.shows) hu
  · rw [h.pos] at hle
    exact Mark.not_pastAll_le h.shows hne (Position.le_trans hu hle)

theorem Placed.left (h : Placed m (ts ++ us)) : Placed m ts := by
  induction ts generalizing m with
  | nil => exact trivial
  | cons t ts ih => exact ⟨h.1, ih h.2⟩

theorem Placed.le_pos (h : Placed m ts) : ∀ t ∈ ts, m.pos ≤ t.pos := by
  induction ts generalizing m with
  | nil => simp
  | cons t ts ih =>
    obtain ⟨hat, hts⟩ := h
    refine List.forall_mem_cons.2 ⟨hat.le_pos, fun u hu => ?_⟩
    exact Position.le_trans (m.le_pastAll t.raw) (ih hts u hu)

theorem Placed.pairwise (h : Placed m ts) : ts.Pairwise Before := by
  induction ts generalizing m with
  | nil => exact .nil
  | cons t ts ih =>
    obtain ⟨hat, hts⟩ := h
    exact List.pairwise_cons.2 ⟨fun u hu => hat.before (hts.le_pos u hu), ih hts⟩

theorem Placed.column (h : Placed m ts) : ∀ t ∈ ts, t.pos.column ≤ counterMax := by
  induction ts generalizing m with
  | nil => simp
  | cons t ts ih => exact List.forall_mem_cons.2 ⟨h.1.column, ih h.2⟩

end Token

namespace Utf8

/-- The characters before the first fault are encoded at the front. -/
theorem encode_run (bytes : List UInt8) :
    Text.encode (Break.split (decode (bytes.map .ok))).1 <+: bytes := by
  obtain ⟨s, rest, rfl, -, hdecode, hend⟩ := exists_decoded bytes
  have hrun : (Break.split (decode (rest.map .ok))).1 = [] := by
    rcases hend with rfl | ⟨b, bs, gs, -, hfault⟩
    · rfl
    · rw [hfault]
      rfl
  rw [hdecode, Break.split_append, hrun, List.append_nil]
  exact List.prefix_append _ _

/-- A request that fails is a fault, as the end is within a sequence, so the characters before the
first fault are those of the bytes before the failure. -/
theorem run_front {bytes : List UInt8} {tail : List Octet}
    (ht : tail = [] ∨ ∃ reason rest, tail = .error reason :: rest) {open? : Option Sequence} :
    (Break.split (decodeFrom open? (bytes.map .ok ++ tail))).1 =
      (Break.split (decodeFrom open? (bytes.map .ok))).1 := by
  induction bytes generalizing open? with
  | nil =>
    rcases ht with rfl | ⟨reason, rest, rfl⟩
    · rfl
    · cases open? <;> rfl
  | cons b bytes ih =>
    rw [List.map_cons, List.cons_append]
    cases open? with
    | none =>
      cases hl : lead b with
      | glyph g =>
        rw [decodeFrom_glyph hl, decodeFrom_glyph hl]
        cases g with
        | error fault => rfl
        | ok c => exact congrArg (List.cons c) ih
      | sequence s =>
        rw [decodeFrom_sequence hl, decodeFrom_sequence hl]
        exact ih
    | some s =>
      by_cases hb : s.low ≤ b ∧ b ≤ s.high
      · cases hm : s.missing with
        | zero =>
          rw [decodeFrom_last hm hb, decodeFrom_last hm hb]
          exact congrArg (List.cons _) ih
        | succ n =>
          rw [decodeFrom_more hm hb, decodeFrom_more hm hb]
          exact ih
      · rw [decodeFrom_stray hb, decodeFrom_stray hb]
        rfl

end Utf8

/-- The bytes that are delivered before the first failure. -/
theorem Feed.exists_front (feed : Feed) : ∃ (bytes : List UInt8) (tail : List Octet),
    feed.octets = bytes.map .ok ++ tail ∧ bytes.length ≤ feed.byteCount ∧
      (tail = [] ∨ ∃ reason rest, tail = .error reason :: rest) := by
  induction feed with
  | nil => exact ⟨[], [], rfl, Nat.le_refl 0, .inl rfl⟩
  | cons d feed ih =>
    obtain ⟨bytes, tail, hoctets, hcount, htail⟩ := ih
    have hcons : octets (d :: feed) = d.octets ++ octets feed := List.flatMap_cons
    rw [hcons, hoctets]
    cases d with
    | data more =>
      refine ⟨more ++ bytes, tail, by simp [Delivery.octets], ?_, htail⟩
      rw [List.length_append, byteCount]
      omega
    | interruption => exact ⟨bytes, tail, rfl, hcount, htail⟩
    | failure reason => exact ⟨[], _, rfl, Nat.zero_le _, .inr ⟨reason, _, rfl⟩⟩

namespace Lexer

variable {x : Lexer} {m : Mark} {t : Token} {ts : List Token} {stop : Except Error Token}

/-- What is next stands at `m`: the cursor does, or a queued token and the cursor behind it. -/
structure Facing (m : Mark) (x : Lexer) : Prop where
  idle : x.queued = none → x.cursor.mark = m
  queued : ∀ q, x.queued = some q → q.pos = m.pos ∧ m.Shows q.text ∧
    x.cursor.mark = m.pastAll q.text

/-- The lexer stands between two tokens at `m`. -/
structure Stands (m : Mark) (x : Lexer) : Prop extends Facing m x where
  tidy : Tidy m.offset x
  column : m.pos.column ≤ m.offset + 1

/-- The token stands behind `m`, and the lexer behind the token. -/
structure Moves (m : Mark) (t : Token) (y : Lexer) : Prop where
  pos : t.pos = (m.pastAll t.leading).pos
  shows : (m.pastAll t.leading).Shows t.text
  facing : Facing (m.pastAll t.raw) y

theorem Facing.start_mark (h : Facing m x) (hq : x.queued = none) :
    x.start.mark = m.pastAll x.blanks := by
  rw [← h.idle hq]
  rfl

theorem Facing.stop_mark (h : Facing m x) (hq : x.queued = none) :
    x.stop.mark = m.pastAll (x.blanks ++ x.lexeme) := by
  rw [Mark.pastAll_append, ← h.start_mark hq]
  rfl

/-- A byte order mark that opens a source is skipped and never part of a lexeme. -/
theorem shows_start (x : Lexer) : x.start.mark.Shows x.start.ahead := by
  by_cases ho : x.start.offset = 0
  · refine Or.inr fun hbom => ?_
    have hoffset := start_offset x
    obtain ⟨cs, hcs⟩ := List.head?_eq_some_iff.1 hbom
    cases hb : x.blanks with
    | cons c bs =>
      have := c.utf8Size_pos
      rw [hb, Text.byteLength_cons] at hoffset
      omega
    | nil =>
      have happend := x.blanks_append
      rw [hb, List.nil_append, hcs] at happend
      have hcount : blankCount x.cursor ≠ 0 := by
        have hzero : x.cursor.offset = 0 := by omega
        simp [blankCount, ← happend, hzero]
      have hlen : x.blanks.length = blankCount x.cursor := by
        rw [blanks, List.length_take]
        exact Nat.min_eq_left (blankCount_le x.cursor)
      rw [hb, List.length_nil] at hlen
      exact hcount hlen.symm
  · exact Or.inl ho

theorem shows_lexeme (x : Lexer) : x.start.mark.Shows x.lexeme := by
  rcases shows_start x with h | h
  · exact Or.inl h
  · refine Or.inr fun hbom => h ?_
    rw [← lexeme_append, List.head?_append, hbom]
    rfl

theorem moves_queued (h : Facing m x) (ht : Tidy m.offset x) (hq : x.queued = some t) :
    Moves m t (emit { x with queued := none } t).after := by
  obtain ⟨hleading, -⟩ := ht.queued t hq
  obtain ⟨hpos, hshows, hmark⟩ := h.queued t hq
  refine ⟨by rw [hleading, hpos]; rfl, by rw [hleading]; exact hshows, fun _ => ?_, by simp⟩
  rw [Token.raw, hleading, List.nil_append]
  exact hmark

theorem moves_token (kind : Kind) (v : Option Value) (h : Facing m x) (htext : x.text = [])
    (hq : x.queued = none) :
    let s := x.filled.produce (x.text ++ x.blanks) x.lexeme x.start.mark (.token kind v)
    ∃ t, s.outcome = .ok t ∧ Moves m t s.after := by
  intro s
  have hstart := h.start_mark hq
  have hshows := shows_lexeme x
  rw [hstart] at hshows
  refine ⟨_, rfl, ?_, ?_, fun _ => ?_, fun q hq' => ?_⟩
  · rw [htext, List.nil_append, hstart]
  · rw [htext, List.nil_append]
    exact hshows
  · rw [produce_cursor, h.stop_mark hq, Token.raw, htext, List.nil_append]
  · have hq' : queuedBehind x.elides kind x.lexeme x.stop.mark = some q := hq'
    unfold queuedBehind at hq'
    split at hq'
    · cases hq'
      rw [produce_cursor, h.stop_mark hq, Token.raw, htext, List.nil_append]
      exact ⟨rfl, Or.inr (by simp [Token.emptyAt]), rfl⟩
    · cases hq'

/-- The second of two dots stands one column behind the first. -/
theorem moves_twoDots (h : Facing m x) (htext : x.text = []) (hq : x.queued = none)
    (hr : x.reading.result = .ok .twoDots) (hcolumn : x.start.mark.pos.column + 1 ≤ counterMax) :
    let s := x.filled.produce (x.text ++ x.blanks) x.lexeme x.start.mark .twoDots
    ∃ t, s.outcome = .ok t ∧ Moves m t s.after := by
  intro s
  have hstart := h.start_mark hq
  have hdots := lexeme_of_twoDots hr
  have hstop := h.stop_mark hq
  rw [hdots] at hstop
  have hraw : m.pastAll (x.blanks ++ ['.']) = x.start.mark.past '.' := by
    rw [Mark.pastAll_append, ← hstart]
    rfl
  have hdot : ∀ m : Mark, m.Shows ['.'] := fun m => Or.inr (by decide)
  refine ⟨_, rfl, ?_, ?_, by simp [s, produce], ?_⟩
  · rw [htext, List.nil_append, hstart]
  · rw [hdots]
    exact hdot _
  · rintro q ⟨⟩
    have hlen : (x.lexeme.take 1) = ['.'] := by rw [hdots]; rfl
    rw [Token.raw, htext, List.nil_append, hlen, hraw]
    refine ⟨?_, ?_, ?_⟩
    · have hmove : min (x.start.mark.pos.column + min 1 counterMax) counterMax =
          x.start.mark.pos.column + 1 := by
        have : 1 ≤ counterMax := by decide
        omega
      rw [Mark.pos_past (hdot _), Position.advance_of_ne _ (by decide), Position.moved, hmove]
    · rw [hdots]
      exact hdot _
    · rw [produce_cursor, hstop, hdots, ← hraw, ← Mark.pastAll_append, List.append_assoc]
      rfl

/-- Each token stands where the lexer stood, in a source of fewer bytes than columns can count. -/
theorem Stands.next (h : Stands m x) (hlen : m.offset + x.rest.byteLength < counterMax)
    (ht : x.next.outcome = .ok t) :
    t.At m ∧ Stands (m.pastAll t.raw) x.next.after := by
  have hlays := lays_next h.tidy ht
  have htotal : x.rest.byteLength =
      Text.byteLength t.leading + t.text.byteLength + x.next.after.rest.byteLength := by
    rw [hlays.rest, Text.byteLength_append, Token.raw, Text.byteLength_append]
  have hmoves : Moves m t x.next.after := by
    have hm := next_move x
    generalize x.next = s at hm ht htotal ⊢
    cases hm with
    | queued hq =>
      cases ht
      exact moves_queued h.toFacing h.tidy hq
    | blankFault => cases ht
    | lexemeFault => cases ht
    | flaw => cases ht
    | @lexeme meaning hq hc hr =>
      have hcolumn := Mark.column_pastAll h.column x.blanks
      rw [← h.start_mark hq] at hcolumn
      cases meaning with
      | token kind v =>
        obtain ⟨u, hu, hmoves⟩ := moves_token kind v h.toFacing h.tidy.text hq
        obtain rfl : u = t := Except.ok.inj (hu.symm.trans ht)
        exact hmoves
      | twoDots =>
        -- the second dot is placed by its column alone, so here the column must not be held
        have hoffset := h.tidy.start_offset hq
        have hrest := congrArg Text.byteLength (rest_eq hq)
        rw [Text.byteLength_append, Text.byteLength_append, lexeme_of_twoDots hr] at hrest
        have htwo : Text.byteLength ['.', '.'] = 2 := rfl
        obtain ⟨u, hu, hmoves⟩ := moves_twoDots h.toFacing h.tidy.text hq hr (by omega)
        obtain rfl : u = t := Except.ok.inj (hu.symm.trans ht)
        exact hmoves
  have htidy := hlays.tidy
  rw [← Mark.pastAll_offset] at htidy
  refine ⟨⟨hmoves.pos, ?_, hmoves.shows⟩, hmoves.facing, htidy, Mark.column_pastAll h.column _⟩
  have hcolumn := Mark.column_pastAll h.column t.leading
  rw [Mark.pastAll_offset] at hcolumn
  rw [hmoves.pos]
  omega

/-- An error stands behind some of what the lexer has ahead of it. -/
theorem Stands.error {e : Error} (h : Stands m x) (he : x.next.outcome = .error e) :
    ∃ s, s <+: x.rest ∧ e.pos = (m.pastAll s).pos := by
  have hm := next_move x
  generalize x.next = s at hm he
  have htake : ∀ {y : Cursor} {n : Nat} {fault : Fault}, (y.take n).fault = some fault →
      (y.take n).after.mark = y.mark.pastAll y.ahead := by
    intro y n fault hf
    unfold Cursor.take at hf ⊢
    cases hb : y.breaks with
    | nil => simp [hb] at hf
    | cons b bs =>
      simp only [hb] at hf ⊢
      by_cases hn : y.ahead.length ≤ n
      · simp [hn]
      · simp [hn] at hf
  cases hm with
  | queued => cases he
  | blankFault hq hf =>
    cases he
    refine ⟨x.cursor.ahead, by simp [rest_of_queued_none hq], ?_⟩
    rw [Cursor.pos, gather_cursor, htake hf, h.idle hq]
  | lexemeFault hq hf =>
    cases he
    refine ⟨x.blanks ++ x.start.ahead, by simp [rest_of_queued_none hq, blanks_append], ?_⟩
    rw [Cursor.pos, gather_cursor, htake hf, h.start_mark hq, Mark.pastAll_append]
  | @flaw flaw hq hc hr =>
    cases he
    cases hplace : flaw.place with
    | start =>
      refine ⟨x.blanks, by simp [rest_eq hq], ?_⟩
      rw [← h.start_mark hq]
      rfl
    | here =>
      refine ⟨x.blanks ++ x.lexeme, by simp [rest_eq hq], ?_⟩
      rw [← h.stop_mark hq]
      rfl
  | @lexeme meaning => cases meaning <;> cases he

/-- Up to the end of a source or its first error, every token stands behind those before it, and so
does the end or the error. -/
theorem Leads.placed (hl : Leads x ts stop) (h : Stands m x)
    (hlen : m.offset + x.rest.byteLength < counterMax) :
    Token.Placed m (ts ++ stop.toOption.toList) ∧
      ∀ e, stop = .error e → m.pos ≤ e.pos ∧ ∀ t ∈ ts, t.pos ≤ e.pos := by
  induction hl generalizing m with
  | @last x stop ho hstop =>
    cases stop with
    | ok t => exact ⟨⟨(h.next hlen ho).1, trivial⟩, by simp⟩
    | error e =>
      obtain ⟨s, -, hs⟩ := h.error ho
      refine ⟨trivial, ?_⟩
      rintro _ ⟨⟩
      rw [hs]
      exact ⟨m.le_pastAll s, by simp⟩
  | @more x t ts stop ho hk _ ih =>
    obtain ⟨hat, hnext⟩ := h.next hlen ho
    have hrest := congrArg Text.byteLength (lays_next h.tidy ho).rest
    rw [Text.byteLength_append] at hrest
    obtain ⟨hplaced, herror⟩ := ih hnext (by rw [Mark.pastAll_offset]; omega)
    refine ⟨⟨hat, hplaced⟩, fun e he => ?_⟩
    obtain ⟨hle, hall⟩ := herror e he
    refine ⟨Position.le_trans (m.le_pastAll _) hle, List.forall_mem_cons.2 ⟨?_, hall⟩⟩
    exact Position.le_trans hat.pos_le hle

theorem Fresh.stands (h : x.Fresh) {file : String} (hm : x.cursor.mark = .origin file) :
    Stands (.origin file) x where
  idle _ := hm
  queued := by simp [h.queued]
  tidy := h.tidy (by rw [Cursor.offset, hm]; rfl)
  column := Nat.le_refl _

/-- What a lexer has ahead of it at first are the characters before the first fault. -/
theorem rest_of_ofFeed {file : String} {feed : Feed} (hx : ofFeed file feed = .ok x) :
    x.rest = (Break.split (Utf8.decode feed.octets)).1 := by
  obtain ⟨hfresh, -, hsplit⟩ := fresh_of_ofFeed hx
  rw [rest_of_queued_none hfresh.queued]
  exact congrArg Prod.fst hsplit

/-- They are encoded at the front of the source. -/
theorem encode_rest {file : String} {feed : Feed} {bytes : List UInt8}
    (hf : feed.octets = bytes.map .ok) (hx : ofFeed file feed = .ok x) :
    x.rest.encode <+: bytes := by
  rw [rest_of_ofFeed hx, hf]
  exact Utf8.encode_run bytes

theorem byteLength_rest {file : String} {feed : Feed} {bytes : List UInt8}
    (hf : feed.octets = bytes.map .ok) (hx : ofFeed file feed = .ok x) :
    x.rest.byteLength ≤ bytes.length := by
  rw [← Text.length_encode]
  exact (encode_rest hf hx).length_le

/-- The places of a source that is shorter than columns can count. -/
theorem placed_of_ofFeed {file : String} {feed : Feed} {bytes : List UInt8}
    (hf : feed.octets = bytes.map .ok) (hlen : bytes.length < counterMax)
    (hx : ofFeed file feed = .ok x) (hl : Leads x ts stop) :
    Token.Placed (.origin file) (ts ++ stop.toOption.toList) ∧
      ∀ e, stop = .error e → ∀ t ∈ ts, t.pos ≤ e.pos := by
  obtain ⟨hfresh, hmark, -⟩ := fresh_of_ofFeed hx
  have hrest := byteLength_rest hf hx
  obtain ⟨hplaced, herror⟩ := hl.placed (hfresh.stands hmark) (by
    rw [show (Mark.origin file).offset = 0 from rfl]
    omega)
  exact ⟨hplaced, fun e he => (herror e he).2⟩

/-- What comes first are no more bytes than are delivered, whether or not a request fails later. -/
theorem byteLength_rest_le {file : String} {feed : Feed} (hx : ofFeed file feed = .ok x) :
    x.rest.byteLength ≤ feed.byteCount := by
  obtain ⟨bytes, tail, hoctets, hcount, htail⟩ := feed.exists_front
  rw [rest_of_ofFeed hx, hoctets, Utf8.decode, Utf8.run_front htail, ← Text.length_encode]
  exact Nat.le_trans (Utf8.encode_run bytes).length_le hcount

/-- The places of tokens where fewer bytes are delivered than columns can count. -/
theorem placed_of_byteCount {file : String} {feed : Feed} (hlen : feed.byteCount < counterMax)
    (hx : ofFeed file feed = .ok x) (hl : Leads x ts stop) : Token.Placed (.origin file) ts := by
  obtain ⟨hfresh, hmark, -⟩ := fresh_of_ofFeed hx
  have hrest := byteLength_rest_le hx
  refine (hl.placed (hfresh.stands hmark) ?_).1.left
  rw [show (Mark.origin file).offset = 0 from rfl]
  omega

end Lexer
end GoSyntax
