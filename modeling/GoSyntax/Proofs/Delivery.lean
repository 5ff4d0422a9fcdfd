import GoSyntax.Proofs.Utf8
import GoSyntax.Proofs.Grammar.Limit

/-! How bytes arrive. A reader asks its source for one byte after the other: it repeats a request
that was interrupted, goes on to the next piece when one is used up, and may be in the middle of a
character all the while. It meets what a cursor meets that has all octets at hand, so how the bytes
are cut into pieces, and where requests are interrupted, makes no difference to what is read. -/
namespace GoSyntax

namespace Feed

/-- The feed brings these bytes: in pieces, none of them empty, among interruptions, and no request
fails. -/
inductive Delivers : Feed → List UInt8 → Prop
  | done : Delivers [] []
  | interruption {feed : Feed} {bytes : List UInt8} : Delivers feed bytes →
      Delivers (.interruption :: feed) bytes
  | data {piece : List UInt8} {feed : Feed} {bytes : List UInt8} : piece ≠ [] →
      Delivers feed bytes → Delivers (.data piece :: feed) (piece ++ bytes)

theorem Delivers.octets_eq {feed : Feed} {bytes : List UInt8} (h : Delivers feed bytes) :
    feed.octets = bytes.map .ok := by
  induction h with
  | done => rfl
  | interruption _ ih => exact ih
  | @data piece feed bytes _ _ ih =>
    rw [List.map_append, ← ih]
    rfl

/-- Asks for a byte: what the source answers, nothing at its end, and the source behind the answer.
An interrupted request is repeated, and a piece that is used up makes room for the next one. -/
def request : Feed → Option Octet × Feed
  | [] => (none, [])
  | .data [] :: feed => request feed
  | .data (b :: piece) :: feed => (some (.ok b), .data piece :: feed)
  | .interruption :: feed => request feed
  | .failure reason :: feed => (some (.error reason), feed)

/-- The octets are the answers to one request after the other. -/
theorem octets_request (feed : Feed) :
    feed.octets = feed.request.1.toList ++ feed.request.2.octets := by
  induction feed with
  | nil => rfl
  | cons d feed ih =>
    cases d with
    | data bytes =>
      cases bytes with
      | nil => exact ih
      | cons b piece => rfl
    | interruption => exact ih
    | failure reason => rfl

theorem request_eq_nil {feed : Feed} (h : feed.request.1 = none) : feed.request.2 = [] := by
  induction feed with
  | nil => rfl
  | cons d feed ih =>
    cases d with
    | data bytes =>
      cases bytes with
      | nil => exact ih h
      | cons b piece => cases h
    | interruption => exact ih h
    | failure reason => cases h

theorem octets_of_request_none {feed rest : Feed} (h : feed.request = (none, rest)) :
    feed.octets = [] ∧ rest = [] := by
  have hrest : rest = [] := by simpa [h] using @request_eq_nil feed
  refine ⟨?_, hrest⟩
  rw [octets_request, h, hrest]
  rfl

theorem octets_of_request_some {feed rest : Feed} {o : Octet} (h : feed.request = (some o, rest)) :
    feed.octets = o :: rest.octets := by
  rw [octets_request, h]
  rfl

open Utf8 (Glyph)

/-- Reads on in a character of which `missing` bytes are left behind the next one, which has to be
between `low` and `high`. -/
def follow : (missing bits : Nat) → (low high : UInt8) → Feed → Glyph × Feed
  | missing, bits, low, high, feed =>
    match feed.request with
    | (none, rest) => (.error .invalidUtf8, rest)
    | (some (.error reason), rest) => (.error (.read reason), rest)
    | (some (.ok b), rest) =>
      if low ≤ b ∧ b ≤ high then
        match missing with
        | 0 => (.ok (Char.ofNat (bits * 64 + b.toNat % 64)), rest)
        | n + 1 => follow n (bits * 64 + b.toNat % 64) 0x80 0xBF rest
      else (.error .invalidUtf8, rest)

/-- Reads a character; at the end of the source there is none. -/
def glyph (feed : Feed) : Option Glyph × Feed :=
  match feed.request with
  | (none, rest) => (none, rest)
  | (some (.error reason), rest) => (some (.error (.read reason)), rest)
  | (some (.ok b), rest) =>
    match Utf8.lead b with
    | .glyph g => (some g, rest)
    | .sequence s =>
      let (g, rest) := follow s.missing s.bits s.low s.high rest
      (some g, rest)

theorem decodeFrom_follow (missing bits : Nat) (low high : UInt8) (feed : Feed) :
    Utf8.decodeFrom (some ⟨bits, missing, low, high⟩) feed.octets =
      (follow missing bits low high feed).1 ::
        Utf8.decode (follow missing bits low high feed).2.octets := by
  fun_induction follow missing bits low high feed with
  | case1 missing bits low high feed rest hr =>
    obtain ⟨hfeed, rfl⟩ := octets_of_request_none hr
    rw [hfeed]
    rfl
  | case2 missing bits low high feed reason rest hr =>
    rw [octets_of_request_some hr]
    rfl
  | case3 bits low high feed b rest hr hb =>
    rw [octets_of_request_some hr]
    exact Utf8.decodeFrom_last rfl hb _
  | case4 bits low high feed b rest hr hb n ih =>
    rw [octets_of_request_some hr, ← ih]
    exact Utf8.decodeFrom_more rfl hb _
  | case5 missing bits low high feed b rest hr hb =>
    rw [octets_of_request_some hr]
    exact Utf8.decodeFrom_stray hb _

/-- The characters of the octets are those that are read one after the other. -/
theorem decode_glyph (feed : Feed) : Utf8.decode feed.octets =
    feed.glyph.1.toList ++ Utf8.decode feed.glyph.2.octets := by
  unfold glyph
  split
  · next rest hr =>
    obtain ⟨hfeed, rfl⟩ := octets_of_request_none hr
    rw [hfeed]
    rfl
  · next reason rest hr =>
    rw [octets_of_request_some hr]
    rfl
  · next b rest hr =>
    rw [octets_of_request_some hr]
    split
    · next g hl => exact Utf8.decodeFrom_glyph hl _
    · next s hl => exact (Utf8.decodeFrom_sequence hl _).trans (decodeFrom_follow ..)

theorem decode_of_glyph_none {feed rest : Feed} (h : feed.glyph = (none, rest)) :
    Utf8.decode feed.octets = [] := by
  unfold glyph at h
  split at h
  · next rest hr =>
    rw [(octets_of_request_none hr).1]
    rfl
  · cases h
  · split at h
    · cases h
    · cases h

end Feed

/-- A reader in the middle of its work: what is left of its source, the character that was read and
not taken yet, and the place of that character. -/
structure Decoder where
  feed : Feed
  current : Option Char
  mark : Mark

/-- What can be seen at a place of a source. -/
structure Sight where
  current : Option Char
  pos : Position
  offset : Nat

def Cursor.sight (x : Cursor) : Sight := ⟨x.current?, x.pos, x.offset⟩

/-- What `n` bumps give, and what is seen behind each of them. -/
def Cursor.course : Nat → Cursor → List (Except Fault (Option Char) × Sight)
  | 0, _ => []
  | n + 1, x => (x.bump.1, x.bump.2.sight) :: course n x.bump.2

namespace Decoder

/-- The start of a source, with its first character read. -/
def ofFeed (file : String) (feed : Feed) : Except Fault Decoder :=
  match feed.glyph with
  | (none, rest) => .ok ⟨rest, none, .origin file⟩
  | (some (.ok c), rest) => .ok ⟨rest, some c, .origin file⟩
  | (some (.error fault), _) => .error fault

/-- Takes the character that was read, and reads the next one. Behind a fault the place has moved on
and the character is the same. -/
def bump (d : Decoder) : Except Fault (Option Char) × Decoder :=
  match d.current with
  | none => (.ok none, d)
  | some c =>
    match d.feed.glyph with
    | (none, rest) => (.ok (some c), ⟨rest, none, d.mark.past c⟩)
    | (some (.ok next), rest) => (.ok (some c), ⟨rest, some next, d.mark.past c⟩)
    | (some (.error fault), rest) => (.error fault, ⟨rest, some c, d.mark.past c⟩)

def sight (d : Decoder) : Sight := ⟨d.current, d.mark.pos, d.mark.offset⟩

/-- What `n` bumps give, and what is seen behind each of them. -/
def course : Nat → Decoder → List (Except Fault (Option Char) × Sight)
  | 0, _ => []
  | n + 1, d => (d.bump.1, d.bump.2.sight) :: course n d.bump.2

/-- The characters and faults that the reader has yet to meet. -/
def ahead (d : Decoder) : List Utf8.Glyph :=
  match d.current with
  | none => []
  | some c => .ok c :: Utf8.decode d.feed.octets

/-- The cursor that stands where the reader stands. -/
def cursor (d : Decoder) : Cursor := ⟨(Break.split d.ahead).1, (Break.split d.ahead).2, d.mark⟩

theorem cursor_sight (d : Decoder) : d.cursor.sight = d.sight := by
  obtain ⟨feed, _ | c, mark⟩ := d
  · rfl
  · rfl

/-- The reader starts where the cursor over all octets starts. -/
theorem ofOctets_eq (file : String) (feed : Feed) :
    Cursor.ofOctets file feed.octets = (ofFeed file feed).map cursor := by
  unfold Cursor.ofOctets ofFeed
  rcases hg : feed.glyph with ⟨_ | _ | _, rest⟩
  · rw [Feed.decode_of_glyph_none hg]
    rfl
  · rw [Feed.decode_glyph, hg]
    rfl
  · rw [Feed.decode_glyph, hg]
    rfl

/-- A bump of the reader is a bump of its cursor. -/
theorem bump_cursor (d : Decoder) : d.cursor.bump = (d.bump.1, d.bump.2.cursor) := by
  obtain ⟨feed, _ | c, mark⟩ := d
  · rfl
  -- a character is given once it is known what comes behind it: the end, a fault or another one
  rcases hg : feed.glyph with ⟨_ | fault | next, rest⟩
  · have hend := Feed.decode_of_glyph_none hg
    simp [bump, hg, cursor, ahead, hend, Break.split, Cursor.bump, Cursor.take, Cursor.skip]
  · have hnext : Utf8.decode feed.octets = .error fault :: Utf8.decode rest.octets := by
      rw [Feed.decode_glyph, hg]
      rfl
    simp [bump, hg, cursor, ahead, hnext, Break.split, Cursor.bump, Cursor.take]
  · have hnext : Utf8.decode feed.octets = .ok next :: Utf8.decode rest.octets := by
      rw [Feed.decode_glyph, hg]
      rfl
    simp only [bump, hg, cursor, ahead, hnext, Break.split, Cursor.bump, Cursor.take]
    cases (Break.split (Utf8.decode rest.octets)).2 with
    | nil => simp [Cursor.skip]
    | cons b breaks => simp [Cursor.skip]

theorem course_cursor (n : Nat) (d : Decoder) : d.cursor.course n = d.course n := by
  induction n generalizing d with
  | zero => rfl
  | succ n ih => rw [Cursor.course, course, bump_cursor, ih, cursor_sight]

/-- What is seen of the reader is seen of its cursor. -/
theorem seen_cursor (n : Nat) (r : Except Fault Decoder) :
    r.map (fun d => (d.sight, d.course n)) =
      (r.map cursor).map fun x => (x.sight, x.course n) := by
  cases r with
  | error fault => rfl
  | ok d => simp only [Except.map, cursor_sight, course_cursor]

end Decoder

/-- A lexer starts where the reader starts. -/
theorem Lexer.ofFeed_eq (file : String) (feed : Feed) :
    Lexer.ofFeed file feed = (((Decoder.ofFeed file feed).map Decoder.cursor).map fun cursor =>
      ⟨cursor, false, none, [], 0, false⟩).mapError fun fault =>
        ⟨.start file, .lexical (.source fault)⟩ := by
  rw [Lexer.ofFeed, Decoder.ofOctets_eq]
  cases Decoder.ofFeed file feed with
  | ok d => rfl
  | error fault => rfl

/-- Bytes that arrive in pieces among interruptions are read like those that arrive at once: by the
reader of characters, bump by bump, by one who asks for tokens, again and again, and by a parser,
whatever rules are called. -/
theorem delivery_leaves_no_trace {feed : Feed} {bytes : List UInt8} (h : feed.Delivers bytes)
    (file : String) :
    (∀ n, (Decoder.ofFeed file feed).map (fun d => (d.sight, d.course n)) =
      (Decoder.ofFeed file (.ofBytes bytes)).map fun d => (d.sight, d.course n)) ∧
    (∀ n, (Lexer.ofFeed file feed).map (fun x => (x.steps n).map Step.outcome) =
      (Lexer.ofFeed file (.ofBytes bytes)).map fun x => (x.steps n).map Step.outcome) ∧
    (∀ limit rules,
      (Parser.ofFeed limit file feed).map (fun p => (p.peek, (p.session rules).map Call.shown)) =
        (Parser.ofFeed limit file (.ofBytes bytes)).map fun p =>
          (p.peek, (p.session rules).map Call.shown)) ∧
    ∀ limit s, bytes = Text.encode s → parseFeed limit file feed = parseText limit file s := by
  have hcursor : (Decoder.ofFeed file feed).map Decoder.cursor =
      (Decoder.ofFeed file (.ofBytes bytes)).map Decoder.cursor := by
    rw [← Decoder.ofOctets_eq, ← Decoder.ofOctets_eq, h.octets_eq, Feed.octets_ofBytes]
  have hlexer : Lexer.ofFeed file feed = Lexer.ofFeed file (.ofBytes bytes) := by
    rw [Lexer.ofFeed_eq, Lexer.ofFeed_eq, hcursor]
  have hparser : ∀ limit, Parser.ofFeed limit file feed =
      Parser.ofFeed limit file (.ofBytes bytes) := fun limit => by
    rw [Parser.ofFeed, Parser.ofFeed, hlexer]
  refine ⟨fun n => ?_, fun n => by rw [hlexer], fun limit rules => by rw [hparser],
    fun limit s hs => ?_⟩
  · rw [Decoder.seen_cursor, hcursor, Decoder.seen_cursor]
  · rw [parseFeed, hparser, hs]
    rfl

/-- A request is interrupted, then comes one byte of a character of two, then more interruptions,
then the other byte and a blank, and in the last piece one more character. -/
def splitFeed : Feed :=
  [.interruption, .data [0xC3], .interruption, .interruption, .data [0xA9, 0x20], .data [0x78]]

theorem delivery_leaves_no_trace_split :
    splitFeed.Delivers (Text.encode ['é', ' ', 'x']) ∧
    (Decoder.ofFeed "a.go" splitFeed).map (fun d => (d.sight, d.course 4)) =
      (Decoder.ofFeed "a.go" (.ofText ['é', ' ', 'x'])).map (fun d => (d.sight, d.course 4)) ∧
    (Parser.ofFeed 8 "a.go" splitFeed).map
        (fun p => (p.peek, (p.session [.ident, .expr, .file]).map Call.shown)) =
      (Parser.ofFeed 8 "a.go" (.ofText ['é', ' ', 'x'])).map
        (fun p => (p.peek, (p.session [.ident, .expr, .file]).map Call.shown)) ∧
    parseFeed 8 "a.go" splitFeed = parseText 8 "a.go" ['é', ' ', 'x'] := by
  have hsplit : splitFeed.Delivers (Text.encode ['é', ' ', 'x']) :=
    .interruption (.data (by simp) (.interruption (.interruption
      (.data (by simp) (.data (by simp) .done)))))
  obtain ⟨hdecoder, -, hparser, hparse⟩ := delivery_leaves_no_trace hsplit "a.go"
  exact ⟨hsplit, hdecoder 4, hparser 8 [.ident, .expr, .file], hparse 8 _ rfl⟩

end GoSyntax
