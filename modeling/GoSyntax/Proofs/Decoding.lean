import Mathlib.Data.List.Induction
import GoSyntax.Proofs.Utf8
import GoSyntax.Proofs.Lexer.Step

/-! Decoding, character by character: a cursor shows the characters whose encoding the octets are, or
those in front of the first octets that encode none, and stops there with a fault at their place. -/
namespace GoSyntax

namespace Position

/-- The text without a byte order mark that opens it. -/
def withoutMark : Text → Text
  | [] => []
  | c :: s => if c = Mark.bom then s else c :: s

/-- Where a text leads to: its line feeds are counted, and what follows the last of them. -/
def reached (file : String) (s : Text) : Position :=
  ⟨file, 1 + (withoutMark s).count '\n',
    1 + ((withoutMark s).reverse.takeWhile (· ≠ '\n')).length⟩

theorem foldl_advance (file : String) (s : Text) :
    s.foldl advance (start file) =
      ⟨file, 1 + s.count '\n', 1 + (s.reverse.takeWhile (· ≠ '\n')).length⟩ := by
  induction s using List.reverseRecOn with
  | nil => rfl
  | append_singleton s c ih =>
    rw [List.foldl_append, ih, List.foldl_cons, List.foldl_nil, List.reverse_append]
    by_cases hc : c = '\n'
    · subst hc
      simp [advance, Nat.add_assoc]
    · rw [advance_of_ne _ hc]
      simp [List.count_append, hc]
      omega

end Position

namespace Mark

theorem pos_pastAll {m : Mark} (h : m.offset ≠ 0) (s : Text) :
    (m.pastAll s).pos = s.foldl Position.advance m.pos := by
  induction s generalizing m with
  | nil => rfl
  | cons c s ih =>
    have hoffset : (m.past c).offset ≠ 0 := by
      rw [past_offset]
      omega
    rw [pastAll_cons, ih hoffset, List.foldl_cons]
    simp [past, h]

/-- Going through a text leads where its line feeds say. -/
theorem pastAll_origin (file : String) (s : Text) :
    (origin file).pastAll s = ⟨.reached file s, Text.byteLength s⟩ := by
  have hpos : ((origin file).pastAll s).pos = .reached file s := by
    rw [Position.reached, ← Position.foldl_advance]
    cases s with
    | nil => rfl
    | cons c s =>
      have hoffset : ((origin file).past c).offset ≠ 0 := by
        have := Char.utf8Size_pos c
        rw [past_offset]
        omega
      rw [pastAll_cons, pos_pastAll hoffset]
      by_cases hc : c = bom
      · simp [past, origin, Position.withoutMark, hc]
      · simp [past, origin, Position.withoutMark, hc]
  have hoffset := pastAll_offset (origin file) s
  rw [show (origin file).offset = 0 from rfl, Nat.zero_add] at hoffset
  rw [← hpos, ← hoffset]

end Mark

/-- The fault of octets that encode no character, by the first of them. -/
def Fault.at (b : UInt8) : Fault := if b = 0 then .nul else .invalidUtf8

namespace Utf8

/-- A sequence that breaks off is invalid, whatever breaks it off. -/
theorem fault_of_open {s : Sequence} {bytes : List UInt8} {fault : Fault} {gs : List Glyph}
    (h : decodeFrom (some s) (bytes.map .ok) = .error fault :: gs) : fault = .invalidUtf8 := by
  induction bytes generalizing s with
  | nil =>
    cases h
    rfl
  | cons b bytes ih =>
    rw [List.map_cons] at h
    by_cases hb : s.low ≤ b ∧ b ≤ s.high
    · cases hm : s.missing with
      | zero =>
        rw [decodeFrom_last hm hb] at h
        cases h
      | succ n =>
        rw [decodeFrom_more hm hb] at h
        exact ih h
    · rw [decodeFrom_stray hb] at h
      cases h
      rfl

theorem fault_of_lead {b : UInt8} {fault : Fault} (h : lead b = .glyph (.error fault)) :
    fault = .at b := by
  unfold lead at h
  split at h
  · cases h
    simp [Fault.at, *]
  · repeat' split at h
    all_goals cases h
    all_goals simp [Fault.at, *]

theorem fault_of_decode {b : UInt8} {bytes : List UInt8} {fault : Fault} {gs : List Glyph}
    (h : decode ((b :: bytes).map .ok) = .error fault :: gs) : fault = .at b := by
  rw [List.map_cons, decode] at h
  cases hl : lead b with
  | glyph g =>
    rw [decodeFrom_glyph hl] at h
    cases h
    exact fault_of_lead hl
  | sequence s =>
    rw [decodeFrom_sequence hl] at h
    have hb : b ≠ 0 := by
      rintro rfl
      cases hl
    rw [fault_of_open h, Fault.at, if_neg hb]

/-- The characters at the front of octets, as far as they go, and what is left: nothing, or octets
that open with a fault. -/
theorem exists_decoded (bytes : List UInt8) : ∃ s rest, bytes = Text.encode s ++ rest ∧ '\x00' ∉ s ∧
    decode (bytes.map .ok) = s.map .ok ++ decode (rest.map .ok) ∧
      (rest = [] ∨ ∃ b bs gs, rest = b :: bs ∧ decode (rest.map .ok) = .error (.at b) :: gs) := by
  induction hn : bytes.length using Nat.strongRecOn generalizing bytes with
  | ind n ih =>
    cases bytes with
    | nil => exact ⟨[], [], rfl, by simp, rfl, Or.inl rfl⟩
    | cons b bs =>
      rcases opens_cases b bs with ⟨fault, gs, hf⟩ | ⟨c, rest, hb, hd⟩
      · refine ⟨[], b :: bs, rfl, by simp, rfl, Or.inr ⟨b, bs, gs, rfl, ?_⟩⟩
        rw [hf, fault_of_decode hf]
      · have hlt : rest.length < n := by
          have hc := Char.utf8Size_pos c
          have hlen := congrArg List.length hb
          rw [List.length_append, String.length_utf8EncodeChar] at hlen
          omega
        obtain ⟨s, rest', hrest, hs, hdec, hend⟩ := ih _ hlt rest rfl
        have hne : c ≠ '\x00' := @decode_ne_nul ((b :: bs).map .ok) c (hd ▸ List.mem_cons_self)
        refine ⟨c :: s, rest', ?_, ?_, ?_, hend⟩
        · rw [hb, hrest, Text.encode_cons, List.append_assoc]
        · simpa [hs] using Ne.symm hne
        · rw [hd, hdec]
          rfl

theorem decode_encode_append {s : Text} (hs : '\x00' ∉ s) (rest : List UInt8) :
    decode ((Text.encode s ++ rest).map .ok) = s.map .ok ++ decode (rest.map .ok) := by
  induction s with
  | nil => rfl
  | cons c s ih =>
    rw [List.mem_cons, not_or] at hs
    have hc := decodeFrom_encode (Ne.symm hs.1) ((Text.encode s ++ rest).map .ok)
    rw [Text.encode_cons, List.append_assoc, List.map_append, List.map_cons, List.cons_append]
    exact hc.trans (congrArg (List.cons _) (ih hs.2))

/-- Characters in front of a fault go no further than to the fault. -/
theorem prefix_of_fault {s t : Text} {fault : Fault} {gs hs : List Glyph}
    (h : t.map .ok ++ hs = s.map .ok ++ .error fault :: gs) : t <+: s := by
  induction t generalizing s with
  | nil => exact List.nil_prefix
  | cons c t ih =>
    cases s with
    | nil => cases h
    | cons d s =>
      simp only [List.map_cons, List.cons_append, List.cons.injEq, Except.ok.injEq] at h
      rw [h.1]
      exact List.prefix_cons_inj d |>.2 (ih h.2)

end Utf8

theorem Break.split_append (s : Text) (gs : List Utf8.Glyph) :
    Break.split (s.map .ok ++ gs) = (s ++ (Break.split gs).1, (Break.split gs).2) := by
  induction s with
  | nil => rfl
  | cons c s ih =>
    rw [List.map_cons, List.cons_append, Break.split, ih]
    rfl

namespace Cursor

variable {x : Cursor}

/-- The cursor behind `k` bumps, whatever they gave. -/
def later (x : Cursor) : Nat → Cursor
  | 0 => x
  | k + 1 => (x.later k).bump.2

/-- For `n` bumps the cursor shows the characters of `s` one after the other, gives them when it is
bumped, and counts the bytes of those that it gave. -/
structure Follows (x : Cursor) (s : Text) (n : Nat) : Prop where
  shown : ∀ k ≤ n, (x.later k).current? = s[k]?
  given : ∀ k < n, (x.later k).bump.1 = .ok s[k]?
  offset : ∀ k ≤ n, (x.later k).offset = Text.byteLength (s.take k)

theorem skip_skip (x : Cursor) (n m : Nat) : (x.skip n).skip m = x.skip (n + m) := by
  simp [skip, List.take_add]

theorem skip_nil (h : x.ahead = []) (n : Nat) : x.skip n = x := by
  obtain ⟨ahead, breaks, mark⟩ := x
  obtain rfl : ahead = [] := h
  simp [skip]

/-- A bump where no fault is near. -/
theorem bump_eq (h : x.breaks = [] ∨ 1 < x.ahead.length) :
    x.bump = (.ok x.current?, x.skip 1) := by
  unfold bump
  cases ha : x.ahead with
  | nil =>
    rw [skip_nil ha, current?, ha]
    rfl
  | cons c cs =>
    have htake : x.take 1 = ⟨x.ahead.take 1, x.skip 1, none⟩ := by
      unfold take
      cases hb : x.breaks with
      | nil => rfl
      | cons b bs =>
        have hlt : ¬x.ahead.length ≤ 1 := by
          rcases h with h | h
          · cases hb.symm.trans h
          · omega
        simp only [if_neg hlt]
    simp only [htake, current?, ha, List.head?_cons]

/-- Up to a fault, bumps are steps over characters. -/
theorem later_eq {k : Nat} (h : x.breaks = [] ∨ k < x.ahead.length) : x.later k = x.skip k := by
  induction k with
  | zero => rfl
  | succ k ih =>
    have hk := ih (h.imp_right fun h => by omega)
    have hbump : (x.skip k).bump = (.ok (x.skip k).current?, (x.skip k).skip 1) := by
      apply bump_eq
      rw [skip_breaks, skip_ahead, List.length_drop]
      exact h.imp_right fun h => by omega
    rw [later, hk, hbump, skip_skip]

/-- A cursor at the start of a source follows the characters ahead of it, up to the last before a
fault, and beyond the end if there is none. -/
theorem follows_ahead {n : Nat} (ho : x.offset = 0) (h : x.breaks = [] ∨ n < x.ahead.length) :
    x.Follows x.ahead n := by
  have hlater : ∀ k ≤ n, x.later k = x.skip k := by
    intro k hk
    exact later_eq (h.imp_right fun h => by omega)
  refine ⟨fun k hk => ?_, fun k hk => ?_, fun k hk => ?_⟩
  · rw [hlater k hk, current?, skip_ahead, List.head?_drop]
  · rw [hlater k (Nat.le_of_lt hk), bump_eq, current?, skip_ahead, List.head?_drop]
    rw [skip_breaks, skip_ahead, List.length_drop]
    exact h.imp_right fun h => by omega
  · rw [hlater k hk, skip_offset, ho, Nat.zero_add]

theorem bump_last {b : Break} {bs : List Break} {c : Char} (ha : x.ahead = [c])
    (hb : x.breaks = b :: bs) :
    x.bump = (.error b.fault, ⟨c :: b.run, bs, x.mark.pastAll [c]⟩) := by
  simp [bump, take, ha, hb]

/-- The bump that meets the fault has gone past all characters before it. -/
theorem bump_fault {b : Break} {bs : List Break} {m : Nat} (hb : x.breaks = b :: bs)
    (hm : x.ahead.length = m + 1) :
    (x.later m).bump.1 = .error b.fault ∧ (x.later (m + 1)).mark = x.mark.pastAll x.ahead := by
  have hlater : x.later m = x.skip m := later_eq (Or.inr (by omega))
  obtain ⟨c, hc⟩ : ∃ c, x.ahead.drop m = [c] := by
    apply List.length_eq_one_iff.1
    rw [List.length_drop]
    omega
  have hbump := bump_last (x := x.skip m) hc hb
  refine ⟨?_, ?_⟩
  · rw [hlater, hbump]
  · rw [later, hlater, hbump, skip_mark, ← Mark.pastAll_append, ← hc, List.take_append_drop]

theorem Follows.unique {s t : Text} (hs : ∀ n, x.Follows s n) (ht : ∀ n, x.Follows t n) : s = t := by
  apply List.ext_getElem?
  intro k
  rw [← (hs k).shown k (Nat.le_refl k), (ht k).shown k (Nat.le_refl k)]

end Cursor

section Exact

variable {file : String} {bytes : List UInt8} {s : Text}

theorem ofOctets_encode (file : String) (hs : '\x00' ∉ s) :
    ∃ x, Cursor.ofOctets file ((Text.encode s).map .ok) = .ok x ∧ ∀ n, x.Follows s n := by
  have hsplit : Break.split (Utf8.decode ((Text.encode s).map .ok)) = (s, []) := by
    have h := Break.split_append s []
    rw [List.append_nil, Break.split, List.append_nil] at h
    rw [Utf8.decode_encode hs, h]
  refine ⟨⟨s, [], .origin file⟩, ?_, fun n => Cursor.follows_ahead rfl (Or.inl rfl)⟩
  simp only [Cursor.ofOctets, hsplit]

/-- The cursor shows `s`, all of it, and then stops with the fault, at the place that `s` leads to. A
fault in front of everything leaves no cursor, and is reported at the start of the source. -/
def StopsBehind (file : String) (bytes : List UInt8) (s : Text) (fault : Fault) : Prop :=
  match s.length with
  | 0 => Cursor.ofOctets file (bytes.map .ok) = .error fault ∧
    Lexer.ofFeed file (.ofBytes bytes) = .error ⟨.reached file s, .lexical (.source fault)⟩
  | m + 1 => ∃ x, Cursor.ofOctets file (bytes.map .ok) = .ok x ∧ x.Follows s m ∧
    (x.later m).bump.1 = .error fault ∧ (x.later (m + 1)).pos = .reached file s

theorem stopsBehind_of_decode {fault : Fault} {gs : List Utf8.Glyph}
    (h : Utf8.decode (bytes.map .ok) = s.map .ok ++ .error fault :: gs) :
    StopsBehind file bytes s fault := by
  have hsplit : Break.split (Utf8.decode (bytes.map .ok)) =
      (s, ⟨fault, (Break.split gs).1⟩ :: (Break.split gs).2) := by
    rw [h, Break.split_append, Break.split, List.append_nil]
  unfold StopsBehind
  cases s with
  | nil =>
    have herr : Cursor.ofOctets file (bytes.map .ok) = .error fault := by
      simp only [Cursor.ofOctets, hsplit]
    refine ⟨herr, ?_⟩
    simp only [Lexer.ofFeed, Feed.octets_ofBytes, herr]
    rfl
  | cons c s =>
    have hok : Cursor.ofOctets file (bytes.map .ok) =
        .ok ⟨c :: s, ⟨fault, (Break.split gs).1⟩ :: (Break.split gs).2, .origin file⟩ := by
      simp only [Cursor.ofOctets, hsplit]
    refine ⟨_, hok, Cursor.follows_ahead rfl (Or.inr (Nat.lt_succ_self _)), ?_⟩
    obtain ⟨hbump, hmark⟩ := Cursor.bump_fault
      (x := ⟨c :: s, ⟨fault, (Break.split gs).1⟩ :: (Break.split gs).2, .origin file⟩) rfl rfl
    refine ⟨hbump, ?_⟩
    rw [Cursor.pos, hmark, Mark.pastAll_origin]

/-- One who stops somewhere does not get to the end. -/
theorem StopsBehind.not_follows {fault : Fault} (h : StopsBehind file bytes s fault) {x : Cursor}
    (hx : Cursor.ofOctets file (bytes.map .ok) = .ok x) (t : Text) : ¬∀ n, x.Follows t n := by
  intro hall
  unfold StopsBehind at h
  split at h
  · cases hx.symm.trans h.1
  · rename_i m _
    obtain ⟨y, hy, -, hbump, -⟩ := h
    obtain rfl := Except.ok.inj (hx.symm.trans hy)
    cases hbump.symm.trans ((hall (m + 1)).given m (Nat.lt_succ_self m))

/-- Decoding undoes encoding and nothing else: the characters are followed to their end if the octets
are their encoding, none of them being NUL. Other octets begin with the encoding of a text, the
longest there is, and behind it one meets a fault, by the octet that stands there. -/
theorem decoding_exact (file : String) (bytes : List UInt8) :
    (∀ s, (∃ x, Cursor.ofOctets file (bytes.map .ok) = .ok x ∧ ∀ n, x.Follows s n) ↔
      '\x00' ∉ s ∧ Text.encode s = bytes) ∧
    ((∀ s, '\x00' ∉ s → Text.encode s ≠ bytes) →
      ∃ s b rest, bytes = Text.encode s ++ b :: rest ∧ '\x00' ∉ s ∧
        (∀ t, '\x00' ∉ t → Text.encode t <+: bytes → t <+: s) ∧
        StopsBehind file bytes s (if b = 0 then .nul else .invalidUtf8)) := by
  obtain ⟨s, rest, hbytes, hs, hdecode, hrest | ⟨b, bs, gs, rfl, hfault⟩⟩ :=
    Utf8.exists_decoded bytes
  · obtain rfl : bytes = Text.encode s := by rw [hbytes, hrest, List.append_nil]
    refine ⟨fun t => ⟨?_, ?_⟩, fun hnone => absurd rfl (hnone s hs)⟩
    · rintro ⟨x, hx, hfollows⟩
      obtain ⟨y, hy, hall⟩ := ofOctets_encode file hs
      obtain rfl := Except.ok.inj (hx.symm.trans hy)
      rw [Cursor.Follows.unique hfollows hall]
      exact ⟨hs, rfl⟩
    · rintro ⟨ht, heq⟩
      rw [← heq]
      exact ofOctets_encode file ht
  · rw [hfault] at hdecode
    have hstops : StopsBehind file bytes s (.at b) := stopsBehind_of_decode hdecode
    refine ⟨fun t => ⟨?_, ?_⟩, fun _ => ⟨s, b, bs, hbytes, hs, ?_, hstops⟩⟩
    · rintro ⟨x, hx, hfollows⟩
      exact absurd hfollows (hstops.not_follows hx t)
    · rintro ⟨ht, rfl⟩
      exact ofOctets_encode file ht
    · rintro t ht ⟨more, rfl⟩
      rw [Utf8.decode_encode_append ht] at hdecode
      exact Utf8.prefix_of_fault hdecode

end Exact
end GoSyntax
