import GoSyntax.Proofs.Decoding

/-! Bumps that fail. A fault keeps the character in view and moves the place past it all the same, so
behind read failures the characters are the same as without, each given once, and their places are
not. -/
namespace GoSyntax

open Utf8 (Glyph)

namespace Break

/-- The fault and the characters of its run. -/
def glyphs (b : Break) : List Glyph := .error b.fault :: b.run.map .ok

theorem split_glyphs (gs : List Glyph) :
    (split gs).1.map .ok ++ (split gs).2.flatMap glyphs = gs := by
  induction gs with
  | nil => rfl
  | cons g gs ih =>
    cases g with
    | ok c => exact congrArg (List.cons (.ok c)) ih
    | error fault => exact congrArg (List.cons (.error fault)) ih

end Break

namespace Cursor

/-- The characters and faults ahead, in their order. -/
def glyphs (x : Cursor) : List Glyph := x.ahead.map .ok ++ x.breaks.flatMap Break.glyphs

variable {x : Cursor} {c : Char} {gs : List Glyph}

theorem glyphs_of_ofOctets {file : String} {octets : List Octet} (h : ofOctets file octets = .ok x) :
    x.glyphs = Utf8.decode octets ∧ x.mark = .origin file := by
  have hsplit := Break.split_glyphs (Utf8.decode octets)
  unfold ofOctets at h
  split at h
  · cases h
  · rename_i run breaks _ heq
    rw [heq] at hsplit
    cases h
    exact ⟨hsplit, rfl⟩

theorem ofOctets_of_glyph {file : String} {octets : List Octet}
    (h : Utf8.decode octets = .ok c :: gs) : ∃ x, ofOctets file octets = .ok x := by
  unfold ofOctets
  rw [h, Break.split]
  exact ⟨_, rfl⟩

/-- At the end of the source a bump gives nothing and changes nothing. -/
theorem bump_end (h : x.glyphs = []) : x.bump = (.ok none, x) := by
  have ha : x.ahead = [] := List.map_eq_nil_iff.1 (List.append_eq_nil_iff.1 h).1
  unfold bump
  rw [ha]

theorem exists_ahead (h : x.glyphs = .ok c :: gs) :
    ∃ cs, x.ahead = c :: cs ∧ gs = cs.map .ok ++ x.breaks.flatMap Break.glyphs := by
  unfold glyphs at h
  cases ha : x.ahead with
  | nil =>
    rw [ha] at h
    cases hb : x.breaks with
    | nil => simp [hb] at h
    | cons b bs => simp [hb, Break.glyphs] at h
  | cons d cs =>
    rw [ha] at h
    simp only [List.map_cons, List.cons_append, List.cons.injEq, Except.ok.injEq] at h
    exact ⟨cs, by rw [h.1], h.2.symm⟩

theorem current?_of_glyphs (h : x.glyphs = .ok c :: gs) : x.current? = some c := by
  obtain ⟨cs, ha, -⟩ := exists_ahead h
  rw [current?, ha]
  rfl

/-- Before a fault a bump fails. The character stays in view, and the place moves past it. -/
theorem bump_before_fault {fault : Fault} (h : x.glyphs = .ok c :: .error fault :: gs) :
    x.bump.1 = .error fault ∧ x.bump.2.glyphs = .ok c :: gs ∧ x.bump.2.mark = x.mark.past c := by
  obtain ⟨cs, ha, hgs⟩ := exists_ahead h
  obtain rfl : cs = [] := by
    cases cs with
    | nil => rfl
    | cons d cs => simp at hgs
  cases hb : x.breaks with
  | nil => simp [hb] at hgs
  | cons b bs =>
    simp only [hb, List.map_nil, List.nil_append, List.flatMap_cons, Break.glyphs,
      List.cons_append, List.cons.injEq, Except.error.injEq] at hgs
    rw [bump_last ha hb, hgs.1]
    refine ⟨rfl, ?_, rfl⟩
    rw [hgs.2]
    rfl

/-- Where no fault follows, a bump gives the character in view. -/
theorem bump_before_other (h : x.glyphs = .ok c :: gs) (hgs : ∀ fault, gs.head? ≠ some (.error fault)) :
    x.bump.1 = .ok (some c) ∧ x.bump.2.glyphs = gs ∧ x.bump.2.mark = x.mark.past c := by
  obtain ⟨cs, ha, rfl⟩ := exists_ahead h
  have hclear : x.breaks = [] ∨ 1 < x.ahead.length := by
    cases hb : x.breaks with
    | nil => exact Or.inl rfl
    | cons b bs =>
      refine Or.inr ?_
      cases cs with
      | nil => exact absurd (by simp [hb, Break.glyphs]) (hgs b.fault)
      | cons d cs => simp [ha]
  rw [bump_eq hclear]
  refine ⟨by rw [current?, ha]; rfl, ?_, ?_⟩
  · rw [glyphs, skip_ahead, skip_breaks, ha]
    rfl
  · rw [skip_mark, ha]
    rfl

/-- A bump fails where a fault is next. -/
theorem glyphs_of_bump_error {fault : Fault} (h : x.bump.1 = .error fault) :
    ∃ c gs, x.glyphs = .ok c :: .error fault :: gs := by
  cases ha : x.ahead with
  | nil =>
    rw [bump, ha] at h
    cases h
  | cons c cs =>
    obtain ⟨gs, hgs⟩ : ∃ gs, x.glyphs = .ok c :: gs := ⟨_, by rw [glyphs, ha]; rfl⟩
    by_cases hfault : ∃ f, gs.head? = some (.error f)
    · obtain ⟨f, hf⟩ := hfault
      obtain ⟨gs, rfl⟩ := List.head?_eq_some_iff.1 hf
      have hbump := (bump_before_fault hgs).1
      rw [h] at hbump
      cases hbump
      exact ⟨c, gs, hgs⟩
    · have hbump := (bump_before_other hgs fun f hf => hfault ⟨f, hf⟩).1
      rw [h] at hbump
      cases hbump

theorem later_succ (x : Cursor) (k : Nat) : x.later (k + 1) = x.bump.2.later k := by
  induction k with
  | zero => rfl
  | succ k ih => rw [later, ih, later]

/-- The characters that `n` bumps give, those that fail passed over. -/
def given : Nat → Cursor → Text
  | 0, _ => []
  | n + 1, x => (x.bump.1.toOption.getD none).toList ++ given n x.bump.2

theorem given_end (h : x.glyphs = []) (n : Nat) : x.given n = [] := by
  induction n with
  | zero => rfl
  | succ n ih =>
    rw [given, bump_end h]
    exact ih

end Cursor

/-- Characters, and read failures between them. -/
abbrev Script := List (Except String Char)

namespace Script

variable {c : Char} {g : Script} {x : Cursor}

/-- What a source that follows the script answers to one request after the other. -/
def octets (g : Script) : List Octet :=
  g.flatMap fun
    | .ok c => (String.utf8EncodeChar c).map .ok
    | .error reason => [.error reason]

/-- The characters without the failures. -/
def characters (g : Script) : Text := g.filterMap Except.toOption

def glyphs (g : Script) : List Glyph := g.map (Except.mapError Fault.read)

/-- The characters that are in view one bump after the other, `c` being the first: behind a failure
there is the same one again. -/
def echo : (c : Char) → Script → Text
  | c, [] => [c]
  | c, .ok d :: g => c :: echo d g
  | c, .error _ :: g => c :: echo c g

theorem decode_octets (h : .ok '\x00' ∉ g) : Utf8.decode g.octets = g.glyphs := by
  induction g with
  | nil => rfl
  | cons a g ih =>
    obtain ⟨ha, hg⟩ := List.ne_and_not_mem_of_not_mem_cons h
    cases a with
    | ok c =>
      have hc : c ≠ '\x00' := by
        rintro rfl
        exact ha rfl
      exact (Utf8.decodeFrom_encode hc _).trans (congrArg (List.cons _) (ih hg))
    | error reason => exact congrArg (List.cons _) (ih hg)

/-- A bump on a script takes its first entry: behind a character the one before is given, and behind
a failure it is in view again. -/
theorem bump_script {a : Except String Char} (h : x.glyphs = .ok c :: glyphs (a :: g)) :
    x.bump.2.mark = x.mark.past c ∧
      match a with
      | .ok d => x.bump.1 = .ok (some c) ∧ x.bump.2.glyphs = .ok d :: g.glyphs
      | .error reason => x.bump.1 = .error (.read reason) ∧ x.bump.2.glyphs = .ok c :: g.glyphs := by
  cases a with
  | ok d =>
    obtain ⟨hgiven, hafter, hmark⟩ := Cursor.bump_before_other h (by simp [glyphs, Except.mapError])
    exact ⟨hmark, hgiven, hafter⟩
  | error reason =>
    obtain ⟨hfault, hafter, hmark⟩ := Cursor.bump_before_fault h
    exact ⟨hmark, hfault, hafter⟩

theorem bump_last (h : x.glyphs = .ok c :: glyphs []) :
    x.bump.1 = .ok (some c) ∧ x.bump.2.glyphs = [] := by
  obtain ⟨hgiven, hafter, -⟩ := Cursor.bump_before_other h (by simp [glyphs])
  exact ⟨hgiven, hafter⟩

/-- What a bump gives where `c` is in view: a failure of the script if one is next. -/
def answer (c : Option Char) : Option (Except String Char) → Except Fault (Option Char)
  | some (.error reason) => .error (.read reason)
  | _ => .ok c

/-- Along the script there is in view what its echo says, and the place is past all of the echo that
was in view before. -/
theorem later_echo (h : x.glyphs = .ok c :: g.glyphs) {k : Nat} (hk : k ≤ g.length) :
    (x.later k).current? = (g.echo c)[k]? ∧
      (x.later k).mark = x.mark.pastAll ((g.echo c).take k) ∧
      (x.later k).bump.1 = answer (g.echo c)[k]? g[k]? := by
  induction g generalizing x c k with
  | nil =>
    obtain rfl : k = 0 := by simpa using hk
    exact ⟨Cursor.current?_of_glyphs h, rfl, (bump_last h).1⟩
  | cons a g ih =>
    obtain ⟨hmark, hbump⟩ := bump_script h
    cases k with
    | zero =>
      cases a with
      | ok d => exact ⟨Cursor.current?_of_glyphs h, rfl, hbump.1⟩
      | error reason => exact ⟨Cursor.current?_of_glyphs h, rfl, hbump.1⟩
    | succ k =>
      have hk' : k ≤ g.length := by simpa using hk
      rw [Cursor.later_succ]
      cases a with
      | ok d =>
        obtain ⟨hview, hplace, hanswer⟩ := ih hbump.2 hk'
        exact ⟨hview, by rw [hplace, hmark]; rfl, hanswer⟩
      | error reason =>
        obtain ⟨hview, hplace, hanswer⟩ := ih hbump.2 hk'
        exact ⟨hview, by rw [hplace, hmark]; rfl, hanswer⟩

/-- Bumps give the characters of the script, each of them once, and nothing behind them. -/
theorem given_eq (h : x.glyphs = .ok c :: g.glyphs) (n : Nat) :
    x.given (g.length + 1 + n) = c :: g.characters := by
  induction g generalizing x c with
  | nil =>
    obtain ⟨hgiven, hafter⟩ := bump_last h
    rw [List.length_nil, Nat.zero_add, Nat.add_comm, Cursor.given, hgiven,
      Cursor.given_end hafter]
    rfl
  | cons a g ih =>
    obtain ⟨-, hbump⟩ := bump_script h
    have hlen : (a :: g).length + 1 + n = (g.length + 1 + n) + 1 := by
      rw [List.length_cons]
      omega
    rw [hlen, Cursor.given]
    cases a with
    | ok d =>
      rw [hbump.1, ih hbump.2]
      rfl
    | error reason =>
      rw [hbump.1, ih hbump.2]
      rfl

/-- Without failures the characters are in view one after the other. -/
theorem echo_plain (c : Char) (s : Text) : echo c (s.map .ok) = c :: s := by
  induction s generalizing c with
  | nil => rfl
  | cons d s ih => exact congrArg (List.cons c) (ih d)

theorem octets_plain (s : Text) : octets (s.map .ok) = (Text.encode s).map .ok := by
  induction s with
  | nil => rfl
  | cons c s ih =>
    rw [List.map_cons, octets, List.flatMap_cons, Text.encode_cons, List.map_append, ← ih]
    rfl

theorem characters_plain (s : Text) : characters (s.map .ok) = s := by
  simp [characters, List.filterMap_map, Function.comp_def, Except.toOption]

theorem answer_plain (o : Option Char) (s : Text) (k : Nat) :
    answer o (s.map .ok : Script)[k]? = .ok o := by
  rw [List.getElem?_map]
  cases s[k]? with
  | none => rfl
  | some d => rfl

theorem length_characters_le (g : Script) : g.characters.length ≤ g.length :=
  List.length_filterMap_le _ _

theorem nul_not_mem (h : .ok '\x00' ∉ g) : .ok '\x00' ∉ (g.characters.map .ok : Script) := by
  simp only [List.mem_map, Except.ok.injEq, exists_eq_right, characters, List.mem_filterMap,
    not_exists, not_and]
  rintro (_ | c) ha hc
  · cases hc
  · cases hc
    exact h ha

theorem exists_cursor (file : String) (h : .ok '\x00' ∉ (.ok c :: g : Script)) :
    ∃ x, Cursor.ofOctets file (octets (.ok c :: g)) = .ok x ∧ x.glyphs = .ok c :: g.glyphs ∧
      x.mark = .origin file := by
  have hdecode : Utf8.decode (octets (.ok c :: g)) = .ok c :: g.glyphs := decode_octets h
  obtain ⟨x, hx⟩ := Cursor.ofOctets_of_glyph hdecode
  obtain ⟨hglyphs, hmark⟩ := Cursor.glyphs_of_ofOctets hx
  exact ⟨x, hx, hglyphs.trans hdecode, hmark⟩

end Script

/-- A bump that fails leaves the character in view and moves the place past it. So where reads fail
between characters, going on gives the same characters as without the failures, each of them once;
but the places run past the character before each failure once more. -/
theorem failures_displace (file : String) :
    (∀ (x : Cursor) (fault : Fault), x.bump.1 = .error fault →
      ∃ c, x.current? = some c ∧ x.bump.2.current? = some c ∧ x.bump.2.mark = x.mark.past c) ∧
    ∀ (feed : Feed) (c : Char) (g : Script), .ok '\x00' ∉ (.ok c :: g : Script) →
      feed.octets = Script.octets (.ok c :: g) →
      ∃ x y, Cursor.ofOctets file feed.octets = .ok x ∧
        Cursor.ofOctets file (Feed.ofText (c :: g.characters)).octets = .ok y ∧
        (∀ n, x.given (g.length + 1 + n) = c :: g.characters ∧
          y.given (g.length + 1 + n) = c :: g.characters) ∧
        (∀ k ≤ g.length, (x.later k).current? = (g.echo c)[k]? ∧
          (x.later k).mark = (Mark.origin file).pastAll ((g.echo c).take k) ∧
          (x.later k).bump.1 = Script.answer (g.echo c)[k]? g[k]?) ∧
        ∀ k ≤ g.characters.length, (y.later k).current? = (c :: g.characters)[k]? ∧
          (y.later k).mark = (Mark.origin file).pastAll ((c :: g.characters).take k) ∧
          (y.later k).bump.1 = .ok (c :: g.characters)[k]? := by
  refine ⟨fun x fault h => ?_, fun feed c g hnul hfeed => ?_⟩
  · obtain ⟨c, gs, hgs⟩ := Cursor.glyphs_of_bump_error h
    obtain ⟨-, hafter, hmark⟩ := Cursor.bump_before_fault hgs
    exact ⟨c, Cursor.current?_of_glyphs hgs, Cursor.current?_of_glyphs hafter, hmark⟩
  · obtain ⟨x, hx, hglyphs, hmark⟩ := Script.exists_cursor file hnul
    -- The source without failures follows a script as well, that of the characters alone.
    obtain ⟨y, hy, hplain, horigin⟩ := Script.exists_cursor (g := g.characters.map .ok) file
      (Script.nul_not_mem hnul)
    have htext : (Feed.ofText (c :: g.characters)).octets =
        Script.octets ((c :: g.characters).map .ok) := by
      rw [Script.octets_plain, Feed.ofText, Feed.octets_ofBytes]
      rfl
    rw [hfeed, htext]
    refine ⟨x, y, hx, hy, fun n => ⟨Script.given_eq hglyphs n, ?_⟩, fun k hk => ?_, fun k hk => ?_⟩
    · have hle := g.length_characters_le
      have hgiven := Script.given_eq hplain (g.length - g.characters.length + n)
      rw [Script.characters_plain, List.length_map] at hgiven
      have hlen : g.characters.length + 1 + (g.length - g.characters.length + n) =
          g.length + 1 + n := by omega
      rwa [hlen] at hgiven
    · rw [← hmark]
      exact Script.later_echo hglyphs hk
    · obtain ⟨hview, hplace, hanswer⟩ :=
        Script.later_echo hplain (show k ≤ (g.characters.map Except.ok).length by simpa using hk)
      rw [Script.echo_plain] at hview hplace hanswer
      exact ⟨hview, horigin ▸ hplace, hanswer.trans (Script.answer_plain _ _ k)⟩

/-- Two characters with a failure between them, and an interruption that leaves no trace. -/
def failingFeed : Feed := [.data [97], .failure "timeout", .interruption, .data [98]]

theorem failures_displace_second :
    failingFeed.octets = Script.octets [.ok 'a', .error "timeout", .ok 'b'] ∧
    ∃ x y, Cursor.ofOctets "t.go" failingFeed.octets = .ok x ∧
      Cursor.ofOctets "t.go" (Feed.ofText ['a', 'b']).octets = .ok y ∧
      x.given 3 = ['a', 'b'] ∧ y.given 3 = ['a', 'b'] ∧
      (x.later 2).current? = some 'b' ∧ (y.later 1).current? = some 'b' ∧
      (x.later 2).mark = (Mark.origin "t.go").pastAll ['a', 'a'] ∧
      (y.later 1).mark = (Mark.origin "t.go").pastAll ['a'] := by
  have hfeed : failingFeed.octets = Script.octets [.ok 'a', .error "timeout", .ok 'b'] := rfl
  obtain ⟨x, y, hx, hy, hgiven, hfailing, hplain⟩ :=
    (failures_displace "t.go").2 failingFeed 'a' [.error "timeout", .ok 'b'] (by simp) hfeed
  obtain ⟨hview, hmark, -⟩ := hfailing 2 (Nat.le_refl 2)
  obtain ⟨hview', hmark', -⟩ := hplain 1 (Nat.le_refl 1)
  exact ⟨hfeed, x, y, hx, hy, (hgiven 0).1, (hgiven 0).2, hview, hview', hmark, hmark'⟩

/-- A failed bump does not leave the place as it was, and the character behind it is at the wrong
one. -/
theorem failures_leave_no_trace_fails :
    ∃ x y, Cursor.ofOctets "t.go" failingFeed.octets = .ok x ∧
      Cursor.ofOctets "t.go" (Feed.ofText ['a', 'b']).octets = .ok y ∧
      x.bump.1 = .error (.read "timeout") ∧ x.bump.2.current? = x.current? ∧
      x.bump.2.pos ≠ x.pos ∧ x.bump.2.offset ≠ x.offset ∧
      (x.later 2).current? = some 'b' ∧ (y.later 1).current? = some 'b' ∧
      (x.later 2).pos ≠ (y.later 1).pos ∧ (x.later 2).offset ≠ (y.later 1).offset :=
  ⟨_, _, rfl, rfl, rfl, rfl, by decide, by decide, rfl, rfl, by decide, by decide⟩

end GoSyntax
