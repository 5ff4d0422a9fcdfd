import GoSyntax.Lexeme.Basic
import GoSyntax.Proofs.Lexeme.Literal
import GoSyntax.Proofs.Lexeme.Symbols

/-! How far a reading goes: never beyond the text, and over one character at least where there is
one. -/
namespace GoSyntax
namespace Lexeme


theorem length_takeWhile_le (p : Char → Bool) (cs : Text) : (cs.takeWhile p).length ≤ cs.length :=
  (List.takeWhile_prefix p).length_le

namespace Comment

theorem blockSize?_le {cs : Text} {n : Nat} (h : blockSize? cs = some n) : n ≤ cs.length := by
  fun_induction blockSize? cs generalizing n with
  | case1 => simp at h
  | case2 =>
    obtain rfl : 2 = n := Option.some.inj h
    simp
  | case3 c cs _ ih =>
    obtain ⟨m, hm, rfl⟩ := Option.map_eq_some_iff.1 h
    exact Nat.succ_le_succ (ih hm)

theorem size_line (cs : Text) : 2 ≤ (line cs).size ∧ (line cs).size ≤ cs.length + 2 := by
  have h := length_takeWhile_le (· != '\n') cs
  simp only [line, Reading.size_done]
  omega

theorem size_block (cs : Text) : 2 ≤ (block cs).size ∧ (block cs).size ≤ cs.length + 2 := by
  unfold block
  split
  · rename_i n h
    have hn := blockSize?_le h
    simp only [Reading.size_done]
    omega
  · simp only [Reading.size_fail]
    omega

end Comment

namespace Quotation

theorem length_leadingDigits_le (base n : Nat) (cs : Text) :
    (leadingDigits base n cs).length ≤ n ∧ (leadingDigits base n cs).length ≤ cs.length := by
  have h := length_takeWhile_le (isDigitIn base) (cs.take n)
  rw [List.length_take] at h
  simp only [leadingDigits]
  omega

theorem size_hexEscape_le (n : Nat) (cs : Text) : (hexEscape n cs).size ≤ cs.length := by
  have h := length_leadingDigits_le 16 n cs
  unfold hexEscape
  dsimp only
  split
  · split <;> simp only [Reading.size_done, Reading.size_fail] <;> omega
  · split <;> exact h.2

theorem size_octalEscape_le (cs : Text) : (octalEscape cs).size ≤ cs.length := by
  have h := length_leadingDigits_le 8 3 cs
  unfold octalEscape
  dsimp only
  split
  · split
    · split <;> simp only [Reading.size_done, Reading.size_fail] <;> omega
    · simp only [Reading.size_fail]
      omega
  · exact h.2

theorem size_escape_le (cs : Text) : (escape cs).size ≤ cs.length := by
  cases cs with
  | nil => simp [escape]
  | cons c cs =>
    simp only [escape]
    split
    · simp
    · rename_i n _ _
      have h := size_hexEscape_le n cs
      simp only [Reading.size_shift, List.length_cons]
      omega
    · split
      · exact size_octalEscape_le (c :: cs)
      · simp

theorem size_item_le (c : Char) (cs : Text) : (item c cs).size ≤ cs.length := by
  unfold item
  split
  · exact size_escape_le cs
  · simp

theorem size_rune (cs : Text) : 1 ≤ (rune cs).size ∧ (rune cs).size ≤ cs.length + 1 := by
  cases cs with
  | nil => simp [rune]
  | cons c cs =>
    have h := size_item_le c cs
    simp only [rune]
    split
    · simp
    split
    · simp
    split
    · simp only [Reading.size_fail, List.length_cons]
      omega
    · split
      · simp only [Reading.size_fail, List.length_cons]
        omega
      · rename_i d hd
        have hlt : (item c cs).size < cs.length := by
          apply Nat.lt_of_not_le
          intro hle
          simp [List.drop_eq_nil_of_le hle] at hd
        split
        · simp only [Reading.size_done, List.length_cons]
          omega
        split <;> simp only [Reading.size_fail, List.length_cons] <;> omega

theorem size_stringItems_le (cs : Text) : (stringItems cs).size ≤ cs.length := by
  fun_induction stringItems cs with
  | case1 => simp
  | case2 => simp
  | case3 => simp
  | case4 c cs _ _ r =>
    have h : r.size ≤ cs.length := size_item_le c cs
    simp only [Reading.size_fail, List.length_cons]
    omega
  | case5 c cs _ _ r _ _ ih =>
    have h : r.size ≤ cs.length := size_item_le c cs
    simp only [List.length_drop] at ih
    simp only [Reading.size_shift, Reading.size_map, List.length_cons]
    omega

theorem size_string (cs : Text) : 1 ≤ (string cs).size ∧ (string cs).size ≤ cs.length + 1 := by
  have h := size_stringItems_le cs
  simp only [string, Reading.size_shift, Reading.size_map]
  omega

/-- What is cut out between two quotes is what stands there. -/
theorem between?_quoted (body : Text) :
    Text.between? 1 (Text.byteLength (rawQuote :: (body ++ [rawQuote])) - 1)
      (rawQuote :: (body ++ [rawQuote])) = some body := by
  have hsize : rawQuote.utf8Size = 1 := by decide
  have hlen : Text.byteLength (rawQuote :: (body ++ [rawQuote])) - 1 =
      Text.byteLength (rawQuote :: body) := by
    simp only [Text.byteLength_cons, Text.byteLength_append, Text.byteLength_nil, hsize]
    omega
  have hbefore := Text.before?_append (rawQuote :: body) [rawQuote]
  have hbehind := Text.behind?_append [rawQuote] body
  rw [Text.byteLength_cons, hsize, Text.byteLength_nil] at hbehind
  rw [List.cons_append] at hbefore
  rw [Text.between?, hlen, hbefore]
  exact hbehind

theorem rawString_eq_ite (cs : Text) :
    rawString cs =
      let body := cs.takeWhile (· != rawQuote)
      if body.length < cs.length then
        .done (body.length + 2) (.token (.literal .rawString) (some (.text body)))
      else .fail (body.length + 1) (.atStart (.unterminated .rawString)) := by
  have hcs : cs.takeWhile (· != rawQuote) ++ cs.dropWhile (· != rawQuote) = cs :=
    List.takeWhile_append_dropWhile
  have hquote := List.head?_dropWhile_not (· != rawQuote) cs
  simp only [rawString]
  generalize cs.takeWhile (· != rawQuote) = body at hcs ⊢
  by_cases hlt : body.length < cs.length
  · rw [if_pos hlt, if_pos hlt]
    cases hd : cs.dropWhile (· != rawQuote) with
    | nil =>
      have hlen := congrArg List.length hcs
      rw [hd, List.append_nil] at hlen
      omega
    | cons q rest =>
      simp only [hd, List.head?_cons, bne_eq_false_iff_eq] at hquote
      have htake : cs.take (body.length + 1) = body ++ [rawQuote] := by
        rw [← hcs, hd, hquote, List.take_length_add_append]
        rfl
      rw [htake, between?_quoted]
  · rw [if_neg hlt, if_neg hlt]

theorem size_rawString (cs : Text) :
    1 ≤ (rawString cs).size ∧ (rawString cs).size ≤ cs.length + 1 := by
  have h := length_takeWhile_le (· != rawQuote) cs
  simp only [rawString_eq_ite]
  split <;> simp only [Reading.size_done, Reading.size_fail] <;> omega

end Quotation

namespace Number

open Number.Decimal (splitFraction exponentOf)

theorem length_digitRun_le (base : Nat) (cs : Text) : (digitRun base cs).length ≤ cs.length :=
  length_takeWhile_le _ cs

/-- The size of a point with the digits behind it. -/
def fractionSize (f : Option Text) : Nat := (f.map fun f => f.length + 1).getD 0

/-- The size of an exponent with its letter. -/
def exponentSize (e : Option (Option Char × Text)) : Nat :=
  (e.map fun e => e.1.toList.length + e.2.length + 1).getD 0

theorem length_splitFraction (cs : Text) :
    fractionSize (splitFraction cs).1 + (splitFraction cs).2.length = cs.length := by
  unfold splitFraction
  split
  · rename_i more
    have h := length_digitRun_le 10 more
    simp only [fractionSize, Option.map_some, Option.getD_some, List.length_drop, List.length_cons]
    omega
  · simp [fractionSize]

theorem exponentSize_le (cs : Text) : exponentSize (exponentOf cs) ≤ cs.length := by
  unfold exponentOf
  split
  · simp [exponentSize]
  · split
    · split
      · rename_i digits
        have h := length_digitRun_le 10 digits
        simp [exponentSize]
        omega
      · rename_i digits
        have h := length_digitRun_le 10 digits
        simp [exponentSize]
        omega
      · rename_i more _ _ _ _
        have h := length_digitRun_le 10 more
        simp [exponentSize]
        omega
    · simp [exponentSize]

theorem size_ofText (cs : Text) :
    (Decimal.ofText cs).size =
      (digitRun 10 cs).length +
        fractionSize (splitFraction (cs.drop (digitRun 10 cs).length)).1 +
          exponentSize (exponentOf (splitFraction (cs.drop (digitRun 10 cs).length)).2) := rfl

theorem size_ofText_le (cs : Text) : (Decimal.ofText cs).size ≤ cs.length := by
  have h₁ := length_digitRun_le 10 cs
  have h₂ := length_splitFraction (cs.drop (digitRun 10 cs).length)
  have h₃ := exponentSize_le (splitFraction (cs.drop (digitRun 10 cs).length)).2
  rw [List.length_drop] at h₂
  rw [size_ofText]
  omega

theorem suffix_le (cs : Text) : suffix cs ≤ cs.length := by
  cases cs with
  | nil => simp [suffix]
  | cons c cs =>
    simp only [suffix, List.length_cons]
    split <;> omega

@[simp] theorem size_close (n : Nat) (form : LiteralForm) (v : Except Cause Value) :
    (close n form v).size = n := rfl

@[simp] theorem size_flawed (n : Nat) (flaw : NumberFlaw) : (flawed n flaw).size = n := rfl

theorem size_prefixed (form : LiteralForm) (base : Nat) (cs : Text) :
    2 ≤ (prefixed form base cs).size ∧ (prefixed form base cs).size ≤ cs.length + 2 := by
  have h₁ := length_digitRun_le (max base 10) cs
  have h₂ := suffix_le (cs.drop (digitRun (max base 10) cs).length)
  rw [List.length_drop] at h₂
  simp only [prefixed]
  repeat' split
  all_goals simp only [size_flawed, size_close]; omega

theorem size_plain (cs : Text) :
    (Decimal.ofText cs).size ≤ (plain cs).size ∧ (plain cs).size ≤ cs.length := by
  have h₁ := size_ofText_le cs
  have h₂ := suffix_le (cs.drop (Decimal.ofText cs).size)
  rw [List.length_drop] at h₂
  simp only [plain]
  repeat' split
  all_goals simp only [size_flawed, size_close]; omega

theorem size_read_le (cs : Text) : (read cs).size ≤ cs.length := by
  rw [read_eq]
  split
  · split
    · rename_i rest _ form base _
      exact (size_prefixed form base rest).2
    · exact (size_plain _).2
  · exact (size_plain cs).2

/-- Whether a numeric literal opens with `c`, followed by `cs`. -/
def opens (c : Char) (cs : Text) : Prop := isDigitIn 10 c ∨ c = '.' ∧ cs.head?.any (isDigitIn 10)

theorem size_ofText_pos {c : Char} {cs : Text} (h : opens c cs) :
    1 ≤ (Decimal.ofText (c :: cs)).size := by
  rw [size_ofText]
  rcases h with h | ⟨rfl, -⟩
  · have hd : digitRun 10 (c :: cs) = c :: digitRun 10 cs := by
      simp [digitRun, isDigitOrSeparator, h]
    simp only [hd, List.length_cons]
    omega
  · have hd : digitRun 10 ('.' :: cs) = [] := by
      rw [digitRun, List.takeWhile_cons_of_neg (by decide)]
    simp only [hd, List.length_nil, List.drop_zero, splitFraction, fractionSize, Option.map_some,
      Option.getD_some]
    omega

theorem size_read_pos {c : Char} {cs : Text} (h : opens c cs) : 1 ≤ (read (c :: cs)).size := by
  have hp := Nat.le_trans (size_ofText_pos h) (size_plain (c :: cs)).1
  rw [read_eq]
  split
  · rename_i rest _
    split
    · rename_i form base _
      have hs := (size_prefixed form base rest).1
      omega
    · exact hp
  · exact hp

end Number

theorem size_symbol (c : Char) (cs : Text) :
    1 ≤ (symbol c cs).size ∧ (symbol c cs).size ≤ cs.length + 1 := by
  rw [symbol_eq_longest]
  split
  · simp
  · rename_i s kind h
    obtain ⟨hmem, hpre, -⟩ := longestSymbol?_eq_some h
    have hne : 0 < s.length := List.length_pos_iff.2 (symbol_ne_nil hmem)
    have hle : s.length ≤ cs.length + 1 := hpre.length_le
    split
    · rename_i hd
      cases cs with
      | nil => simp at hd
      | cons d cs => simp
    · exact ⟨hne, hle⟩

theorem size_word (c : Char) (cs : Text) :
    1 ≤ (word c cs).size ∧ (word c cs).size ≤ cs.length + 1 := by
  have h := length_takeWhile_le Identifier.isContinue cs
  simp only [word, Reading.size_done, List.length_cons]
  omega

/-- Nothing but a symbol can open with `c`, followed by `cs`. -/
structure OpensSymbol (c : Char) (cs : Text) : Prop where
  newline : c ≠ '\n'
  lineComment : ¬(c = '/' ∧ cs.head? = some '/')
  blockComment : ¬(c = '/' ∧ cs.head? = some '*')
  rune : c ≠ '\''
  string : c ≠ '"'
  rawString : c ≠ Quotation.rawQuote
  number : ¬Number.opens c cs
  word : Identifier.isStart c = false

/-- The ways to read a lexeme that opens with `c`, followed by `cs`. -/
inductive Opening (elides : Bool) (c : Char) (cs : Text) : Reading Meaning → Prop
  | newline (h : c = '\n') : Opening elides c cs (.done 1 (.token (lineEnd elides) none))
  | lineComment {rest : Text} (h : c = '/') (hcs : cs = '/' :: rest) :
    Opening elides c cs (Comment.line rest)
  | blockComment {rest : Text} (h : c = '/') (hcs : cs = '*' :: rest) :
    Opening elides c cs (Comment.block rest)
  | rune (h : c = '\'') : Opening elides c cs (Quotation.rune cs)
  | string (h : c = '"') : Opening elides c cs (Quotation.string cs)
  | rawString (h : c = Quotation.rawQuote) : Opening elides c cs (Quotation.rawString cs)
  | number (h : Number.opens c cs) : Opening elides c cs (Number.read (c :: cs))
  | word (h : Identifier.isStart c) : Opening elides c cs (word c cs)
  | symbol (h : OpensSymbol c cs) : Opening elides c cs (symbol c cs)

theorem read_opening (elides : Bool) (c : Char) (cs : Text) :
    Opening elides c cs (read elides (c :: cs)) := by
  simp only [read]
  split
  · exact .newline ‹_›
  split
  · rename_i h
    obtain ⟨rest, rfl⟩ := List.head?_eq_some_iff.1 h.2
    exact .lineComment h.1 rfl
  split
  · rename_i h
    obtain ⟨rest, rfl⟩ := List.head?_eq_some_iff.1 h.2
    exact .blockComment h.1 rfl
  split
  · exact .rune ‹_›
  split
  · exact .string ‹_›
  split
  · exact .rawString ‹_›
  split
  · exact .number ‹_›
  split
  · exact .word ‹_›
  · exact .symbol ⟨‹_›, ‹_›, ‹_›, ‹_›, ‹_›, ‹_›, ‹_›, Bool.eq_false_iff.2 ‹_›⟩

/-- A lexeme takes one character at least, and no more than there are. -/
theorem size_read (elides : Bool) (c : Char) (cs : Text) :
    1 ≤ (read elides (c :: cs)).size ∧ (read elides (c :: cs)).size ≤ cs.length + 1 := by
  have h := read_opening elides c cs
  generalize read elides (c :: cs) = r at h ⊢
  cases h with
  | newline => simp
  | @lineComment rest _ hcs =>
    have hs := Comment.size_line rest
    simp only [hcs, List.length_cons]
    omega
  | @blockComment rest _ hcs =>
    have hs := Comment.size_block rest
    simp only [hcs, List.length_cons]
    omega
  | rune => exact Quotation.size_rune cs
  | string => exact Quotation.size_string cs
  | rawString => exact Quotation.size_rawString cs
  | number h => exact ⟨Number.size_read_pos h, Number.size_read_le (c :: cs)⟩
  | word => exact size_word c cs
  | symbol => exact size_symbol c cs

theorem size_read_le (elides : Bool) (cs : Text) : (read elides cs).size ≤ cs.length := by
  cases cs with
  | nil => simp [read]
  | cons c cs => exact (size_read elides c cs).2

end Lexeme
end GoSyntax
