import GoSyntax.Proofs.Lexeme.Extent

/-! What readings mean: every kind of token has its sort of value, and no reading ends in a state that
no source leads to. -/
namespace GoSyntax

/-- The sorts of values. -/
inductive ValueSort
  | int | float | imaginary | rune | text
  deriving DecidableEq, Repr

def Value.sort : Value → ValueSort
  | .int _ => .int
  | .float _ => .float
  | .imaginary _ => .imaginary
  | .rune _ => .rune
  | .text _ => .text

def LiteralForm.valueSort : LiteralForm → ValueSort
  | .decimalInteger | .octalInteger | .hexInteger | .binaryInteger => .int
  | .float => .float
  | .imaginary => .imaginary
  | .rune => .rune
  | .interpretedString | .rawString => .text

/-- The sort of value that tokens of a kind carry, if they carry one. -/
def Kind.valueSort? : Kind → Option ValueSort
  | .identifier => some .text
  | .literal form => some form.valueSort
  | _ => none

/-- The token carries a value of the sort that its kind asks for, or none where it asks for none. -/
def Token.Proper (t : Token) : Prop := t.value.map Value.sort = t.kind.valueSort?

instance (t : Token) : Decidable t.Proper :=
  inferInstanceAs (Decidable (t.value.map Value.sort = t.kind.valueSort?))

/-- The cause lies in the source: a flaw of its text, or the one exponent of which the magnitude
overflows. The states that no source leads to are none of these. -/
def Cause.IsLexical (cause : Cause) : Prop := (∃ c, cause = .lexical c) ∨ cause = .crash .overflow

theorem Cause.isLexical_lexical (c : LexicalCause) : (Cause.lexical c).IsLexical := Or.inl ⟨c, rfl⟩

namespace Lexeme

/-- The meaning gives a kind the value it asks for. -/
def Meaning.Proper : Meaning → Prop
  | .token kind value => value.map Value.sort = kind.valueSort?
  | .twoDots => True

/-- The reading gives a proper meaning, or a flaw of the source. -/
def Reading.Sound (r : Reading Meaning) : Prop :=
  match r.result with
  | .ok meaning => meaning.Proper
  | .error flaw => flaw.cause.IsLexical

/-- The reading gives a literal with the value it asks for, or a flaw of the source. -/
def Reading.IsLiteral (r : Reading Meaning) : Prop :=
  match r.result with
  | .ok meaning =>
    ∃ form v, meaning = .token (.literal form) (some v) ∧ v.sort = form.valueSort
  | .error flaw => flaw.cause.IsLexical

/-- The reading gives a literal with the value it asks for, or a flaw of the text; it never crashes. -/
def Reading.IsSafe (r : Reading Meaning) : Prop :=
  match r.result with
  | .ok meaning =>
    ∃ form v, meaning = .token (.literal form) (some v) ∧ v.sort = form.valueSort
  | .error flaw => ∃ c, flaw.cause = .lexical c

theorem Reading.IsSafe.literal {r : Reading Meaning} (h : r.IsSafe) : r.IsLiteral := by
  unfold IsSafe at h
  unfold IsLiteral
  split at h
  · exact h
  · exact Or.inl h

theorem Reading.IsSafe.ne_crash {r : Reading Meaning} (h : r.IsSafe) (place : Place) (c : Crash) :
    r.result ≠ .error ⟨place, .crash c⟩ := by
  intro hr
  rw [IsSafe, hr] at h
  obtain ⟨_, ⟨⟩⟩ := h

theorem Reading.IsLiteral.sound {r : Reading Meaning} (h : r.IsLiteral) : r.Sound := by
  unfold IsLiteral at h
  unfold Sound
  split at h
  · obtain ⟨form, v, rfl, hv⟩ := h
    simp [*, Meaning.Proper, Kind.valueSort?]
  · exact h

theorem Reading.IsLiteral.eq_token {r : Reading Meaning} {meaning : Meaning} (h : r.IsLiteral)
    (hm : r.result = .ok meaning) : ∃ form v, meaning = .token (.literal form) (some v) := by
  unfold IsLiteral at h
  rw [hm] at h
  obtain ⟨form, v, rfl, -⟩ := h
  exact ⟨form, v, rfl⟩

theorem literal_atStart (n : Nat) (cause : LexicalCause) :
    (Reading.fail n (.atStart cause) : Reading Meaning).IsLiteral :=
  Cause.isLexical_lexical cause

theorem safe_atStart (n : Nat) (cause : LexicalCause) :
    (Reading.fail n (.atStart cause) : Reading Meaning).IsSafe := ⟨cause, rfl⟩

theorem safe_here (n : Nat) (cause : LexicalCause) :
    (Reading.fail n (.here cause) : Reading Meaning).IsSafe := ⟨cause, rfl⟩

namespace Number

open Number.Decimal (splitFraction exponentOf)

/-- The value belongs to literals of the form, or the literal is at fault. -/
def Belongs (form : LiteralForm) : Except Cause Value → Prop
  | .ok v => v.sort = form.valueSort
  | .error cause => cause.IsLexical

theorem literal_close {n : Nat} {form : LiteralForm} {v : Except Cause Value} (h : Belongs form v) :
    (close n form v).IsLiteral := by
  cases v with
  | ok v =>
    have hv : v.sort = form.valueSort := h
    exact ⟨form, v, rfl, hv⟩
  | error cause => exact h

theorem baseOf?_int {c : Char} {form : LiteralForm} {base : Nat}
    (h : baseOf? c = some (form, base)) : form.valueSort = .int ∧ 0 < base := by
  have hall : ∀ a ∈ ['x', 'X', 'b', 'B', 'o', 'O'], ∀ x ∈ baseOf? a,
      x.1.valueSort = .int ∧ 0 < x.2 := by
    simp [baseOf?, LiteralForm.valueSort]
  exact hall c (mem_of_baseOf? h) _ h

theorem safe_close {n : Nat} {form : LiteralForm} {v : Value} (h : v.sort = form.valueSort) :
    (close n form (.ok v)).IsSafe := ⟨form, v, rfl, h⟩

theorem safe_prefixed {form : LiteralForm} {base : Nat} (hf : form.valueSort = .int)
    (hb : 0 < base) (cs : Text) : (prefixed form base cs).IsSafe := by
  simp only [prefixed]
  split
  · exact safe_atStart _ _
  split
  · exact safe_atStart _ _
  split
  · exact safe_atStart _ _
  rename_i hall _
  have hd : ∀ c ∈ digitRun (max base 10) cs, isDigitOrSeparator base c := by simpa using hall
  obtain ⟨n, -, hn⟩ := integer?_of_digits (mem_withoutSeparators hd) hb
  rw [hn]
  split
  · exact safe_close hf.symm
  · exact safe_close rfl

theorem exponentOf_digits {cs : Text} {e : Option Char × Text} (h : exponentOf cs = some e) :
    ∀ c ∈ withoutSeparators e.2, isDigitIn 10 c := by
  unfold exponentOf at h
  split at h
  · cases h
  split at h
  · split at h <;> cases h <;> exact digits_of_digitRun
  · cases h

theorem exists_exponentValue_ofText (cs : Text) :
    ∃ e, (Decimal.ofText cs).exponentValue? = some e := by
  rw [ofText_eq, Decimal.exponentValue?]
  cases h : exponentOf (splitFraction (cs.drop (digitRun 10 cs).length)).2 with
  | none => exact ⟨0, rfl⟩
  | some e =>
    obtain ⟨n, hn⟩ := exists_numberIn (exponentOf_digits h)
    exact ⟨_, congrArg (Option.map _) hn⟩

theorem mantissa_digits (cs : Text) :
    ∀ c ∈ (Decimal.ofText cs).mantissa, isDigitIn 10 c := by
  apply mem_withoutSeparators
  intro c hc
  rcases List.mem_append.1 hc with hc | hc
  · exact mem_digitRun c hc
  · exact splitFraction_digits _ c hc

theorem isLexical_refusal (e : Int) : (refusal e).IsLexical := by
  unfold refusal
  split
  · exact Or.inr rfl
  · exact Cause.isLexical_lexical _

/-- An exponent that is too large is all that can be wrong with the parts of a literal. -/
theorem belongs_value {cs : Text} {form : LiteralForm} {f : Rat → Value}
    (hf : ∀ q, (f q).sort = form.valueSort) :
    Belongs form ((Decimal.ofText cs).value?.map f) := by
  obtain ⟨e, he⟩ := exists_exponentValue_ofText cs
  obtain ⟨m, hm⟩ := exists_numberIn (mantissa_digits cs)
  simp only [Decimal.value?, he, hm]
  by_cases hle : e.natAbs ≤ exponentLimit
  · simp only [if_pos hle]
    exact hf _
  · simp only [if_neg hle]
    exact isLexical_refusal e

/-- Only a point or an exponent makes a literal without base letter one that can crash. -/
theorem safe_plain {cs : Text} (hf : (Decimal.ofText cs).isFloat = false) : (plain cs).IsSafe := by
  have hw : ∀ c ∈ withoutSeparators (Decimal.ofText cs).whole, isDigitIn 10 c :=
    @digits_of_digitRun 10 cs
  obtain ⟨n, -, hn⟩ := integer?_of_digits hw (by decide)
  simp only [plain, hf, Bool.false_eq_true, if_false]
  split
  · exact safe_atStart _ _
  split
  · exact safe_atStart _ _
  split
  · rw [hn]
    exact safe_close rfl
  split
  · split
    · rename_i h
      obtain ⟨m, -, hm⟩ := integer?_of_digits (List.all_eq_true.1 h) (by decide)
      rw [hm]
      exact safe_close rfl
    · exact safe_atStart _ _
  · rw [hn]
    exact safe_close rfl

theorem literal_plain (cs : Text) : (plain cs).IsLiteral := by
  cases hf : (Decimal.ofText cs).isFloat with
  | false => exact (safe_plain hf).literal
  | true =>
    simp only [plain, hf, if_true]
    split
    · exact literal_atStart _ _
    split
    · exact literal_atStart _ _
    split
    · exact literal_close (belongs_value fun _ => rfl)
    · exact literal_close (belongs_value fun _ => rfl)

theorem literal_read (cs : Text) : (read cs).IsLiteral := by
  rw [read_eq]
  split
  · split
    · rename_i h
      exact (safe_prefixed (baseOf?_int h).1 (baseOf?_int h).2 _).literal
    · exact literal_plain _
  · exact literal_plain _

end Number

namespace Quotation

/-- All that can be wrong with the reading lies in the text. -/
def Blames {α : Type} (r : Reading α) : Prop :=
  ∀ flaw, r.result = .error flaw → ∃ c, flaw.cause = .lexical c

variable {α : Type}

theorem blames_done (n : Nat) (a : α) : Blames (.done n a) := by
  rintro _ ⟨⟩

theorem blames_atStart (n : Nat) (cause : LexicalCause) :
    Blames (.fail n (.atStart cause) : Reading α) := by
  rintro _ ⟨⟩
  exact ⟨cause, rfl⟩

theorem blames_here (n : Nat) (cause : LexicalCause) :
    Blames (.fail n (.here cause) : Reading α) := by
  rintro _ ⟨⟩
  exact ⟨cause, rfl⟩

theorem blames_hexEscape (n : Nat) (cs : Text) : Blames (hexEscape n cs) := by
  simp only [hexEscape]
  split
  · split
    · exact blames_done _ _
    · exact blames_here _ _
  split
  · exact blames_atStart _ _
  · exact blames_here _ _

theorem blames_octalEscape (cs : Text) : Blames (octalEscape cs) := by
  simp only [octalEscape]
  split
  · split
    · split
      · exact blames_done _ _
      · exact blames_here _ _
    · exact blames_here _ _
  · exact blames_here _ _

theorem blames_item (c : Char) (cs : Text) : Blames (item c cs) := by
  unfold item
  split
  · cases cs with
    | nil => exact blames_atStart _ _
    | cons d cs =>
      simp only [escape]
      split
      · exact blames_done _ _
      · exact blames_hexEscape _ _
      · split
        · exact blames_octalEscape _
        · exact blames_here _ _
  · exact blames_done _ _

theorem safe_rune (cs : Text) : (rune cs).IsSafe := by
  cases cs with
  | nil => exact safe_atStart _ _
  | cons c cs =>
    simp only [rune]
    split
    · exact safe_here _ _
    split
    · exact safe_here _ _
    split
    · rename_i flaw h
      exact blames_item c cs flaw h
    split
    · exact safe_atStart _ _
    split
    · exact ⟨_, _, rfl, rfl⟩
    split
    · exact safe_here _ _
    · exact safe_here _ _

theorem blames_stringItems (cs : Text) : Blames (stringItems cs) := by
  fun_induction stringItems cs with
  | case1 => exact blames_atStart _ _
  | case2 => exact blames_here _ _
  | case3 => exact blames_done _ _
  | case4 c cs _ _ r flaw h =>
    rintro _ ⟨⟩
    exact blames_item c cs flaw h
  | case5 c cs _ _ r v _ ih =>
    intro flaw h
    cases hr : (stringItems (cs.drop r.size)).result with
    | error flaw' =>
      obtain rfl : flaw' = flaw := by simpa [Reading.shift, Reading.map, hr, Except.map] using h
      exact ih flaw' hr
    | ok s => simp [Reading.shift, Reading.map, hr, Except.map] at h

theorem safe_string (cs : Text) : (string cs).IsSafe := by
  simp only [string, Reading.IsSafe, Reading.shift, Reading.map]
  cases h : (stringItems cs).result with
  | error flaw => exact blames_stringItems cs flaw h
  | ok s => exact ⟨_, _, rfl, rfl⟩

theorem safe_rawString (cs : Text) : (rawString cs).IsSafe := by
  simp only [rawString_eq_ite]
  split
  · exact ⟨_, _, rfl, rfl⟩
  · exact safe_atStart _ _

theorem literal_rune (cs : Text) : (rune cs).IsLiteral := (safe_rune cs).literal

theorem literal_string (cs : Text) : (string cs).IsLiteral := (safe_string cs).literal

theorem literal_rawString (cs : Text) : (rawString cs).IsLiteral := (safe_rawString cs).literal

end Quotation

theorem sound_block (cs : Text) : (Comment.block cs).Sound := by
  unfold Comment.block
  split
  · rfl
  · exact (literal_atStart _ _).sound

theorem valueSort?_of_mem_symbols {s : Text} {kind : Kind} (h : (s, kind) ∈ symbols) :
    kind.valueSort? = none := by
  have hall : symbols.all (fun x => x.2.valueSort? = none) = true := by decide
  simpa using List.all_eq_true.1 hall (s, kind) h

theorem sound_symbol (c : Char) (cs : Text) : (symbol c cs).Sound := by
  rw [symbol_eq_longest]
  split
  · exact (literal_atStart _ _).sound
  · rename_i s kind h
    have hk := valueSort?_of_mem_symbols (longestSymbol?_eq_some h).1
    split
    · trivial
    · exact hk.symm

theorem sound_word (c : Char) (cs : Text) : (word c cs).Sound := by
  simp only [word, Reading.Sound, Reading.done]
  cases Keyword.ofText? (c :: cs.takeWhile Identifier.isContinue) with
  | none => rfl
  | some k => rfl

theorem valueSort?_lineEnd (elides : Bool) : (lineEnd elides).valueSort? = none := by
  cases elides <;> rfl

theorem valueSort?_sourceEnd (elides : Bool) : (sourceEnd elides).valueSort? = none := by
  cases elides <;> rfl

/-- Every reading gives a proper meaning or a flaw of the source. -/
theorem sound_read (elides : Bool) (cs : Text) : (read elides cs).Sound := by
  cases cs with
  | nil => exact (valueSort?_sourceEnd elides).symm
  | cons c cs =>
    have h := read_opening elides c cs
    generalize read elides (c :: cs) = r at h ⊢
    cases h with
    | newline => exact (valueSort?_lineEnd elides).symm
    | lineComment => rfl
    | @blockComment rest => exact sound_block rest
    | rune => exact (Quotation.literal_rune cs).sound
    | string => exact (Quotation.literal_string cs).sound
    | rawString => exact (Quotation.literal_rawString cs).sound
    | number => exact (Number.literal_read (c :: cs)).sound
    | word => exact sound_word c cs
    | symbol => exact sound_symbol c cs

theorem mem_symbols_dot {s : Text} (h : (s, Kind.delimiter .dot) ∈ symbols) : s = ['.'] := by
  have hall : symbols.all (fun x => x.2 = .delimiter .dot → x.1 = ['.']) = true := by decide
  simpa using List.all_eq_true.1 hall _ h

theorem mem_symbols_kind {s : Text} {kind : Kind} (h : (s, kind) ∈ symbols) :
    kind ≠ .endOfFile ∧ kind.isComment = false := by
  have hall : symbols.all (fun x => x.2 ≠ .endOfFile ∧ x.2.isComment = false) = true := by decide
  simpa using List.all_eq_true.1 hall (s, kind) h

/-- Only two dots are read as two dots. -/
theorem symbol_eq_twoDots {c : Char} {cs : Text} (h : (symbol c cs).result = .ok .twoDots) :
    (symbol c cs).size = 2 ∧ c = '.' ∧ cs.head? = some '.' := by
  rw [symbol_eq_longest] at h ⊢
  split at h
  · simp [Reading.fail] at h
  · rename_i s kind hs
    obtain ⟨hmem, hpre, -⟩ := longestSymbol?_eq_some hs
    split at h
    · rename_i hd
      obtain ⟨rfl, hcs⟩ := hd
      obtain rfl := mem_symbols_dot hmem
      have hc : c = '.' := (List.cons_prefix_cons.1 hpre).1.symm
      simp [*]
    · simp [Reading.done] at h

theorem read_eq_twoDots {elides : Bool} {c : Char} {cs : Text}
    (h : (read elides (c :: cs)).result = .ok .twoDots) :
    (read elides (c :: cs)).size = 2 ∧ c = '.' ∧ cs.head? = some '.' := by
  have ho := read_opening elides c cs
  generalize read elides (c :: cs) = r at h ho ⊢
  have hlit : r.IsLiteral → False := by
    intro hl
    obtain ⟨form, v, hm⟩ := hl.eq_token h
    cases hm
  cases ho with
  | newline => simp [Reading.done] at h
  | lineComment => simp [Comment.line, Reading.done] at h
  | blockComment =>
    unfold Comment.block at h
    split at h <;> simp [Reading.done, Reading.fail] at h
  | rune => exact (hlit (Quotation.literal_rune cs)).elim
  | string => exact (hlit (Quotation.literal_string cs)).elim
  | rawString => exact (hlit (Quotation.literal_rawString cs)).elim
  | number => exact (hlit (Number.literal_read (c :: cs))).elim
  | word =>
    simp only [word, Reading.done, Except.ok.injEq] at h
    split at h <;> simp at h
  | symbol => exact symbol_eq_twoDots h

/-- A lexeme of one character at least is not the end of the source, a comment is longer, and a line
comment opens with two slashes. -/
theorem kind_read {elides : Bool} {c : Char} {cs : Text} {kind : Kind} {v : Option Value}
    (h : (read elides (c :: cs)).result = .ok (.token kind v)) :
    kind ≠ .endOfFile ∧ (kind.isComment → 2 ≤ (read elides (c :: cs)).size) ∧
      (kind = .comment .line → ∃ rest, cs = '/' :: rest ∧
        read elides (c :: cs) = Comment.line rest) := by
  have ho := read_opening elides c cs
  generalize read elides (c :: cs) = r at h ho ⊢
  have hother : kind ≠ .endOfFile → kind.isComment = false →
      kind ≠ .endOfFile ∧ (kind.isComment → 2 ≤ r.size) ∧
        (kind = .comment .line → ∃ rest, cs = '/' :: rest ∧ r = Comment.line rest) := by
    refine fun hend hk => ⟨hend, ?_, ?_⟩
    · intro hcomment
      rw [hk] at hcomment
      cases hcomment
    · rintro rfl
      cases hk
  have hlit : r.IsLiteral → kind ≠ .endOfFile ∧ (kind.isComment → 2 ≤ r.size) ∧
      (kind = .comment .line → ∃ rest, cs = '/' :: rest ∧ r = Comment.line rest) := by
    intro hl
    obtain ⟨form, v, hm⟩ := hl.eq_token h
    cases hm
    exact hother (by simp) rfl
  cases ho with
  | newline =>
    cases h
    cases elides <;> exact hother (by simp [lineEnd]) rfl
  | @lineComment rest _ hcs =>
    have hs := Comment.size_line rest
    cases h
    exact ⟨by simp, fun _ => hs.1, fun _ => ⟨rest, hcs, rfl⟩⟩
  | @blockComment rest =>
    have hs := (Comment.size_block rest).1
    unfold Comment.block at h
    split at h <;> cases h
    exact ⟨by simp, fun _ => hs, by simp⟩
  | rune => exact hlit (Quotation.literal_rune cs)
  | string => exact hlit (Quotation.literal_string cs)
  | rawString => exact hlit (Quotation.literal_rawString cs)
  | number => exact hlit (Number.literal_read (c :: cs))
  | word =>
    simp only [word, Reading.done, Except.ok.injEq] at h
    split at h <;> cases h <;> exact hother (by simp) rfl
  | symbol =>
    rw [symbol_eq_longest] at h
    split at h
    · cases h
    · rename_i s k hs
      have hk := mem_symbols_kind (longestSymbol?_eq_some hs).1
      split at h <;> cases h
      exact hother hk.1 hk.2

end Lexeme
end GoSyntax
