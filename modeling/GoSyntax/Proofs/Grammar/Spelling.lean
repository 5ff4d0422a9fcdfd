import GoSyntax.Proofs.Grammar.Stream
import GoSyntax.Proofs.Tiling
import GoSyntax.Proofs.Tree.Erase

/-! Texts by the words that they are read as. Blanks stand anywhere between words, and a line feed
stands for a semicolon where the word before it asks for one. -/
namespace GoSyntax

open Lexeme

namespace Word

def operator (op : Operator) : Word := ⟨.operator op, op.spelling.toList, none⟩

def delimiter (d : Delimiter) : Word := ⟨.delimiter d, d.spelling.toList, none⟩

def keyword (k : Keyword) : Word := ⟨.keyword k, k.spelling.toList, none⟩

def identifier (name : Text) : Word := ⟨.identifier, name, some (.text name)⟩

def endOfFile : Word := ⟨.endOfFile, [], none⟩

@[simp] theorem kind_operator (op : Operator) : (operator op).kind = .operator op := rfl

@[simp] theorem kind_delimiter (d : Delimiter) : (delimiter d).kind = .delimiter d := rfl

@[simp] theorem kind_keyword (k : Keyword) : (keyword k).kind = .keyword k := rfl

@[simp] theorem kind_identifier (name : Text) : (identifier name).kind = .identifier := rfl

@[simp] theorem kind_endOfFile : endOfFile.kind = .endOfFile := rfl

theorem Stands.of_read {w : Word} (hne : w.text ≠ []) (hk : isSolid w.kind = true)
    (hc : '\x00' ∉ w.text)
    (h : Lexeme.read false w.text = .done w.text.length (.token w.kind w.value)) : w.Stands := by
  refine ⟨hne, hk, hc, fun elides rest hr => ?_⟩
  exact @Lexeme.read_append false elides w.text [] rest _ _ hne hk (by simpa using h) hr

theorem stands_operator (op : Operator) : (operator op).Stands := by
  refine .of_read ?_ rfl ?_ ?_ <;> cases op <;> first | decide | rfl

theorem stands_delimiter {d : Delimiter} (hd : d.isWritten = true) : (delimiter d).Stands := by
  refine .of_read ?_ hd ?_ ?_ <;> cases d <;> first | decide | rfl | cases hd

theorem stands_keyword (k : Keyword) : (keyword k).Stands := by
  refine .of_read ?_ rfl ?_ ?_ <;> cases k <;> first | decide | rfl

theorem stands_letter {c : Char} (hc : c ≠ '\x00')
    (h : Lexeme.read false [c] = .done 1 (.token .identifier (some (.text [c])))) :
    (identifier [c]).Stands :=
  .of_read (by simp [identifier]) rfl (by simpa [identifier] using hc.symm) h

end Word

/-- What is left of a token without its place. A semicolon may not have been written. -/
def Token.word (t : Token) : Word :=
  if t.kind = .delimiter .semicolon then .delimiter .semicolon else ⟨t.kind, t.text, t.value⟩

/-- What is left of a token without its place, a semicolon being as it is written. -/
def Token.bare (t : Token) : Word := ⟨t.kind, t.text, t.value⟩

/-- From `s` on, with line feeds standing for semicolons if `elides`, the words are read up to the
place where `s'` is left. -/
inductive Spells : Bool → Text → List Word → Bool → Text → Prop
  | nil {elides : Bool} {s : Text} : Spells elides s [] elides s
  | blank {elides elides' : Bool} {s s' : Text} {ws : List Word} (h : Spells elides s ws elides' s') :
    Spells elides (' ' :: s) ws elides' s'
  | newline {elides elides' : Bool} {s s' : Text} {ws : List Word}
    (h : Spells false s ws elides' s') :
    Spells elides ('\n' :: s) (if elides then .delimiter .semicolon :: ws else ws) elides' s'
  | word {elides elides' : Bool} {s s' : Text} {ws : List Word} {w : Word} (hw : w.Stands)
    (hk : w.kind = .delimiter .semicolon → w = .delimiter .semicolon)
    (hs : ∀ c ∈ s.head?, endsBefore w.kind w.text c = true)
    (h : Spells w.kind.elidesSemicolon s ws elides' s') :
    Spells elides (w.text ++ s) (w :: ws) elides' s'

variable {elides elides' elides'' : Bool} {s s' s'' : Text} {ws ws' : List Word}

theorem Spells.emptyLine (h : Spells false s ws elides' s') :
    Spells false ('\n' :: s) ws elides' s' := .newline h

theorem Spells.endLine (h : Spells false s ws elides' s') :
    Spells true ('\n' :: s) (.delimiter .semicolon :: ws) elides' s' := .newline h

theorem Spells.trans (h : Spells elides s ws elides' s') (h' : Spells elides' s' ws' elides'' s'') :
    Spells elides s (ws ++ ws') elides'' s'' := by
  induction h with
  | nil => exact h'
  | blank _ ih => exact .blank (ih h')
  | @newline elides _ _ _ _ _ ih =>
    have hn := @Spells.newline elides _ _ _ _ (ih h')
    cases elides <;> exact hn
  | word hw hk hs _ ih => exact .word hw hk hs (ih h')

theorem Spells.clean (h : Spells elides s ws elides' s') (hs : '\x00' ∉ s') : '\x00' ∉ s := by
  induction h with
  | nil => exact hs
  | blank _ ih => simpa using ih hs
  | newline _ ih => simpa using ih hs
  | word hw _ _ _ ih => simpa using ⟨hw.clean, ih hs⟩

/-- The characters that make a longer symbol of `s`. -/
def follows (s : Text) : List Char :=
  symbols.filterMap fun x => if s.isPrefixOf x.1 then (x.1.drop s.length).head? else none

theorem symbolEnds_of_follows {c : Char} (h : c ∉ follows s) (hslash : s ≠ ['/'])
    (hdot : s = ['.'] → isDigitIn 10 c = false) : symbolEnds s c = true := by
  have hall : symbols.all (fun x => !(s ++ [c]).isPrefixOf x.1) = true := by
    refine List.all_eq_true.2 fun x hx => ?_
    cases hp : (s ++ [c]).isPrefixOf x.1 with
    | false => rfl
    | true =>
      obtain ⟨rest, hrest⟩ := List.isPrefixOf_iff_prefix.1 hp
      refine absurd (List.mem_filterMap.2 ⟨x, hx, ?_⟩) h
      have hs : s.isPrefixOf x.1 = true :=
        List.isPrefixOf_iff_prefix.2 ⟨c :: rest, by rw [← hrest]; simp⟩
      rw [if_pos hs, ← hrest]
      simp
  have hdigit : (s == ['.'] && isDigitIn 10 c) = false := by
    cases hd : s == ['.'] with
    | false => rfl
    | true => rw [hdot (by simpa using hd)]; rfl
  have hcomment : (s == ['/'] && (c == '/' || c == '*')) = false := by
    rw [beq_false_of_ne hslash]
    rfl
  rw [symbolEnds, hall, hdigit, hcomment]
  rfl

/-- Delimiters of one character that never open a longer symbol. -/
def isMark : Delimiter → Bool
  | .lparen | .rparen | .lbracket | .rbracket | .lbrace | .rbrace | .comma | .semicolon => true
  | _ => false

theorem symbolEnds_mark {d : Delimiter} (hd : isMark d = true) (c : Char) :
    symbolEnds d.spelling.toList c = true := by
  have hmark : follows d.spelling.toList = [] ∧ d.spelling.toList ≠ ['/'] ∧
      d.spelling.toList ≠ ['.'] := by
    cases d <;> first | decide | cases hd
  exact symbolEnds_of_follows (by simp [hmark.1]) hmark.2.1 fun h => absurd h hmark.2.2

theorem Spells.mark {d : Delimiter} {m : Char} (hd : isMark d = true) (hm : d.spelling.toList = [m])
    (h : Spells (Kind.delimiter d).elidesSemicolon s ws elides' s') :
    Spells elides (m :: s) (.delimiter d :: ws) elides' s' := by
  have hstands : (Word.delimiter d).Stands := by
    refine Word.stands_delimiter ?_
    cases d <;> first | rfl | cases hd
  have hword := @Spells.word elides elides' s s' ws (.delimiter d) hstands
    (fun hk => by cases hk; rfl) (fun c _ => symbolEnds_mark hd c) h
  have htext : (Word.delimiter d).text = [m] := hm
  rwa [htext] at hword

/-- The characters that follow a part in print. -/
def isSoft (c : Char) : Bool := [' ', ',', ')', ']', ';', '(', '\x7d', '\n'].contains c

theorem not_continue_of_soft {c : Char} (h : isSoft c = true) :
    Identifier.isContinue c = false ∧ c ≠ '.' := by
  simp only [isSoft, List.contains_eq_mem, List.mem_cons, List.not_mem_nil, or_false,
    decide_eq_true_eq] at h
  rcases h with rfl | rfl | rfl | rfl | rfl | rfl | rfl | rfl <;> decide

/-- Before the characters that `ok` allows, the text is read as the words, of which the last may end a
statement. -/
def SpelledBefore (ok : Char → Bool) (s : Text) (ws : List Word) : Prop :=
  ∀ elides rest, (∀ c ∈ rest.head?, ok c = true) → Spells elides (s ++ rest) ws true rest

/-- The text is read as the words before anything that follows a part in print. -/
abbrev Spelled := SpelledBefore isSoft

theorem SpelledBefore.mono {ok ok' : Char → Bool} (h : SpelledBefore ok s ws)
    (hok : ∀ c, ok' c = true → ok c = true) : SpelledBefore ok' s ws :=
  fun elides rest hrest => h elides rest fun c hc => hok c (hrest c hc)

theorem spelled_word {w : Word} {ok : Char → Bool} (h : w.Stands)
    (he : w.kind.elidesSemicolon = true) (hok : ∀ c, ok c = true → endsBefore w.kind w.text c = true) :
    SpelledBefore ok w.text [w] := by
  intro elides rest hrest
  have hk : w.kind ≠ .delimiter .semicolon := by
    intro hk
    rw [hk] at he
    cases he
  refine .word h (fun hk' => absurd hk' hk) (fun c hc => hok c (hrest c hc)) ?_
  rw [he]
  exact .nil

/-- An identifier also ends before a dot. -/
theorem spelled_identifier {name : Text} (h : (Word.identifier name).Stands) :
    SpelledBefore (fun c => isSoft c || c == '.') name [.identifier name] := by
  refine spelled_word h rfl fun c hc => ?_
  simp only [Bool.or_eq_true, beq_iff_eq] at hc
  rcases hc with hc | rfl
  · simp [Word.identifier, endsBefore, not_continue_of_soft hc]
  · show (!Identifier.isContinue '.') = true
    decide

theorem spelled_literal {form : LiteralForm} {raw : Text} {value : Option Value}
    (h : Word.Stands ⟨.literal form, raw, value⟩) : Spelled raw [⟨.literal form, raw, value⟩] :=
  spelled_word h rfl fun c hc => by simp [endsBefore, not_continue_of_soft hc]

/-- A closing bracket ends a part before any character. -/
theorem Spells.close {d : Delimiter} {m : Char} (hd : isMark d = true) (hm : d.spelling.toList = [m])
    (he : (Kind.delimiter d).elidesSemicolon = true) (rest : Text) :
    Spells elides (m :: rest) [.delimiter d] true rest := by
  refine .mark hd hm ?_
  rw [he]
  exact .nil

/-- Words with `sep` between them. -/
def sepWords (sep : Word) : List (List Word) → List Word
  | [] => []
  | [ws] => ws
  | ws :: ws' :: l => ws ++ sep :: sepWords sep (ws' :: l)

/-- Parts one after the other, with `sep` between any two of them and perhaps behind the last. -/
inductive Separated (sep : Word) : List (List Word) → List Word → Prop
  | nil : Separated sep [] []
  | last (ws : List Word) : Separated sep [ws] ws
  | cons (ws : List Word) {l : List (List Word)} {vs : List Word} (h : Separated sep l vs) :
    Separated sep (ws :: l) (ws ++ sep :: vs)

theorem separated_sepWords (sep : Word) (l : List (List Word)) : Separated sep l (sepWords sep l) := by
  induction l with
  | nil => exact .nil
  | cons ws l ih =>
    cases l with
    | nil => exact .last ws
    | cons ws' l => exact .cons ws ih

theorem Separated.length_le {sep : Word} {l : List (List Word)} {us : List Word}
    (h : Separated sep l us) (hl : ∀ ws ∈ l, ws ≠ []) : l.length ≤ us.length := by
  induction h with
  | nil => simp
  | last ws =>
    exact List.length_pos_iff.2 (hl ws List.mem_cons_self)
  | cons ws _ ih =>
    have hrest := ih fun v hv => hl v (List.mem_cons_of_mem _ hv)
    simp only [List.length_cons, List.length_append]
    omega

theorem join_cons (sep : String) (a b : Text) (l : List Text) (rest : Text) :
    Text.join sep (a :: b :: l) ++ rest = a ++ (sep.toList ++ (Text.join sep (b :: l) ++ rest)) := by
  simp [Text.join, List.intercalate]

/-- Parts with a mark and a blank between them. -/
theorem spells_join {d : Delimiter} {m : Char} (sep : String) (hd : isMark d = true)
    (hm : d.spelling.toList = [m]) (hsep : sep.toList = [m, ' ']) (hsoft : isSoft m = true)
    {items : List (Text × List Word)} (hi : ∀ i ∈ items, Spelled i.1 i.2) (rest : Text)
    (hrest : ∀ c ∈ rest.head?, isSoft c = true) (elides : Bool) :
    ∃ elides', Spells elides (Text.join sep (items.map Prod.fst) ++ rest)
      (sepWords (.delimiter d) (items.map Prod.snd)) elides' rest := by
  induction items generalizing elides with
  | nil => exact ⟨elides, .nil⟩
  | cons i items ih =>
    have hspelled := hi i List.mem_cons_self
    cases items with
    | nil =>
      have hjoin : Text.join sep [i.1] = i.1 := by simp [Text.join, List.intercalate]
      simp only [List.map_cons, List.map_nil, hjoin]
      exact ⟨true, hspelled elides rest hrest⟩
    | cons j items =>
      obtain ⟨elides', htail⟩ := ih (fun k hk => hi k (List.mem_cons_of_mem _ hk))
        (Kind.delimiter d).elidesSemicolon
      simp only [List.map_cons, join_cons, sepWords]
      refine ⟨elides', (hspelled elides _ ?_).trans ?_⟩
      · rw [hsep]
        rintro _ ⟨⟩
        exact hsoft
      · rw [hsep]
        exact .mark hd hm htail.blank

theorem spells_parens {items : List (Text × List Word)} (hi : ∀ i ∈ items, Spelled i.1 i.2)
    (elides : Bool) (rest : Text) :
    Spells elides ('(' :: (Text.join ", " (items.map Prod.fst) ++ ')' :: rest))
      (.delimiter .lparen :: (sepWords (.delimiter .comma) (items.map Prod.snd) ++
        [.delimiter .rparen])) true rest := by
  obtain ⟨elides', hjoin⟩ := spells_join (d := .comma) ", " rfl rfl rfl (by decide) hi
    (')' :: rest) (by simp; decide) false
  exact .mark rfl rfl (hjoin.trans (.close (d := .rparen) rfl rfl rfl rest))

theorem spells_braced {items : List (Text × List Word)} (hi : ∀ i ∈ items, Spelled i.1 i.2)
    (elides : Bool) (rest : Text) :
    Spells elides (Text.braced (items.map Prod.fst) ++ rest)
      (.delimiter .lbrace :: (sepWords (.delimiter .semicolon) (items.map Prod.snd) ++
        [.delimiter .rbrace])) true rest := by
  cases items with
  | nil => exact .mark (d := .lbrace) rfl rfl (.close (d := .rbrace) rfl rfl rfl rest)
  | cons i items =>
    obtain ⟨elides', hjoin⟩ := spells_join (d := .semicolon) "; " rfl rfl rfl (by decide) hi
      (' ' :: '\x7d' :: rest) (by simp; decide) false
    have hbody := hjoin.trans (Spells.close (d := .rbrace) rfl rfl rfl rest).blank
    have hall : Spells elides _ _ true rest :=
      (Spells.mark (d := .lbrace) (m := '\x7b') rfl rfl hbody.blank).blank
    simpa [Text.braced] using hall

theorem Text.head_braced (texts : List Text) (rest : Text) :
    ∀ c ∈ (Text.braced texts ++ rest).head?, Identifier.isContinue c = false := by
  unfold Text.braced
  split <;> (rintro _ ⟨⟩; decide)

/-- The words behind the first part each follow a separator. -/
theorem sepWords_eq_flatMap (sep : Word) (ws : List Word) (l : List (List Word)) :
    sepWords sep (ws :: l) = ws ++ l.flatMap (sep :: ·) := by
  induction l generalizing ws with
  | nil => simp [sepWords]
  | cons v l ih => rw [sepWords, ih, List.flatMap_cons, List.cons_append]

theorem Spells.operator {op : Operator}
    (hs : ∀ c ∈ s.head?, symbolEnds op.spelling.toList c = true)
    (h : Spells (Kind.operator op).elidesSemicolon s ws elides' s') :
    Spells elides (op.spelling.toList ++ s) (.operator op :: ws) elides' s' :=
  .word (w := .operator op) (Word.stands_operator op) (fun hk => by cases hk) hs h

theorem Spells.keyword {k : Keyword} (hs : ∀ c ∈ s.head?, Identifier.isContinue c = false)
    (h : Spells (Kind.keyword k).elidesSemicolon s ws elides' s') :
    Spells elides (k.spelling.toList ++ s) (.keyword k :: ws) elides' s' := by
  refine .word (w := .keyword k) (Word.stands_keyword k) (fun hk => by cases hk) ?_ h
  intro c hc
  simp [Word.keyword, endsBefore, hs c hc]

theorem mem_symbols_of_symbol {c : Char} {cs : Text} {m : Meaning}
    (h : (symbol c cs).result = .ok m) : ∃ s kind, (c :: s, kind) ∈ symbols ∧
      (m = .token kind none ∨ m = .twoDots) := by
  rw [symbol_eq_longest] at h
  split at h
  · cases h
  · rename_i s kind hs
    obtain ⟨hmem, hpre, -⟩ := longestSymbol?_eq_some hs
    obtain ⟨d, ds, rfl⟩ := List.exists_cons_of_ne_nil (symbol_ne_nil hmem)
    obtain ⟨rfl, -⟩ := List.cons_prefix_cons.1 hpre
    refine ⟨ds, kind, hmem, ?_⟩
    split at h
    · exact Or.inr (Except.ok.inj h).symm
    · exact Or.inl (Except.ok.inj h).symm

/-- The first character of an identifier. -/
theorem head_identifier {name : Text} (h : (Word.identifier name).Stands) :
    ∃ c cs, name = c :: cs ∧ Identifier.isStart c = true := by
  obtain ⟨c, cs, hc⟩ := List.exists_cons_of_ne_nil h.ne_nil
  have hread := h.read false [] (by simp)
  rw [List.append_nil, hc] at hread
  refine ⟨c, cs, hc, ?_⟩
  have hresult := congrArg Reading.result hread
  have ho := read_opening false c cs
  generalize Lexeme.read false (c :: cs) = r at hresult ho
  have hlit : ¬r.IsLiteral := by
    intro hl
    obtain ⟨form, v, hm⟩ := hl.eq_token hresult
    cases hm
  cases ho with
  | newline => cases hresult
  | lineComment => cases hresult
  | blockComment =>
    unfold Comment.block at hresult
    split at hresult <;> cases hresult
  | rune => exact absurd (Quotation.literal_rune cs) hlit
  | string => exact absurd (Quotation.literal_string cs) hlit
  | rawString => exact absurd (Quotation.literal_rawString cs) hlit
  | number => exact absurd (Number.literal_read (c :: cs)) hlit
  | word hs => exact hs
  | symbol =>
    -- A symbol has no value.
    obtain ⟨s, kind, -, hm⟩ := mem_symbols_of_symbol hresult
    rcases hm with hm | hm <;> cases hm

/-- The characters that may follow a unary operator in the same symbol. -/
def operatorTails : List Char := ['+', '-', '=', '&', '^']

def Kind.isOperator : Kind → Bool
  | .operator _ => true
  | _ => false

/-- Only operators open with such a character. -/
theorem operator_of_tail {c : Char} {cs : Text} {kind : Kind} {v : Option Value}
    (hc : c ∈ operatorTails)
    (h : (Lexeme.read elides (c :: cs)).result = .ok (.token kind v)) : kind.isOperator = true := by
  have hread : Lexeme.read elides (c :: cs) = symbol c cs := by
    refine read_symbol ?_
    simp only [operatorTails, List.mem_cons, List.not_mem_nil, or_false] at hc
    rcases hc with rfl | rfl | rfl | rfl | rfl <;>
      exact ⟨by decide, by simp, by simp, by decide, by decide, by decide,
        by simp [Number.opens]; decide, by decide⟩
  rw [hread] at h
  obtain ⟨s, kind', hmem, hm⟩ := mem_symbols_of_symbol h
  have hall : symbols.all (fun x => x.1.head?.all fun c =>
      !operatorTails.contains c || x.2.isOperator) = true := by decide
  have hop := List.all_eq_true.1 hall _ hmem
  rcases hm with hm | hm
  · cases hm
    simpa [hc] using hop
  · cases hm

/-- The character makes no longer symbol of a unary operator. -/
theorem Word.Stands.head_tail {w : Word} (h : w.Stands) (hk : w.kind.isOperator = false) :
    ∃ c cs, w.text = c :: cs ∧ c ∉ operatorTails := by
  obtain ⟨c, cs, hc⟩ := List.exists_cons_of_ne_nil h.ne_nil
  have hread := h.read false [] (by simp)
  rw [List.append_nil, hc] at hread
  refine ⟨c, cs, hc, fun hmem => ?_⟩
  rw [operator_of_tail hmem (congrArg Reading.result hread)] at hk
  cases hk

theorem symbolEnds_unary {op : Operator} (hop : op.isUnary = true) {c : Char}
    (hc : c ∉ operatorTails) : symbolEnds op.spelling.toList c = true := by
  have hsub : (follows op.spelling.toList).all operatorTails.contains = true ∧
      op.spelling.toList ≠ ['/'] ∧ op.spelling.toList ≠ ['.'] := by
    cases op <;> first | decide | cases hop
  refine symbolEnds_of_follows (fun hmem => hc ?_) hsub.2.1 fun h => absurd h hsub.2.2
  simpa using List.all_eq_true.1 hsub.1 c hmem

theorem symbolEnds_blank (s : Text) : symbolEnds s ' ' = true := symbolEnds_gap s rfl

theorem Word.Stands.endsBefore_blank {w : Word} (h : w.Stands) :
    endsBefore w.kind w.text ' ' = true :=
  endsBefore_gap h.solid w.text rfl

/-- A dot before an identifier. -/
theorem Spells.dot (hs : ∀ c ∈ s.head?, Identifier.isStart c = true)
    (h : Spells false s ws elides' s') :
    Spells elides ('.' :: s) (.delimiter .dot :: ws) elides' s' := by
  refine .word (w := .delimiter .dot) stands_dot (fun hk => by cases hk) ?_ h
  intro c hc
  have hstart := hs c hc
  refine symbolEnds_of_follows (s := ['.']) ?_ (by decide) fun _ => ?_
  · have hf : follows ['.'] = ['.'] := by decide
    rw [hf, List.mem_singleton]
    rintro rfl
    revert hstart
    decide
  · cases hd : isDigitIn 10 c with
    | false => rfl
    | true =>
      rw [isStart_of_digit hd] at hstart
      cases hstart

/-- The character can open a lexeme behind blanks. -/
def Opens (c : Char) : Prop := Lexer.isBlank c = false ∧ c ≠ Mark.bom

instance (c : Char) : Decidable (Opens c) :=
  inferInstanceAs (Decidable (Lexer.isBlank c = false ∧ c ≠ Mark.bom))

theorem opens_of_isStart {c : Char} (h : Identifier.isStart c = true) : Opens c := by
  refine ⟨?_, ?_⟩
  · cases hb : Lexer.isBlank c with
    | false => rfl
    | true =>
      simp only [Lexer.isBlank, Bool.or_eq_true, beq_iff_eq] at hb
      rcases hb with (rfl | rfl) | rfl <;> revert h <;> decide
  · rintro rfl
    have hbom : Identifier.isStart Mark.bom = false := by decide +kernel
    rw [hbom] at h
    cases h

theorem opens_of_digit {c : Char} (h : isDigitIn 10 c = true) : Opens c := by
  obtain ⟨h₁, h₂⟩ := decimal_range h
  refine ⟨?_, ?_⟩
  · cases hb : Lexer.isBlank c with
    | false => rfl
    | true =>
      simp only [Lexer.isBlank, Bool.or_eq_true, beq_iff_eq] at hb
      rcases hb with (rfl | rfl) | rfl <;> revert h₁ <;> decide
  · rintro rfl
    revert h₂
    decide

theorem opens_of_symbol {s : Text} {kind : Kind} (h : (s, kind) ∈ symbols) :
    ∀ c ∈ s.head?, Opens c := by
  have hall : symbols.all (fun x => x.1.head?.all fun c => decide (Opens c)) = true := by decide
  have hs := List.all_eq_true.1 hall (s, kind) h
  intro c hc
  rw [hc] at hs
  simpa using hs

theorem opens_of_read {c : Char} {cs : Text} {m : Meaning}
    (h : (Lexeme.read elides (c :: cs)).result = .ok m) : Opens c := by
  have ho := read_opening elides c cs
  generalize Lexeme.read elides (c :: cs) = r at h ho
  cases ho with
  | newline hc => rw [hc]; decide
  | lineComment hc _ => rw [hc]; decide
  | blockComment hc _ => rw [hc]; decide
  | rune hc => rw [hc]; decide
  | string hc => rw [hc]; decide
  | rawString hc => rw [hc]; decide
  | number hn =>
    rcases hn with hd | ⟨hc, -⟩
    · exact opens_of_digit hd
    · rw [hc]; decide
  | word hs => exact opens_of_isStart hs
  | symbol =>
    obtain ⟨s, kind, hmem, -⟩ := mem_symbols_of_symbol h
    exact opens_of_symbol hmem c rfl

theorem Word.Stands.head {w : Word} (h : w.Stands) : ∃ c cs, w.text = c :: cs ∧ Opens c := by
  obtain ⟨c, cs, hc⟩ := List.exists_cons_of_ne_nil h.ne_nil
  have hread := h.read false [] (by simp)
  rw [List.append_nil, hc] at hread
  exact ⟨c, cs, hc, opens_of_read (congrArg Reading.result hread)⟩

namespace Lexer

variable {x : Lexer}

theorem ofText_clean (file : String) {s : Text} (hs : '\x00' ∉ s) :
    Lexer.ofText file s = .ok ⟨⟨s, [], .origin file⟩, false, none, [], 0, false⟩ := by
  have hdecode : Utf8.decode (Feed.ofText s).octets = s.map .ok := by
    rw [Feed.ofText, Feed.octets_ofBytes]
    exact Utf8.decode_encode hs
  have hsplit : ∀ s : Text, Break.split (s.map .ok) = (s, []) := by
    intro s
    induction s with
    | nil => rfl
    | cons c s ih => simp only [List.map_cons, Break.split, ih]
  simp only [Lexer.ofText, Lexer.ofFeed, Cursor.ofOctets, hdecode, hsplit]

/-- Behind what may be skipped the lexer has `s` ahead of it. -/
structure At (x : Lexer) (elides : Bool) (s : Text) : Prop where
  queued : x.queued = none
  breaks : x.cursor.breaks = []
  elides : x.elides = elides
  ahead : ∃ blanks, Blanks x.cursor.offset blanks ∧ x.cursor.ahead = blanks ++ s

theorem At.of_ahead (hq : x.queued = none) (hb : x.cursor.breaks = []) (ha : x.cursor.ahead = s) :
    At x x.elides s :=
  ⟨hq, hb, rfl, [], Or.inl (by simp), ha⟩

theorem at_start (file : String) (s : Text) :
    At ⟨⟨s, [], .origin file⟩, false, none, [], 0, false⟩ false s :=
  .of_ahead rfl rfl rfl

theorem At.blanks {l : Text} (h : At x elides (l ++ s)) (hl : ∀ c ∈ l, isBlank c = true) :
    At x elides s := by
  obtain ⟨hq, hb, he, blanks, hblanks, ha⟩ := h
  exact ⟨hq, hb, he, blanks ++ l, hblanks.append hl, by rw [ha, List.append_assoc]⟩

theorem At.blank (h : At x elides (' ' :: s)) : At x elides s :=
  At.blanks (l := [' ']) h (by simp [isBlank])

theorem blankCount_eq {x : Cursor} {blanks : Text} (hb : Blanks x.offset blanks)
    (ha : x.ahead = blanks ++ s) (hs : ∀ c ∈ s.head?, Opens c) : blankCount x = blanks.length := by
  have hstop : ∀ c ∈ s.head?, isBlank c = false := fun c hc => (hs c hc).1
  have htake : ∀ l : Text, (∀ c ∈ l, isBlank c = true) → (l ++ s).takeWhile isBlank = l :=
    fun l hl => takeWhile_append hl hstop
  unfold blankCount
  rcases hb with hb | ⟨hi, bs, rfl, hb⟩
  · rw [ha]
    cases hbs : blanks ++ s with
    | nil =>
      rw [List.append_eq_nil_iff] at hbs
      simp [hbs.1]
    | cons c cs =>
      have hc : c ≠ Mark.bom := by
        cases blanks with
        | nil =>
          rw [List.nil_append] at hbs
          exact (hs c (by rw [hbs]; rfl)).2
        | cons b bs =>
          cases hbs
          have hb := hb c List.mem_cons_self
          rintro rfl
          revert hb
          decide
      simp only [hc, false_and, if_false]
      rw [← hbs, htake blanks hb]
  · simp only [ha, List.cons_append, hi, and_self, if_true, htake bs hb, List.length_cons]
    omega

theorem At.start (h : At x elides s) (hs : ∀ c ∈ s.head?, Opens c) : x.start.ahead = s := by
  obtain ⟨-, -, -, blanks, hblanks, ha⟩ := h
  rw [Lexer.start, Cursor.skip_ahead, blankCount_eq hblanks ha hs, ha, List.drop_left]

/-- The next step is made of what is read ahead. -/
theorem At.next_eq (h : At x elides s) (hs : ∀ c ∈ s.head?, Opens c) {n : Nat}
    {meaning : Lexeme.Meaning} (hr : Lexeme.read elides s = .done n meaning) :
    x.next = x.filled.produce (x.text ++ x.blanks) x.lexeme x.start.mark meaning ∧
      x.lexeme = s.take n ∧ x.stop.ahead = s.drop n := by
  have ha := h.start hs
  have hreading : x.reading = .done n meaning := by rw [reading, ha, h.elides, hr]
  have hf₁ : (x.cursor.take (blankCount x.cursor)).fault = none := by
    rw [Cursor.take_of_breaks_nil h.breaks]
  have hf₂ : (x.start.take x.reading.size).fault = none := by
    rw [Cursor.take_of_breaks_nil (by exact h.breaks)]
  refine ⟨?_, ?_, ?_⟩
  · simp only [Lexer.next, h.queued, scan_eq hf₁, readLexeme_eq hf₂, hreading]
    rfl
  · rw [lexeme, ha, hreading]
    rfl
  · rw [stop, Cursor.skip_ahead, ha, hreading]
    rfl

/-- The lexeme ahead is what is read next. -/
theorem At.next (h : At x elides s) (hs : ∀ c ∈ s.head?, Opens c) {n : Nat} {kind : Kind}
    {v : Option Value} (hr : Lexeme.read elides s = .done n (.token kind v))
    (hk : kind.isComment = false) :
    (∃ t : Token, x.next.outcome = .ok t ∧ t.kind = kind ∧ t.text = s.take n ∧ t.value = v) ∧
      At x.next.after kind.elidesSemicolon (s.drop n) := by
  obtain ⟨hnext, hlexeme, hstop⟩ := h.next_eq hs hr
  have hqueued : queuedBehind x.elides kind x.lexeme x.stop.mark = none := by
    refine if_neg fun hc => ?_
    rw [hc.1] at hk
    cases hk
  rw [hnext]
  have hafter := @At.of_ahead (s.drop n)
    (x.filled.produce (x.text ++ x.blanks) x.lexeme x.start.mark (.token kind v)).after
    hqueued h.breaks hstop
  have helides : (x.filled.produce (x.text ++ x.blanks) x.lexeme x.start.mark
      (.token kind v)).after.elides = kind.elidesSemicolon := elides_emit _ _ hk
  rw [helides] at hafter
  exact ⟨⟨_, rfl, rfl, hlexeme, rfl⟩, hafter⟩

/-- A word ahead that nothing goes on with is the next token. -/
theorem At.next_word {w : Word} (h : At x elides (w.text ++ s)) (hw : w.Stands)
    (hs : ∀ c ∈ s.head?, endsBefore w.kind w.text c = true) :
    (∃ t : Token, x.next.outcome = .ok t ∧ t.bare = w) ∧
      At x.next.after w.kind.elidesSemicolon s := by
  obtain ⟨c, cs, hc, hopens⟩ := hw.head
  have hcom : w.kind.isComment = false := by
    have hsolid := hw.solid
    cases hkind : w.kind with
    | comment f => rw [hkind] at hsolid; cases hsolid
    | _ => rfl
  obtain ⟨⟨t, ht, htk, htext, hval⟩, hafter⟩ :=
    h.next (by simpa [hc] using hopens) (hw.read elides s hs) hcom
  rw [List.take_left] at htext
  rw [List.drop_left] at hafter
  exact ⟨⟨t, ht, by rw [Token.bare, htk, htext, hval]⟩, hafter⟩

end Lexer

/-- A word that stands by itself is no end of a source, and arrives as it is. -/
theorem Word.Stands.visible {t : Token} (h : t.bare.Stands) :
    t.kind ≠ .endOfFile ∧ t.visible? = some t := by
  have hsolid : isSolid t.kind = true := h.solid
  constructor
  · intro hk
    rw [hk] at hsolid
    cases hsolid
  unfold Token.visible?
  split
  · rename_i hk
    rw [hk] at hsolid
    cases hsolid
  · rename_i hk
    rw [hk] at hsolid
    cases hsolid
  · rename_i hk
    rw [hk] at hsolid
    cases hsolid
  · rfl

/-- A lexer at a spelled text gives its words, and then what it gives at the place where that text
ends. -/
theorem Spells.yields (h : Spells elides s ws elides' s') {x : Lexer} (hx : x.At elides s)
    {E : List Token → Prop} (hend : ∀ y : Lexer, y.At elides' s' → ∃ ts, y.Yields ts ∧ E ts) :
    ∃ us ts, x.Yields (us ++ ts) ∧ (us.filterMap Token.visible?).map Token.word = ws ∧ E ts := by
  induction h generalizing x with
  | nil =>
    obtain ⟨ts, hts, he⟩ := hend x hx
    exact ⟨[], ts, hts, rfl, he⟩
  | blank _ ih => exact ih hx.blank hend
  | @newline elides elides' s s' ws _ ih =>
    have hread : Lexeme.read elides ('\n' :: s) = .done 1 (.token (lineEnd elides) none) := rfl
    have hopens : ∀ c ∈ ('\n' :: s).head?, Opens c := by
      rintro _ ⟨⟩
      decide
    obtain ⟨⟨t, ht, hk, -, -⟩, hafter⟩ := hx.next hopens hread (Lexer.lineEnd_sane elides).1
    rw [(Lexer.lineEnd_sane elides).2] at hafter
    obtain ⟨us, ts, hts, hw, he⟩ := ih hafter hend
    refine ⟨t :: us, ts, .more ht ?_ hts, ?_, he⟩
    · rw [hk]
      cases elides <;> simp [lineEnd]
    · cases elides with
      | true => simp [Token.visible?, hk, lineEnd, Token.word, Token.withKind, hw]
      | false => simp [Token.visible?, hk, lineEnd, hw]
  | @word elides elides' s s' ws w hw hk hs _ ih =>
    obtain ⟨⟨t, ht, rfl⟩, hafter⟩ := hx.next_word hw hs
    obtain ⟨us, ts, hts, hwords, he⟩ := ih hafter hend
    have hword : t.word = t.bare := by
      unfold Token.word
      by_cases hsemi : t.kind = .delimiter .semicolon
      · rw [if_pos hsemi, hk hsemi]
      · rw [if_neg hsemi, Token.bare]
    exact ⟨t :: us, ts, .more ht hw.visible.1 hts, by simp [hw.visible.2, hword, hwords], he⟩

/-- What arrives at the end of a source: the end, and before it a semicolon without text if the last
token asks for one. -/
def Ending : Bool → List Token → Prop
  | true, ts => ∃ t u, ts = [t, u] ∧ t.kind = .delimiter .semicolon ∧ t.text = [] ∧
    u.word = .endOfFile
  | false, ts => ∃ u, ts = [u] ∧ u.word = .endOfFile

def endWords (elides : Bool) : List Word :=
  if elides then [.delimiter .semicolon, .endOfFile] else [.endOfFile]

theorem Ending.words {ts : List Token} (h : Ending elides ts) : ts.map Token.word = endWords elides := by
  cases elides with
  | true =>
    obtain ⟨t, u, rfl, hk, -, hu⟩ := h
    have ht : t.word = .delimiter .semicolon := if_pos hk
    simp [endWords, ht, hu]
  | false =>
    obtain ⟨u, rfl, hu⟩ := h
    simp [endWords, hu]

/-- What is handed out at the end of a source. -/
def closing (elides : Bool) : List Word :=
  if elides then [⟨.delimiter .elidedSemicolon, [], none⟩, .endOfFile] else [.endOfFile]

theorem Lexer.At.yields_closing {x : Lexer} (h : x.At elides []) :
    ∃ us, x.Yields us ∧ us.map Token.bare = closing elides := by
  have hlast : ∀ {y : Lexer}, y.At false [] → ∃ u, y.Yields [u] ∧ u.bare = .endOfFile := by
    intro y hy
    have hread : Lexeme.read false [] = .done 0 (.token .endOfFile none) := rfl
    obtain ⟨⟨u, hu, hk, htext, hval⟩, -⟩ := hy.next (by simp) hread rfl
    exact ⟨u, .last hu hk, by simp [Token.bare, hk, htext, hval, Word.endOfFile]⟩
  cases elides with
  | false =>
    obtain ⟨u, hu, hbare⟩ := hlast h
    exact ⟨[u], hu, by simp [hbare, closing]⟩
  | true =>
    have hread : Lexeme.read true [] = .done 0 (.token (.delimiter .elidedSemicolon) none) := rfl
    obtain ⟨⟨t, ht, hk, htext, hval⟩, hafter⟩ := h.next (by simp) hread rfl
    obtain ⟨u, hu, hbare⟩ := hlast hafter
    have hsemi : t.bare = ⟨.delimiter .elidedSemicolon, [], none⟩ := by
      rw [Token.bare, hk, htext, hval]
      rfl
    exact ⟨[t, u], .more ht (by simp [hk]) hu, by simp [closing, hsemi, hbare]⟩

theorem Ending.of_closing {us : List Token} (h : us.map Token.bare = closing elides) :
    Ending elides (us.filterMap Token.visible?) := by
  have hlast : ∀ {u : Token}, u.bare = .endOfFile → u.visible? = some u ∧ u.word = .endOfFile := by
    intro u hu
    have hk : u.kind = .endOfFile := congrArg Word.kind hu
    exact ⟨Token.visible?_endOfFile hk, (if_neg (by simp [hk])).trans hu⟩
  cases elides with
  | false =>
    obtain ⟨u, rfl, hu⟩ := List.map_eq_singleton_iff.1 h
    exact ⟨u, by simp [hlast hu], (hlast hu).2⟩
  | true =>
    obtain ⟨t, us, rfl, ht, hus⟩ := List.map_eq_cons_iff.1 h
    obtain ⟨u, rfl, hu⟩ := List.map_eq_singleton_iff.1 hus
    have hk : t.kind = .delimiter .elidedSemicolon := congrArg Word.kind ht
    have hsemi : t.visible? = some (t.withKind (.delimiter .semicolon)) := by
      simp [Token.visible?, hk]
    exact ⟨t.withKind (.delimiter .semicolon), u, by simp [hsemi, hlast hu], rfl,
      congrArg Word.text ht, (hlast hu).2⟩

theorem Lexer.At.yields_end {x : Lexer} (h : x.At elides []) :
    ∃ ts, x.Yields ts ∧ Ending elides (ts.filterMap Token.visible?) := by
  obtain ⟨us, hus, hbare⟩ := h.yields_closing
  exact ⟨us, hus, .of_closing hbare⟩

end GoSyntax
