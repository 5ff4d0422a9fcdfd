import GoSyntax.Proofs.Grammar.Spelling

/-! Tokens written one after the other with blanks between them. Whatever sources they come from, the
text is read as just these tokens. -/
namespace GoSyntax

open Lexeme

/-- Kinds of tokens that are neither comments nor ends of lines or of a source. -/
theorem isSolid_of_kind {k : Kind} (hc : k.isComment = false)
    (hk : k ∉ [.delimiter .endOfLine, .delimiter .elidedSemicolon, .endOfFile]) :
    isSolid k = true := by
  cases k with
  | comment f => cases hc
  | endOfFile => simp at hk
  | delimiter d => cases d <;> first | rfl | simp at hk
  | _ => rfl

/-- Behind the first of several texts comes a blank. -/
theorem join_blank (s : Text) (l : List Text) :
    l = [] ∧ Text.join " " (s :: l) = s ++ Text.join " " l ∨
      Text.join " " (s :: l) = s ++ ' ' :: Text.join " " l := by
  cases l with
  | nil => exact Or.inl ⟨rfl, by simp [Text.join, List.intercalate]⟩
  | cons u l => exact Or.inr (by simpa using join_cons " " s u l [])

theorem clean_join {l : List Text} (h : ∀ s ∈ l, '\x00' ∉ s) : '\x00' ∉ Text.join " " l := by
  induction l with
  | nil => simp [Text.join]
  | cons s l ih =>
    have hs := h s List.mem_cons_self
    have hl := ih fun u hu => h u (List.mem_cons_of_mem _ hu)
    rcases join_blank s l with ⟨-, hj⟩ | hj <;> simp [hj, hs, hl]

theorem Token.Genuine.stands {t : Token} (h : t.Genuine) (hk : isSolid t.kind = true) :
    t.bare.Stands := by
  rcases h with ⟨-, hk'⟩ | h
  · rw [hk] at hk'
    cases hk'
  · exact h

namespace Lexer

theorem Yields.genuine {x : Lexer} {ts : List Token} (hy : x.Yields ts) (h : x.Sound) :
    ∀ t ∈ ts, t.Genuine := by
  induction hy with
  | last ht _ => simpa using (sound_next h).2.1 _ ht
  | more ht _ _ ih =>
    obtain ⟨hnext, hout, -⟩ := sound_next h
    exact List.forall_mem_cons.2 ⟨hout _ ht, ih hnext⟩

/-- Words with a blank between any two of them are read one after the other, and then the source
ends as it does behind the last of them. -/
theorem At.yields_spaced {ws : List Word} (hws : ∀ w ∈ ws, w.Stands) {x : Lexer} {elides : Bool}
    (hx : x.At elides (Text.join " " (ws.map Word.text))) :
    ∃ us, x.Yields us ∧ us.map Token.bare =
      ws ++ closing ((ws.getLast?.map fun w => w.kind.elidesSemicolon).getD elides) := by
  induction ws generalizing x elides with
  | nil => exact At.yields_closing hx
  | cons w ws ih =>
    have hw := hws w List.mem_cons_self
    have hrest : ∀ v ∈ ws, v.Stands := fun v hv => hws v (List.mem_cons_of_mem _ hv)
    obtain ⟨s, htext, hs, hbehind⟩ : ∃ s, Text.join " " ((w :: ws).map Word.text) = w.text ++ s ∧
        (∀ c ∈ s.head?, endsBefore w.kind w.text c = true) ∧
        ∀ (y : Lexer) elides, y.At elides s → y.At elides (Text.join " " (ws.map Word.text)) := by
      rcases join_blank w.text (ws.map Word.text) with ⟨hnil, hj⟩ | hj
      · refine ⟨_, hj, ?_, fun y elides h => h⟩
        simp [hnil, Text.join, List.intercalate]
      · refine ⟨_, hj, ?_, fun y elides h => h.blank⟩
        rintro _ ⟨⟩
        exact hw.endsBefore_blank
    rw [htext] at hx
    obtain ⟨⟨t, ht, rfl⟩, hafter⟩ := hx.next_word hw hs
    obtain ⟨us, hus, hbare⟩ := ih hrest (hbehind _ _ hafter)
    refine ⟨t :: us, .more ht hw.visible.1 hus, ?_⟩
    rw [List.map_cons, hbare, List.getLast?_cons]
    cases ws.getLast? <;> rfl

end Lexer

/-- Tokens of any sources, in any order, are read back from their texts with a blank between any two
of them, with the same kinds, texts and values. Behind them comes the end of the source, and before
that a semicolon without text if the last of them asks for one. -/
theorem spaced_tokens_read_back (file : String) {ts : List Token}
    (h : ∀ t ∈ ts, (t.kind.isComment = false ∧
        t.kind ∉ [.delimiter .endOfLine, .delimiter .elidedSemicolon, .endOfFile]) ∧
      ∃ origin feed x us, Lexer.ofFeed origin feed = .ok x ∧ x.tokens = .ok us ∧ t ∈ us) :
    ∃ us, tokenize file (Text.join " " (ts.map Token.text)) = .ok us ∧
      us.map Token.bare = ts.map Token.bare ++
        closing (ts.getLast?.any fun t => t.kind.elidesSemicolon) := by
  have hstands : ∀ w ∈ ts.map Token.bare, w.Stands := by
    intro w hw
    obtain ⟨t, ht, rfl⟩ := List.mem_map.1 hw
    obtain ⟨⟨hcomment, hkind⟩, origin, feed, x, us, hx, hus, hmem⟩ := h t ht
    obtain ⟨hfresh, -⟩ := Lexer.fresh_of_ofFeed hx
    have hgenuine := (hfresh.yields hus).genuine (Lexer.sound_of_ofFeed hx) t hmem
    exact hgenuine.stands (isSolid_of_kind hcomment hkind)
  have htexts : ts.map Token.text = (ts.map Token.bare).map Word.text := by
    rw [List.map_map]
    rfl
  have hclean : '\x00' ∉ Text.join " " (ts.map Token.text) := by
    refine clean_join fun s hs => ?_
    rw [htexts] at hs
    obtain ⟨w, hw, rfl⟩ := List.mem_map.1 hs
    exact (hstands w hw).clean
  have hstart := Lexer.ofText_clean file hclean
  rw [htexts] at hstart ⊢
  obtain ⟨us, hus, hbare⟩ := Lexer.At.yields_spaced hstands (Lexer.at_start file _)
  refine ⟨us, ?_, ?_⟩
  · rw [tokenize, hstart]
    exact (Lexer.fresh_of_ofFeed hstart).1.tokens hus
  · rw [hbare, List.getLast?_map]
    cases ts.getLast? <;> rfl

/-- The last dot and the digit of one source, the other way round and the dot twice. -/
theorem spaced_tokens_read_back_dots :
    ∃ five dot : Token, five.bare = ⟨.literal .decimalInteger, ['5'], some (.int 5)⟩ ∧
      dot.bare = .delimiter .dot ∧ ∃ us, tokenize "b.go" ['5', ' ', '.', ' ', '.'] = .ok us ∧
        us.map Token.bare = [five.bare, dot.bare, dot.bare, .endOfFile] := by
  obtain ⟨x, hx⟩ : ∃ x, Lexer.ofFeed "a.go" (.ofText ['.', '.', '5']) = .ok x := ⟨_, rfl⟩
  obtain ⟨first, dot, five, rest, hts, hdot, hfive⟩ : ∃ first dot five rest,
      x.tokens = .ok (first :: dot :: five :: rest) ∧ dot.bare = .delimiter .dot ∧
        five.bare = ⟨.literal .decimalInteger, ['5'], some (.int 5)⟩ := by
    cases hx
    exact ⟨_, _, _, _, rfl, rfl, rfl⟩
  have hkinds : dot.kind = .delimiter .dot ∧ five.kind = .literal .decimalInteger :=
    ⟨congrArg Word.kind hdot, congrArg Word.kind hfive⟩
  have htexts : dot.text = ['.'] ∧ five.text = ['5'] :=
    ⟨congrArg Word.text hdot, congrArg Word.text hfive⟩
  have hrun : ∀ t ∈ [five, dot, dot], (t.kind.isComment = false ∧
      t.kind ∉ [.delimiter .endOfLine, .delimiter .elidedSemicolon, .endOfFile]) ∧
      ∃ origin feed x us, Lexer.ofFeed origin feed = .ok x ∧ x.tokens = .ok us ∧ t ∈ us := by
    have hmem : ∀ t ∈ [five, dot, dot], t ∈ first :: dot :: five :: rest := by simp
    refine fun t ht => ⟨?_, "a.go", _, x, _, hx, hts, hmem t ht⟩
    simp only [List.mem_cons, List.not_mem_nil, or_false, or_self] at ht
    rcases ht with rfl | rfl
    · rw [hkinds.2]
      decide
    · rw [hkinds.1]
      decide
  obtain ⟨us, hus, hbare⟩ := spaced_tokens_read_back "b.go" hrun
  refine ⟨five, dot, hfive, hdot, us, ?_, ?_⟩
  · simpa [htexts, Text.join, List.intercalate] using hus
  · simpa [hkinds, closing, Kind.elidesSemicolon] using hbare

end GoSyntax
