import GoSyntax.Proofs.Lexeme.QuotedLiteral
import GoSyntax.Proofs.Lexer.Step

/-! Quoted literals are read exactly: where a quote comes next, the literal of the grammar that the
source goes on with is handed out with its own value, and nothing is handed out where there is none. -/
namespace GoSyntax

namespace QuotedLiteral

theorem Quote.not_blank {form : LiteralForm} {q : Char} (h : Quote form q) :
    Lexer.isBlank q = false ∧ q ≠ Mark.bom := by
  cases h <;> decide

end QuotedLiteral

namespace Lexer

open QuotedLiteral (Quote)

variable {x : Lexer} {form : LiteralForm} {q : Char} {cs : Text}

/-- No blank stands before a quote. -/
theorem start_of_quote (hquote : Quote form q) (ha : x.cursor.ahead = q :: cs) :
    x.start = x.cursor := by
  obtain ⟨hblank, hbom⟩ := hquote.not_blank
  have hcount : blankCount x.cursor = 0 := by simp [blankCount, ha, hbom, hblank]
  rw [start, hcount, Cursor.skip_zero]

/-- Where nothing is left that cannot be decoded, no fault stands in the way. -/
theorem clear_of_breaks_nil (hb : x.cursor.breaks = []) : x.Clear := by
  constructor
  · rw [Cursor.take_of_breaks_nil hb]
  · rw [Cursor.take_of_breaks_nil (x.start_breaks.trans hb)]

theorem next_of_ok {m : Lexeme.Meaning} (hq : x.queued = none) (hc : x.Clear)
    (h : x.reading.result = .ok m) :
    x.next = x.filled.produce (x.text ++ x.blanks) x.lexeme x.start.mark m := by
  have hscan : x.next = x.scan := by
    unfold next
    rw [hq]
  rw [hscan, scan_eq hc.1, readLexeme_eq hc.2, h]

/-- A literal that comes next is handed out, with nothing but itself taken. -/
theorem next_of_literal {w : Text} {v : Value} (hq : x.queued = none) (hb : x.cursor.breaks = [])
    (hquote : Quote form q) (ha : x.cursor.ahead = q :: cs) (hw : QuotedLiteral form w v)
    (hp : w <+: x.cursor.ahead) :
    ∃ t, x.next.outcome = .ok t ∧ t.text = w ∧ t.kind = .literal form ∧ t.value = some v ∧
      w ++ x.next.after.cursor.ahead = x.cursor.ahead := by
  obtain ⟨rest, hrest⟩ := hp
  have hstart := start_of_quote hquote ha
  have hread : x.reading = .done w.length (.token (.literal form) (some v)) := by
    rw [reading, hstart, ← hrest, hw.read_eq]
  have hlexeme : x.lexeme = w := by
    rw [lexeme, hread, hstart, ← hrest]
    exact List.take_left
  rw [next_of_ok hq (clear_of_breaks_nil hb) (congrArg Lexeme.Reading.result hread)]
  refine ⟨_, rfl, hlexeme, rfl, rfl, ?_⟩
  show w ++ x.stop.ahead = x.cursor.ahead
  rw [← hlexeme, lexeme_append, hstart]

/-- Where a token is handed out at a quote, a literal of the grammar comes next. -/
theorem literal_of_next {t : Token} (hq : x.queued = none) (hquote : Quote form q)
    (ha : x.cursor.ahead = q :: cs) (ht : x.next.outcome = .ok t) :
    ∃ w v, w <+: x.cursor.ahead ∧ QuotedLiteral form w v := by
  have hm := next_move x
  generalize x.next = s at hm ht
  cases hm with
  | queued h => simp [hq] at h
  | blankFault => cases ht
  | lexemeFault => cases ht
  | flaw => cases ht
  | lexeme _ _ hr =>
    rw [reading, start_of_quote hquote ha, ha] at hr
    obtain ⟨w, rest, v, hcs, hw⟩ := QuotedLiteral.literal_of_read hquote hr
    exact ⟨w, v, ⟨rest, by rw [ha, hcs]⟩, hw⟩

end Lexer

/-- Where a quote comes next, a token is handed out exactly if the source goes on with a literal that
the quote opens. There is but one such literal, which is therefore the shortest, and the token has its
text, form and value. -/
theorem quotations_exact (x : Lexer) (hq : x.queued = none) (hb : x.cursor.breaks = [])
    {form : LiteralForm} {q : Char} (hquote : QuotedLiteral.Quote form q)
    (hhead : x.cursor.ahead.head? = some q) :
    ((∃ t, x.next.outcome = .ok t) ↔ ∃ w v, w <+: x.cursor.ahead ∧ QuotedLiteral form w v) ∧
    ∀ t, x.next.outcome = .ok t →
      ∃ v, QuotedLiteral form t.text v ∧ t.kind = .literal form ∧ t.value = some v ∧
        t.text ++ x.next.after.cursor.ahead = x.cursor.ahead ∧
        ∀ w u, w <+: x.cursor.ahead → QuotedLiteral form w u → w = t.text ∧ u = v := by
  obtain ⟨cs, ha⟩ := List.head?_eq_some_iff.1 hhead
  have hsound := fun t => @Lexer.literal_of_next x form q cs t hq hquote ha
  have hcomplete := fun w v => @Lexer.next_of_literal x form q cs w v hq hb hquote ha
  constructor
  · constructor
    · rintro ⟨t, ht⟩
      exact hsound t ht
    · rintro ⟨w, v, hp, hw⟩
      obtain ⟨t, ht, -⟩ := hcomplete w v hw hp
      exact ⟨t, ht⟩
  · intro t ht
    obtain ⟨w, v, hp, hw⟩ := hsound t ht
    -- The token is a function of the lexer, so any literal that comes next is the one handed out.
    have htoken : ∀ w u, w <+: x.cursor.ahead → QuotedLiteral form w u →
        t.text = w ∧ t.kind = .literal form ∧ t.value = some u ∧
          w ++ x.next.after.cursor.ahead = x.cursor.ahead := by
      intro w u hp hw
      obtain ⟨t', ht', hfacts⟩ := hcomplete w u hw hp
      obtain rfl := Except.ok.inj (ht.symm.trans ht')
      exact hfacts
    obtain ⟨rfl, hkind, hvalue, hrest⟩ := htoken w v hp hw
    refine ⟨v, hw, hkind, hvalue, hrest, ?_⟩
    intro w u hp' hw'
    obtain ⟨htext, -, hu, -⟩ := htoken w u hp' hw'
    exact ⟨htext.symm, Option.some.inj (hu.symm.trans hvalue)⟩

open QuotedLiteral Numeral in
theorem quotedLiteral_escapes :
    QuotedLiteral .interpretedString "\"\\u00e9\\101\\\"'\"".toList (.text "éA\"'".toList) := by
  have hdigit : DigitOf 16 '0' 0 ∧ DigitOf 16 'e' 14 ∧ DigitOf 16 '9' 9 ∧ DigitOf 8 '1' 1 ∧
      DigitOf 8 '0' 0 := by
    simp [DigitOf]
  obtain ⟨hzero, hfourteen, hnine, hone, hnone⟩ := hdigit
  have hhex : Escape "u00e9".toList 'é' :=
    .hex (by decide) (.cons hzero (.cons hzero (.cons hfourteen (.cons hnine .nil)))) rfl (by decide)
  have hoctal : Escape "101".toList 'A' :=
    .octal (.cons hone (.cons hnone (.cons hone .nil))) rfl (by decide) (by decide)
  have hquote : Escape ['"'] '"' := .letter (by decide)
  have hplain : Item '"' ['\''] '\'' := .plain (by decide) (by decide) (by decide)
  exact .interpreted
    (.cons (.escaped hhex) (.cons (.escaped hoctal) (.cons (.escaped hquote) (.cons hplain .nil))))

/-- Escapes of three sorts and a quote of the other kind, with more of the source behind. -/
theorem quotations_exact_escapes :
    let x : Lexer :=
      ⟨⟨"\"\\u00e9\\101\\\"'\"+\"x\"".toList, [], .origin "f"⟩, false, none, [], 0, false⟩
    x.queued = none ∧ x.cursor.breaks = [] ∧ x.cursor.ahead.head? = some '"' ∧
      ∃ t, x.next.outcome = .ok t ∧ t.text = "\"\\u00e9\\101\\\"'\"".toList ∧
        t.kind = .literal .interpretedString ∧ t.value = some (.text "éA\"'".toList) := by
  intro x
  have hexact := quotations_exact x rfl rfl .interpreted rfl
  have hw := quotedLiteral_escapes
  have hp : "\"\\u00e9\\101\\\"'\"".toList <+: x.cursor.ahead := ⟨"+\"x\"".toList, rfl⟩
  obtain ⟨t, ht⟩ := hexact.1.2 ⟨_, _, hp, hw⟩
  obtain ⟨v, -, hkind, hvalue, -, hunique⟩ := hexact.2 t ht
  obtain ⟨htext, hv⟩ := hunique _ _ hp hw
  exact ⟨rfl, rfl, rfl, t, ht, htext.symm, hkind, hv ▸ hvalue⟩

end GoSyntax
