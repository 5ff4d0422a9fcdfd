import GoSyntax.Proofs.Exponents

/-! What a lexer crashes at: the one exponent of which the magnitude overflows, and nothing else. -/
namespace GoSyntax

namespace Lexeme

open Number

/-- A crash lies in the value of a literal with a point or an exponent, all else of which is found. -/
theorem Number.scales_of_crash {c : Char} {cs : Text} {place : Place} {crash : Crash}
    (ho : Number.opens c cs)
    (h : (Number.read (c :: cs)).result = .error ⟨place, .crash crash⟩) : Scales (c :: cs) := by
  have hletter : ∀ a rest, c :: cs = '0' :: a :: rest → baseOf? a = none := by
    intro a rest heq
    rw [Number.read_eq, heq] at h
    cases hb : baseOf? a with
    | none => rfl
    | some x =>
      obtain ⟨form, base⟩ := x
      simp only [hb] at h
      exact absurd h ((safe_prefixed (baseOf?_int hb).1 (baseOf?_int hb).2 rest).ne_crash _ _)
  have hplain : Number.read (c :: cs) = plain (c :: cs) := by
    rw [Number.read_eq]
    split
    · rw [hletter _ _ ‹_›]
    · rfl
  rw [hplain] at h
  have hfloat : (Decimal.ofText (c :: cs)).isFloat = true := by
    cases hf : (Decimal.ofText (c :: cs)).isFloat with
    | true => rfl
    | false => exact absurd h ((safe_plain hf).ne_crash _ _)
  have hopens : Numeral.Opens (c :: cs) := by
    rcases ho with ho | ⟨rfl, ho⟩
    · obtain ⟨d, hd⟩ := Numeral.exists_digitOf ho
      exact .digit hd
    · obtain ⟨a, ha, hdigit⟩ := (Option.any_eq_true _ _).1 ho
      obtain ⟨cs, rfl⟩ := List.head?_eq_some_iff.1 ha
      obtain ⟨d, hd⟩ := Numeral.exists_digitOf hdigit
      exact .point hd
  simp only [plain] at h
  split at h
  · cases h
  rename_i hexponent
  split at h
  · cases h
  rename_i hseparated
  refine ⟨hopens, hletter, hfloat, fun x hx => ?_, by simpa using hseparated⟩
  simpa [hx] using hexponent

theorem read_of_crash {elides : Bool} {cs : Text} {place : Place} {crash : Crash}
    (h : (read elides cs).result = .error ⟨place, .crash crash⟩) :
    Scales cs ∧ read elides cs = Number.read cs := by
  cases cs with
  | nil => cases h
  | cons c cs =>
    have ho := read_opening elides c cs
    generalize read elides (c :: cs) = r at h ho ⊢
    cases ho with
    | newline => cases h
    | lineComment => cases h
    | blockComment =>
      unfold Comment.block at h
      split at h <;> cases h
    | rune => exact absurd h ((Quotation.safe_rune cs).ne_crash _ _)
    | string => exact absurd h ((Quotation.safe_string cs).ne_crash _ _)
    | rawString => exact absurd h ((Quotation.safe_rawString cs).ne_crash _ _)
    | number ho => exact ⟨scales_of_crash ho h, rfl⟩
    | word => cases h
    | symbol =>
      rw [symbol_eq_longest] at h
      split at h
      · cases h
      · split at h <;> cases h

end Lexeme

namespace Lexer

variable {x : Lexer}

/-- What was read last is a literal of which the exponent is the least signed word. -/
def AtLeastWord (x : Lexer) : Prop :=
  ∃ w s ws fs, w ++ s <:+ x.text ∧ (s = [] ∨ s = ['i']) ∧ Numeral.Floating w ws fs (-2 ^ 63)

open Lexeme.Number in
/-- Behind a crash the lexer is left with the literal that it could not close. -/
theorem atLeastWord_of_crash (h : x.next.isCrash = true) : x.next.after.AtLeastWord := by
  have hm := next_move x
  generalize x.next = s at hm h ⊢
  cases hm with
  | queued => cases h
  | blankFault => cases h
  | lexemeFault => cases h
  | @lexeme meaning => cases meaning <;> cases h
  | @flaw flaw hq hc hr =>
    obtain ⟨place, cause⟩ := flaw
    cases cause with
    | crash crash =>
      obtain ⟨hscales, hread⟩ := Lexeme.read_of_crash hr
      obtain ⟨w, s, rest, ws, fs, e, hahead, hs, hfloat, hnumber⟩ := hscales.read_eq
      rw [← hread] at hnumber
      change x.reading = _ at hnumber
      by_cases he : e.natAbs ≤ exponentLimit
      · rw [hnumber, if_pos he] at hr
        rcases hs with rfl | rfl <;> cases hr
      · rw [if_neg he] at hnumber
        have hleast : e = -2 ^ 63 := by
          rw [hnumber] at hr
          have hrefusal : refusal e = .crash crash := congrArg Lexeme.Flaw.cause (Except.error.inj hr)
          by_contra hne
          rw [refusal, if_neg (by rw [wordLimit_eq]; exact hne)] at hrefusal
          cases hrefusal
        subst hleast
        have hlexeme : x.lexeme = w ++ s := by
          rw [lexeme, hnumber, hahead]
          change List.take (w.length + s.length) _ = _
          rw [← List.length_append, List.take_left]
        refine ⟨w, s, ws, fs, ?_, hs, hfloat⟩
        rw [← hlexeme]
        exact List.suffix_append _ _
    | _ => cases h

end Lexer
end GoSyntax
