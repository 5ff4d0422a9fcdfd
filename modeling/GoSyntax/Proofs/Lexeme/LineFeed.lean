import GoSyntax.Proofs.Utf8
import GoSyntax.Proofs.Numerals

/-! Line feeds in lexemes: they stand for themselves, in block comments and in raw strings, and nowhere
else. -/
namespace GoSyntax

/-- Kinds that stand for the end of a line. -/
def Kind.isLineEnd : Kind → Bool
  | .delimiter .endOfLine | .delimiter .elidedSemicolon => true
  | _ => false

/-- Kinds whose texts may go over several lines, with nothing to be told of it. -/
def Kind.hidesLines : Kind → Bool
  | .comment _ | .literal .rawString => true
  | _ => false

namespace Utf8

/-- The bytes of a character beyond ASCII are none of ASCII's. -/
theorem byte_ne_lineFeed {n : Nat} (h₁ : 128 ≤ n) (h₂ : n < 256) : UInt8.ofNat n ≠ 0x0A := by
  intro h
  have hn := toNat_byte h₂
  rw [h] at hn
  have hten : (0x0A : UInt8).toNat = 10 := rfl
  omega

theorem eq_of_lineFeed_mem {c : Char} (h : 0x0A ∈ String.utf8EncodeChar c) : c = '\n' := by
  have hback : Char.ofNat c.val.toNat = c := Char.ofNat_toNat c
  simp only [String.utf8EncodeChar] at h
  generalize c.val.toNat = v at h hback
  have hno : ∀ n, 128 ≤ n → n < 256 → ¬0x0A = UInt8.ofNat n :=
    fun n h₁ h₂ he => byte_ne_lineFeed h₁ h₂ he.symm
  by_cases h₁ : v ≤ 0x7F
  · rw [if_pos h₁, List.mem_singleton] at h
    have hv : v = 10 := by
      rw [← toNat_byte (show v < 256 by omega), ← h]
      rfl
    rw [← hback, hv]
  · exfalso
    rw [if_neg h₁] at h
    split at h
    · simp only [List.mem_cons, List.not_mem_nil, or_false] at h
      rcases h with h | h <;> exact hno _ (by omega) (by omega) h
    split at h
    · simp only [List.mem_cons, List.not_mem_nil, or_false] at h
      rcases h with h | h | h <;> exact hno _ (by omega) (by omega) h
    · simp only [List.mem_cons, List.not_mem_nil, or_false] at h
      rcases h with h | h | h | h <;> exact hno _ (by omega) (by omega) h

theorem lineFeed_of_mem_encode {s : Text} (h : 0x0A ∈ s.encode) : '\n' ∈ s := by
  obtain ⟨c, hc, hm⟩ := List.mem_flatMap.1 h
  rwa [← eq_of_lineFeed_mem hm]

end Utf8

namespace Numeral

open Lexeme Lexeme.Number

theorem lineFeed_not_mem_digits {base : Nat} {s : Text}
    (h : ∀ c ∈ s, isDigitOrSeparator base c = true) : '\n' ∉ s := by
  intro hn
  cases h '\n' hn

theorem Prefixed.lineFeed_not_mem {form : LiteralForm} {s : Text} {n : Nat} (h : Prefixed form s n) :
    '\n' ∉ s := by
  cases h with
  | mk hc hs _ =>
    have hno := lineFeed_not_mem_digits hs.mem
    cases hc with
    | hex h => rcases h with rfl | rfl <;> simpa using hno
    | binary h => rcases h with rfl | rfl <;> simpa using hno
    | octal h => rcases h with rfl | rfl <;> simpa using hno

theorem Floating.lineFeed_not_mem {s : Text} {ws fs : List Nat} {e : Int} (h : Floating s ws fs e) :
    '\n' ∉ s := by
  obtain ⟨d, l, hp, -, rfl⟩ := h.parts
  intro hn
  rcases mem_text hp.wellFormed '\n' hn with hn | hn
  · cases hn
  · exact absurd hn (by decide)

theorem lineFeed_not_mem {form : LiteralForm} {w : Text} {v : Value} {e : Int}
    (h : Numeral form w v e) : '\n' ∉ w := by
  cases h with
  | decimal hd _ hs => exact lineFeed_not_mem_digits (Tail.digit hd hs).mem
  | octal hs => simpa using lineFeed_not_mem_digits hs.mem
  | based h => exact h.lineFeed_not_mem
  | float h => exact h.lineFeed_not_mem
  | imaginary h => simpa using lineFeed_not_mem_digits h.tail.mem
  | imaginaryBased h => simpa using h.lineFeed_not_mem
  | imaginaryFloat h => simpa using h.lineFeed_not_mem

end Numeral

namespace Lexeme
namespace Quotation

theorem lineFeed_not_mem_leadingDigits {base n : Nat} {cs : Text}
    (h : (leadingDigits base n cs).length = n) : '\n' ∉ cs.take n := by
  have hpre : leadingDigits base n cs <+: cs.take n := List.takeWhile_prefix _
  have heq : leadingDigits base n cs = cs.take n := by
    apply hpre.eq_of_length_le
    rw [h, List.length_take]
    omega
  have hall : ∀ c ∈ leadingDigits base n cs, isDigitIn base c = true :=
    List.all_eq_true.1 List.all_takeWhile
  rw [← heq]
  intro hn
  cases hall '\n' hn

theorem lineFeed_not_mem_escape {cs : Text} {v : Char} (h : (escape cs).result = .ok v) :
    '\n' ∉ cs.take (escape cs).size := by
  cases cs with
  | nil => simp
  | cons c cs =>
    simp only [escape] at h ⊢
    split at h
    · rename_i hc
      have hne : '\n' ≠ c := by
        rintro rfl
        cases hc
      simpa using hne
    · rename_i n _ hc
      obtain ⟨hsize, hdigits⟩ := size_hexEscape h
      have hne : '\n' ≠ c := by
        rintro rfl
        cases hc
      have hno := lineFeed_not_mem_leadingDigits hdigits
      rw [Reading.size_shift, hsize, Nat.add_comm, List.take_succ_cons, List.mem_cons, not_or]
      exact ⟨hne, hno⟩
    · split at h
      · rename_i hd
        obtain ⟨hsize, hdigits⟩ := size_octalEscape h
        rw [if_pos hd, hsize]
        exact lineFeed_not_mem_leadingDigits hdigits
      · cases h

theorem lineFeed_not_mem_item {c : Char} {cs : Text} {v : Char} (hc : c ≠ '\n')
    (h : (item c cs).result = .ok v) : '\n' ∉ c :: cs.take (item c cs).size := by
  rw [List.mem_cons, not_or]
  refine ⟨hc.symm, ?_⟩
  unfold item at h ⊢
  split at h
  · rename_i hb
    rw [if_pos hb]
    exact lineFeed_not_mem_escape h
  · rename_i hb
    rw [if_neg hb]
    simp

theorem lineFeed_not_mem_stringItems {cs s : Text} (h : (stringItems cs).result = .ok s) :
    '\n' ∉ cs.take (stringItems cs).size := by
  fun_induction stringItems cs generalizing s with
  | case1 => cases h
  | case2 => cases h
  | case3 => simp
  | case4 => cases h
  | case5 c cs hn _ r v hv =>
    rename_i ih
    cases hr : (stringItems (cs.drop r.size)).result with
    | error flaw => simp [Reading.shift, Reading.map, hr, Except.map] at h
    | ok s' =>
      have hitem := lineFeed_not_mem_item hn hv
      have hrest := ih hr
      have hsplit : (c :: cs).take (1 + r.size + (stringItems (cs.drop r.size)).size) =
          (c :: cs.take r.size) ++ (cs.drop r.size).take (stringItems (cs.drop r.size)).size := by
        rw [Nat.add_assoc, Nat.add_comm 1, List.take_succ_cons, List.take_add]
        rfl
      rw [Reading.size_shift, Reading.size_map, hsplit, List.mem_append, not_or]
      exact ⟨hitem, hrest⟩

theorem lineFeed_not_mem_string {cs : Text} {m : Meaning} (h : (string cs).result = .ok m) :
    '\n' ∉ ('"' :: cs).take (string cs).size := by
  cases hr : (stringItems cs).result with
  | error flaw => simp [string, Reading.shift, Reading.map, hr, Except.map] at h
  | ok s =>
    have hno := lineFeed_not_mem_stringItems hr
    rw [string, Reading.size_shift, Reading.size_map, Nat.add_comm, List.take_succ_cons]
    simpa using hno

theorem lineFeed_not_mem_rune {cs : Text} {m : Meaning} (h : (rune cs).result = .ok m) :
    '\n' ∉ ('\'' :: cs).take (rune cs).size := by
  obtain ⟨c, b, rest, v, rfl, hn, -, hitem, hsize, -⟩ := eq_of_rune (eq_done rfl h)
  have hno := lineFeed_not_mem_item hn (congrArg Reading.result hitem)
  rw [congrArg Reading.size hitem, Reading.size_done, List.take_left] at hno
  have htake : ('\'' :: c :: (b ++ '\'' :: rest)).take (b.length + 3) =
      '\'' :: c :: (b ++ ['\'']) := by
    have hcs : '\'' :: c :: (b ++ '\'' :: rest) = ('\'' :: c :: (b ++ ['\''])) ++ rest := by simp
    have hlen : b.length + 3 = ('\'' :: c :: (b ++ ['\''])).length := by simp
    rw [hcs, hlen, List.take_left]
  rw [hsize, htake]
  simpa using hno

end Quotation

theorem lineFeed_not_mem_symbols {s : Text} {kind : Kind} (h : (s, kind) ∈ symbols) :
    '\n' ∉ s ∧ kind.isLineEnd = false := by
  have hall : symbols.all (fun x => '\n' ∉ x.1 ∧ x.2.isLineEnd = false) = true := by decide
  simpa using List.all_eq_true.1 hall (s, kind) h

theorem lineFeed_not_mem_word (c : Char) (cs : Text) (hc : Identifier.isStart c = true) :
    '\n' ∉ (c :: cs).take (word c cs).size := by
  have htake : (c :: cs).take (word c cs).size = c :: cs.takeWhile Identifier.isContinue := by
    rw [word, Reading.size_done, List.length_cons, List.take_succ_cons]
    congr 1
    exact (List.prefix_iff_eq_take.1 (List.takeWhile_prefix _)).symm
  have hall : ∀ a ∈ cs.takeWhile Identifier.isContinue, Identifier.isContinue a = true :=
    List.all_eq_true.1 List.all_takeWhile
  rw [htake, List.mem_cons, not_or]
  refine ⟨?_, ?_⟩
  · rintro rfl
    cases hc
  · intro hn
    cases hall '\n' hn

/-- A lexeme with a line feed is that line feed, or one that hides it; only the first ends a line. -/
theorem lineFeed_of_read {elides : Bool} {c : Char} {cs : Text} {kind : Kind} {v : Option Value}
    (hc : c ≠ '\n') (h : (read elides (c :: cs)).result = .ok (.token kind v)) :
    kind.isLineEnd = false ∧
      ('\n' ∈ (c :: cs).take (read elides (c :: cs)).size → kind.hidesLines = true) := by
  have ho := read_opening elides c cs
  generalize read elides (c :: cs) = r at h ho ⊢
  have hlit : r.IsLiteral → '\n' ∉ (c :: cs).take r.size →
      kind.isLineEnd = false ∧ ('\n' ∈ (c :: cs).take r.size → kind.hidesLines = true) := by
    intro hl hno
    obtain ⟨form, w, hm⟩ := hl.eq_token h
    cases hm
    exact ⟨rfl, fun hn => absurd hn hno⟩
  cases ho with
  | newline hn => exact absurd hn hc
  | lineComment =>
    cases h
    exact ⟨rfl, fun _ => rfl⟩
  | blockComment =>
    unfold Comment.block at h
    split at h <;> cases h
    exact ⟨rfl, fun _ => rfl⟩
  | rune hc =>
    subst hc
    exact hlit (Quotation.literal_rune cs) (Quotation.lineFeed_not_mem_rune h)
  | string hc =>
    subst hc
    exact hlit (Quotation.literal_string cs) (Quotation.lineFeed_not_mem_string h)
  | rawString =>
    obtain ⟨body, rest, -, -, -, hm⟩ := Quotation.eq_of_rawString (eq_done rfl h)
    cases hm
    exact ⟨rfl, fun _ => rfl⟩
  | number ho =>
    obtain ⟨form, w, e, hn, -, -⟩ := Numeral.denotes_read ho h
    exact hlit (Number.literal_read (c :: cs)) hn.lineFeed_not_mem
  | word hs =>
    have hno := lineFeed_not_mem_word c cs hs
    refine ⟨?_, fun hn => absurd hn hno⟩
    simp only [word, Reading.done, Except.ok.injEq] at h
    split at h <;> cases h <;> rfl
  | symbol hs =>
    rw [symbol_eq_longest] at h ⊢
    split at h
    · cases h
    · rename_i s k hlong
      obtain ⟨hmem, hpre, -⟩ := longestSymbol?_eq_some hlong
      obtain ⟨hno, hk⟩ := lineFeed_not_mem_symbols hmem
      split at h
      · cases h
      · rename_i hdots
        cases h
        rw [if_neg hdots, Reading.size_done, ← List.prefix_iff_eq_take.1 hpre]
        exact ⟨hk, fun hn => absurd hn hno⟩

end Lexeme
end GoSyntax
