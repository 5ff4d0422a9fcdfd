import GoSyntax.Proofs.Lexeme.Meaning

/-! What follows a lexeme matters only through its first character: a lexeme that was read once is
read again wherever that character does not go on with it. -/
namespace GoSyntax
namespace Lexeme

theorem eq_done {α : Type} {n : Nat} {a : α} {r : Reading α} (hs : r.size = n)
    (hr : r.result = .ok a) : r = .done n a := by
  cases r
  simp_all [Reading.done]

theorem isAlpha_iff (c : Char) :
    c.isAlpha = true ↔ 65 ≤ c.toNat ∧ c.toNat ≤ 90 ∨ 97 ≤ c.toNat ∧ c.toNat ≤ 122 := by
  have hupper : c.isUpper = true ↔ 65 ≤ c.toNat ∧ c.toNat ≤ 90 := by
    show decide (c.val ≥ 'A'.val ∧ c.val ≤ 'Z'.val) = true ↔ _
    rw [decide_eq_true_eq, ge_iff_le, UInt32.le_iff_toNat_le, UInt32.le_iff_toNat_le]
    rfl
  have hlower : c.isLower = true ↔ 97 ≤ c.toNat ∧ c.toNat ≤ 122 := by
    show (decide (c.val ≥ 'a'.val) && decide (c.val ≤ 'z'.val)) = true ↔ _
    rw [Bool.and_eq_true, decide_eq_true_eq, decide_eq_true_eq, ge_iff_le, UInt32.le_iff_toNat_le,
      UInt32.le_iff_toNat_le]
    rfl
  show (c.isUpper || c.isLower) = true ↔ _
  rw [Bool.or_eq_true, hupper, hlower]

theorem isAlphanum_of_range {c : Char}
    (h : 48 ≤ c.toNat ∧ c.toNat ≤ 57 ∨ 97 ≤ c.toNat ∧ c.toNat ≤ 122 ∨ 65 ≤ c.toNat ∧ c.toNat ≤ 90) :
    c.isAlphanum = true := by
  show (c.isAlpha || c.isDigit) = true
  rw [Bool.or_eq_true, isAlpha_iff]
  rcases h with h | h | h
  · refine Or.inr ?_
    show (decide (c.val ≥ '0'.val) && decide (c.val ≤ '9'.val)) = true
    rw [Bool.and_eq_true, decide_eq_true_eq, decide_eq_true_eq]
    exact ⟨UInt32.le_iff_toNat_le.2 h.1, UInt32.le_iff_toNat_le.2 h.2⟩
  · exact Or.inl (Or.inr h)
  · exact Or.inl (Or.inl h)

theorem isContinue_of_digit {base : Nat} {c : Char} (h : isDigitIn base c) :
    Identifier.isContinue c = true := by
  have hr := digit_range h
  rw [Identifier.isContinue, if_pos (by omega), isAlphanum_of_range (by omega)]
  rfl

namespace Quotation

variable {a rest₀ : Text} {v : Char}

theorem leadingDigits_append (base : Nat) (a rest : Text) :
    leadingDigits base a.length (a ++ rest) = a.takeWhile (isDigitIn base) := by
  rw [leadingDigits, List.take_left]

theorem size_hexEscape {n : Nat} {cs : Text} (h : (hexEscape n cs).result = .ok v) :
    (hexEscape n cs).size = n ∧ (leadingDigits 16 n cs).length = n := by
  by_cases hn : (leadingDigits 16 n cs).length = n
  · refine ⟨?_, hn⟩
    simp only [hexEscape, if_pos hn]
    split <;> rfl
  · simp only [hexEscape, if_neg hn] at h
    split at h <;> cases h

theorem size_octalEscape {cs : Text} (h : (octalEscape cs).result = .ok v) :
    (octalEscape cs).size = 3 ∧ (leadingDigits 8 3 cs).length = 3 := by
  by_cases hn : (leadingDigits 8 3 cs).length = 3
  · refine ⟨?_, hn⟩
    simp only [octalEscape, if_pos hn]
    split
    · split <;> rfl
    · rfl
  · simp only [octalEscape, if_neg hn] at h
    cases h

theorem hexEscape_append {n : Nat} (h : hexEscape n (a ++ rest₀) = .done a.length v) (rest : Text) :
    hexEscape n (a ++ rest) = .done a.length v := by
  obtain ⟨hn, hd⟩ := size_hexEscape (congrArg Reading.result h)
  obtain rfl : a.length = n := (congrArg Reading.size h).symm.trans hn
  simp only [hexEscape, leadingDigits_append] at h hd ⊢
  rw [if_pos hd] at h ⊢
  exact h

theorem octalEscape_append (h : octalEscape (a ++ rest₀) = .done a.length v) (rest : Text) :
    octalEscape (a ++ rest) = .done a.length v := by
  obtain ⟨hn, hd⟩ := size_octalEscape (congrArg Reading.result h)
  have ha : a.length = 3 := (congrArg Reading.size h).symm.trans hn
  simp only [octalEscape] at h ⊢
  simp only [← ha, leadingDigits_append] at h hd ⊢
  rw [if_pos hd] at h ⊢
  exact h

theorem one_le_size_escape {cs : Text} (h : (escape cs).result = .ok v) : 1 ≤ (escape cs).size := by
  cases cs with
  | nil => cases h
  | cons c cs =>
    simp only [escape] at h ⊢
    split at h
    · exact Nat.le_refl 1
    · simp
    · split at h
      · rename_i hd
        rw [if_pos hd, (size_octalEscape h).1]
        decide
      · cases h

theorem escape_append (h : escape (a ++ rest₀) = .done a.length v) (rest : Text) :
    escape (a ++ rest) = .done a.length v := by
  cases a with
  | nil =>
    have hpos := one_le_size_escape (congrArg Reading.result h)
    have hzero : (escape ([] ++ rest₀)).size = 0 := congrArg Reading.size h
    omega
  | cons c a =>
    simp only [List.cons_append, escape] at h ⊢
    split at h
    · exact h
    · rename_i n h₁ h₂
      have hhex : hexEscape n (a ++ rest₀) = .done a.length v := by
        refine eq_done ?_ (congrArg Reading.result h)
        have hs := congrArg Reading.size h
        simp only [Reading.size_shift, Reading.size_done, List.length_cons] at hs
        omega
      rw [hexEscape_append hhex rest]
      simp [Reading.shift, Reading.done, Nat.add_comm]
    · split at h
      · rename_i h₃
        rw [if_pos h₃]
        rw [← List.cons_append] at h ⊢
        exact octalEscape_append h rest
      · cases congrArg Reading.result h

theorem item_append {c : Char} (h : item c (a ++ rest₀) = .done a.length v) (rest : Text) :
    item c (a ++ rest) = .done a.length v := by
  unfold item at h ⊢
  split at h
  · rename_i hc
    rw [if_pos hc]
    exact escape_append h rest
  · rename_i hc
    rw [if_neg hc]
    exact h

theorem item_take {c : Char} {n : Nat} (h : item c (a ++ rest₀) = .done n v) (hn : n ≤ a.length)
    (rest : Text) : item c (a ++ rest) = .done n v := by
  have hlen : (a.take n).length = n := by rw [List.length_take]; omega
  have hsplit : ∀ s : Text, a ++ s = a.take n ++ (a.drop n ++ s) := by
    intro s
    rw [← List.append_assoc, List.take_append_drop]
  have htake : item c (a.take n ++ (a.drop n ++ rest₀)) = .done (a.take n).length v := by
    rw [← hsplit, hlen]
    exact h
  have hitem := item_append htake (a.drop n ++ rest)
  rwa [hlen, ← hsplit] at hitem

theorem stringItems_append {s : Text} (h : stringItems (a ++ rest₀) = .done a.length s)
    (rest : Text) : stringItems (a ++ rest) = .done a.length s := by
  generalize hcs : a ++ rest₀ = cs at h
  fun_induction stringItems cs generalizing a s with
  | case1 => cases congrArg Reading.result h
  | case2 => cases congrArg Reading.result h
  | case3 cs hq =>
    have ha : 1 = a.length := congrArg Reading.size h
    obtain ⟨c, rfl⟩ := List.length_eq_one_iff.1 ha.symm
    obtain ⟨rfl, -⟩ := List.cons.inj hcs
    rw [List.singleton_append, stringItems]
    exact h
  | case4 => cases congrArg Reading.result h
  | case5 c cs hn hq r v hv =>
    rename_i ih
    have hsize := congrArg Reading.size h
    simp only [Reading.size_shift, Reading.size_map, Reading.size_done] at hsize
    cases a with
    | nil => simp at hsize
    | cons d a =>
      obtain ⟨rfl, rfl⟩ : d = c ∧ a ++ rest₀ = cs := List.cons.inj hcs
      rw [List.length_cons] at hsize
      have hle : r.size ≤ a.length := by omega
      have hres := congrArg Reading.result h
      cases hr : (stringItems ((a ++ rest₀).drop r.size)).result with
      | error flaw => simp [Reading.shift, Reading.map, Reading.done, hr, Except.map] at hres
      | ok s' =>
        obtain rfl : v :: s' = s := by
          simpa [Reading.shift, Reading.map, Reading.done, hr, Except.map] using hres
        have hrest := ih (List.drop_append_of_le_length hle).symm
          (eq_done (by rw [List.length_drop]; omega) hr)
        have hitem : item d (a ++ rest) = .done r.size v := item_take (eq_done rfl hv) hle rest
        rw [List.cons_append, stringItems, if_neg hn, if_neg hq, hitem]
        simp only [Reading.done]
        rw [List.drop_append_of_le_length hle, hrest]
        simp [Reading.shift, Reading.map, Reading.done, Except.map]
        omega

theorem string_append {m : Meaning} (h : string (a ++ rest₀) = .done (a.length + 1) m)
    (rest : Text) : string (a ++ rest) = .done (a.length + 1) m := by
  have hsize := congrArg Reading.size h
  have hres := congrArg Reading.result h
  simp only [string, Reading.size_shift, Reading.size_map, Reading.size_done] at hsize
  cases hr : (stringItems (a ++ rest₀)).result with
  | error flaw => simp [string, Reading.shift, Reading.map, Reading.done, hr, Except.map] at hres
  | ok s =>
    have hitems := stringItems_append (eq_done (by omega) hr) rest
    rw [← h]
    simp only [string, hitems, eq_done (n := a.length) (by omega) hr]

/-- A raw string ends at the first quote behind the one that opens it. -/
theorem eq_of_rawString {cs : Text} {n : Nat} {m : Meaning} (h : rawString cs = .done n m) :
    ∃ body rest, cs = body ++ rawQuote :: rest ∧ (∀ c ∈ body, (c != rawQuote) = true) ∧
      n = body.length + 2 ∧ m = .token (.literal .rawString) (some (.text body)) := by
  have hall : ∀ c ∈ cs.takeWhile (· != rawQuote), (c != rawQuote) = true :=
    List.all_eq_true.1 List.all_takeWhile
  have hcs : cs.takeWhile (· != rawQuote) ++ cs.dropWhile (· != rawQuote) = cs :=
    List.takeWhile_append_dropWhile
  simp only [rawString_eq_ite] at h
  by_cases hlt : (cs.takeWhile (· != rawQuote)).length < cs.length
  · rw [if_pos hlt] at h
    cases hd : cs.dropWhile (· != rawQuote) with
    | nil =>
      have hlen := congrArg List.length hcs
      rw [hd, List.append_nil] at hlen
      omega
    | cons q rest =>
      have hq := List.head?_dropWhile_not (· != rawQuote) cs
      simp only [hd, List.head?_cons, bne_eq_false_iff_eq] at hq
      refine ⟨_, rest, ?_, hall, (congrArg Reading.size h).symm,
        (Except.ok.inj (congrArg Reading.result h)).symm⟩
      rw [hd, hq] at hcs
      exact hcs.symm
  · rw [if_neg hlt] at h
    cases congrArg Reading.result h

theorem rawString_eq {body : Text} (hbody : ∀ c ∈ body, (c != rawQuote) = true) (rest : Text) :
    rawString (body ++ rawQuote :: rest) =
      .done (body.length + 2) (.token (.literal .rawString) (some (.text body))) := by
  have htake : (body ++ rawQuote :: rest).takeWhile (· != rawQuote) = body :=
    takeWhile_append hbody (by simp)
  simp only [rawString_eq_ite, htake]
  rw [if_pos (by simp)]

theorem rawString_append {m : Meaning} (h : rawString (a ++ rest₀) = .done (a.length + 1) m)
    (rest : Text) : rawString (a ++ rest) = .done (a.length + 1) m := by
  obtain ⟨body, rest', hcs, hbody, hn, rfl⟩ := eq_of_rawString h
  have hcs' : a ++ rest₀ = (body ++ [rawQuote]) ++ rest' := by simpa using hcs
  have hlen : a.length = (body ++ [rawQuote]).length := by
    rw [List.length_append, List.length_singleton]
    omega
  obtain ⟨rfl, -⟩ := List.append_inj hcs' hlen
  rw [List.append_assoc, List.singleton_append, rawString_eq hbody, hn]

theorem rune_eq {c : Char} {b rest : Text} (hn : c ≠ '\n') (hq : c ≠ '\'')
    (h : item c (b ++ '\'' :: rest) = .done b.length v) :
    rune (c :: (b ++ '\'' :: rest)) =
      .done (b.length + 3) (.token (.literal .rune) (some (.rune v))) := by
  rw [rune, if_neg hn, if_neg hq, h]
  simp [Reading.done]
  omega

theorem eq_of_rune {cs : Text} {n : Nat} {m : Meaning} (h : rune cs = .done n m) :
    ∃ c b rest v, cs = c :: (b ++ '\'' :: rest) ∧ c ≠ '\n' ∧ c ≠ '\'' ∧
      item c (b ++ '\'' :: rest) = .done b.length v ∧ n = b.length + 3 ∧
        m = .token (.literal .rune) (some (.rune v)) := by
  cases cs with
  | nil => cases congrArg Reading.result h
  | cons c cs =>
    have hle := size_item_le c cs
    simp only [rune] at h
    split at h
    · cases congrArg Reading.result h
    split at h
    · cases congrArg Reading.result h
    rename_i hn hq
    split at h
    · cases congrArg Reading.result h
    rename_i v hv
    split at h
    · cases congrArg Reading.result h
    rename_i d hd
    split at h
    · rename_i hd'
      subst hd'
      obtain ⟨rest, hrest⟩ := List.head?_eq_some_iff.1 hd
      have hcs : cs = cs.take (item c cs).size ++ '\'' :: rest := by
        rw [← hrest, List.take_append_drop]
      have hlen : (cs.take (item c cs).size).length = (item c cs).size := by
        rw [List.length_take]
        omega
      refine ⟨c, cs.take (item c cs).size, rest, v, congrArg _ hcs, hn, hq, ?_, ?_, ?_⟩
      · rw [← hcs, hlen]
        exact eq_done rfl hv
      · have hsize := congrArg Reading.size h
        simp only [Reading.size_done] at hsize
        omega
      · exact (Except.ok.inj (congrArg Reading.result h)).symm
    split at h
    · cases congrArg Reading.result h
    · cases congrArg Reading.result h

theorem rune_append {m : Meaning} (h : rune (a ++ rest₀) = .done (a.length + 1) m) (rest : Text) :
    rune (a ++ rest) = .done (a.length + 1) m := by
  obtain ⟨c, b, rest', v, hcs, hn, hq, hitem, hlen, rfl⟩ := eq_of_rune h
  have ha : c :: (b ++ ['\'']) = a := by
    have hpre : c :: (b ++ ['\'']) <+: a ++ rest₀ := ⟨rest', by simp [hcs]⟩
    refine (List.prefix_of_prefix_length_le hpre (List.prefix_append a rest₀) ?_).eq_of_length ?_
    · simp
      omega
    · simp
      omega
  subst ha
  rw [hlen, List.cons_append, List.append_assoc]
  exact rune_eq hn hq (item_append hitem _)

end Quotation

namespace Number

open Number.Decimal (splitFraction exponentOf)

theorem digitRun_append {base : Nat} {s rest : Text} (hs : ∀ c ∈ s, isDigitOrSeparator base c)
    (hr : ∀ c ∈ rest.head?, isDigitOrSeparator base c = false) : digitRun base (s ++ rest) = s :=
  takeWhile_append hs hr

/-- The character ends a literal without base letter, or opens its suffix. -/
def Ends (c : Char) : Prop :=
  isDigitOrSeparator 10 c = false ∧ c ≠ '.' ∧ c ≠ 'e' ∧ c ≠ 'E'

variable {d : Decimal} {e : Char} {rest : Text}

theorem exponentOf_append (h : d.WellFormed e) (hr : ∀ c ∈ rest.head?, Ends c) :
    exponentOf (exponentText e d.exponent ++ rest) = d.exponent := by
  have hrest : ∀ c ∈ rest.head?, isDigitOrSeparator 10 c = false := fun c hc => (hr c hc).1
  cases hx : d.exponent with
  | none =>
    cases rest with
    | nil => rfl
    | cons c rest =>
      have hc := hr c rfl
      simp [exponentText, exponentOf, hc.2.2.1, hc.2.2.2]
  | some x =>
    obtain ⟨sign, digits⟩ := x
    obtain ⟨hsign, hdigits, hne⟩ := h.exponent _ hx
    cases sign with
    | some s =>
      rcases hsign s rfl with rfl | rfl
      · simp [exponentText, exponentOf, h.letter, digitRun_append hdigits hrest]
      · simp [exponentText, exponentOf, h.letter, digitRun_append hdigits hrest]
    | none =>
      obtain ⟨c, digits, rfl⟩ := List.exists_cons_of_ne_nil hne
      have hc := hdigits c List.mem_cons_self
      have hplus : c ≠ '+' := by
        rintro rfl
        exact absurd hc (by decide)
      have hminus : c ≠ '-' := by
        rintro rfl
        exact absurd hc (by decide)
      have hrun := digitRun_append hdigits hrest
      simp only [exponentText, Option.toList_none, List.nil_append, List.cons_append] at hrun ⊢
      rw [exponentOf, if_pos h.letter, hrun]
      · exact fun _ heq => hplus (List.cons.inj heq).1
      · exact fun _ heq => hminus (List.cons.inj heq).1

theorem head_exponentText (h : d.WellFormed e) (hr : ∀ c ∈ rest.head?, Ends c) :
    ∀ c ∈ (exponentText e d.exponent ++ rest).head?, isDigitOrSeparator 10 c = false ∧ c ≠ '.' := by
  intro c hc
  cases hx : d.exponent with
  | none =>
    simp only [hx, exponentText, List.nil_append] at hc
    exact ⟨(hr c hc).1, (hr c hc).2.1⟩
  | some x =>
    simp only [hx, exponentText, List.cons_append, List.head?_cons, Option.mem_def,
      Option.some.injEq] at hc
    subst hc
    rcases h.letter with rfl | rfl <;> decide

theorem ofText_append (h : d.WellFormed e) (hr : ∀ c ∈ rest.head?, Ends c) :
    Decimal.ofText (d.text e ++ rest) = d := by
  have hexp := exponentOf_append h hr
  have hhead := head_exponentText h hr
  have hwhole : digitRun 10 (d.text e ++ rest) = d.whole := by
    rw [Decimal.text, List.append_assoc]
    refine digitRun_append h.whole ?_
    intro c hc
    cases hf : d.fraction with
    | none =>
      simp only [hf, fractionText, List.nil_append] at hc
      exact (hhead c hc).1
    | some f =>
      simp only [hf, fractionText, List.cons_append, List.head?_cons, Option.mem_def,
        Option.some.injEq] at hc
      subst hc
      decide
  have hdrop : (d.text e ++ rest).drop d.whole.length =
      fractionText d.fraction ++ (exponentText e d.exponent ++ rest) := by
    rw [Decimal.text, List.append_assoc, List.drop_left, List.append_assoc]
  have hsplit : splitFraction (fractionText d.fraction ++ (exponentText e d.exponent ++ rest)) =
      (d.fraction, exponentText e d.exponent ++ rest) := by
    cases hf : d.fraction with
    | none =>
      cases hx : exponentText e d.exponent ++ rest with
      | nil => rfl
      | cons c cs =>
        have hc := (hhead c (by rw [hx]; rfl)).2
        simp only [fractionText, List.nil_append]
        unfold splitFraction
        split
        · rename_i heq
          exact absurd (List.cons.inj heq).1 hc
        · rfl
    | some f =>
      have hrun := digitRun_append (h.fraction f hf) fun c hc => (hhead c hc).1
      simp [fractionText, splitFraction, hrun]
  rw [ofText_eq, hwhole, hdrop, hsplit, hexp]

theorem isDigitOrSeparator_of_not_continue {base : Nat} {c : Char}
    (h : Identifier.isContinue c = false) : isDigitOrSeparator base c = false := by
  rw [isDigitOrSeparator, Bool.or_eq_false_iff]
  refine ⟨?_, ?_⟩
  · cases hd : isDigitIn base c with
    | false => rfl
    | true =>
      rw [isContinue_of_digit hd] at h
      cases h
  · rw [beq_eq_false_iff_ne]
    rintro rfl
    cases h

theorem ends_of_not_continue {c : Char} (h : Identifier.isContinue c = false) (hdot : c ≠ '.') :
    Ends c := by
  refine ⟨isDigitOrSeparator_of_not_continue h, hdot, ?_, ?_⟩
  · rintro rfl
    cases h
  · rintro rfl
    cases h

theorem plain_congr {cs cs' : Text} (hd : Decimal.ofText cs' = Decimal.ofText cs)
    (hi : suffix (cs'.drop (Decimal.ofText cs).size) = suffix (cs.drop (Decimal.ofText cs).size))
    (ht : cs'.take (Decimal.ofText cs).size = cs.take (Decimal.ofText cs).size)
    (hh : cs'.head? = cs.head?) : plain cs' = plain cs := by
  simp only [plain, hd, hi, ht, hh]

theorem exponent_ne_nil {cs : Text} {m : Meaning} (h : (plain cs).result = .ok m) :
    ∀ x, (Decimal.ofText cs).exponent = some x → x.2 ≠ [] := by
  rintro x hx hnil
  have hany : ((Decimal.ofText cs).exponent.any fun e => !hasDigit e.2) = true := by
    simp [hx, hnil, hasDigit]
  simp only [plain] at h
  rw [if_pos hany] at h
  cases h

/-- The size of a literal that is read is that of its parts and its suffix. -/
theorem size_plain_eq {cs : Text} {m : Meaning} (h : (plain cs).result = .ok m) :
    (plain cs).size =
      (Decimal.ofText cs).size + suffix (cs.drop (Decimal.ofText cs).size) := by
  simp only [plain] at h ⊢
  split at h
  · cases h
  split at h
  · cases h
  rename_i h₁ h₂
  rw [if_neg h₁, if_neg h₂]
  repeat' split
  all_goals first | rfl | simp_all

theorem head?_ne_suffix (hr : ∀ c ∈ rest.head?, Identifier.isContinue c = false) :
    rest.head? ≠ some 'i' := by
  intro h
  cases hr 'i' h

theorem suffix_append {s rest : Text} (hs : s = [] ∨ s = ['i']) (hr : rest.head? ≠ some 'i') :
    suffix (s ++ rest) = s.length := by
  rcases hs with rfl | rfl
  · simp [suffix, hr]
  · rfl

theorem ends_suffix {s : Text} (hs : s = [] ∨ s = ['i']) (hr : ∀ c ∈ rest.head?, Ends c) :
    ∀ c ∈ (s ++ rest).head?, Ends c := by
  rcases hs with rfl | rfl
  · exact hr
  · rintro _ ⟨⟩
    exact ⟨by decide, by decide, by decide, by decide⟩

theorem plain_append {a rest₀ : Text} {m : Meaning} (hne : a ≠ [])
    (h : plain (a ++ rest₀) = .done a.length m)
    (hr : ∀ c ∈ rest.head?, Identifier.isContinue c = false ∧ c ≠ '.') :
    plain (a ++ rest) = .done a.length m := by
  have hres : (plain (a ++ rest₀)).result = .ok m := congrArg Reading.result h
  obtain ⟨e, tail, hwf, htext⟩ := ofText_text (exponent_ne_nil hres)
  have hsize := (size_plain_eq hres).symm.trans (congrArg Reading.size h)
  generalize hd : Decimal.ofText (a ++ rest₀) = d at hwf htext hsize
  obtain ⟨s, rest₁, rfl, hslen, hs⟩ := suffix_split tail
  have hdrop₀ : (a ++ rest₀).drop d.size = s ++ rest₁ := by
    rw [htext, ← length_text d e, List.drop_left]
  rw [hdrop₀, ← hslen, Reading.size_done] at hsize
  have ha : d.text e ++ s = a := by
    have hpre : d.text e ++ s <+: a ++ rest₀ := ⟨rest₁, by rw [htext, List.append_assoc]⟩
    refine (List.prefix_of_prefix_length_le hpre (List.prefix_append a rest₀) ?_).eq_of_length ?_
    · rw [List.length_append, length_text]
      omega
    · rw [List.length_append, length_text]
      omega
  have hhead : (a ++ rest).head? = (a ++ rest₀).head? := by
    obtain ⟨c, a, rfl⟩ := List.exists_cons_of_ne_nil hne
    rfl
  subst ha
  have hends : ∀ c ∈ rest.head?, Ends c := fun c hc => ends_of_not_continue (hr c hc).1 (hr c hc).2
  have hof : Decimal.ofText (d.text e ++ (s ++ rest)) = d := ofText_append hwf (ends_suffix hs hends)
  rw [List.append_assoc] at hhead
  rw [← h, List.append_assoc]
  refine plain_congr (hof.trans hd.symm) ?_ ?_ hhead
  · rw [hd, hdrop₀, ← hslen, ← length_text d e, List.drop_left]
    exact suffix_append hs (head?_ne_suffix fun c hc => (hr c hc).1)
  · rw [hd, List.append_assoc, ← length_text d e, List.take_left, List.take_left]

theorem size_prefixed_eq {form : LiteralForm} {base : Nat} {cs : Text} {m : Meaning}
    (h : (prefixed form base cs).result = .ok m) :
    (prefixed form base cs).size = 2 + (digitRun (max base 10) cs).length +
      suffix (cs.drop (digitRun (max base 10) cs).length) := by
  simp only [prefixed] at h ⊢
  split at h
  · cases h
  split at h
  · cases h
  split at h
  · cases h
  rename_i h₁ h₂ h₃
  rw [if_neg h₁, if_neg h₂, if_neg h₃]
  split
  · rename_i hi
    rw [hi]
    rfl
  · rfl

theorem prefixed_append {form : LiteralForm} {base : Nat} {a rest₀ : Text} {m : Meaning}
    (h : prefixed form base (a ++ rest₀) = .done (a.length + 2) m)
    (hr : ∀ c ∈ rest.head?, Identifier.isContinue c = false) :
    prefixed form base (a ++ rest) = .done (a.length + 2) m := by
  have hsize := (size_prefixed_eq (congrArg Reading.result h)).symm.trans (congrArg Reading.size h)
  have hall : ∀ c ∈ digitRun (max base 10) (a ++ rest₀), isDigitOrSeparator (max base 10) c :=
    mem_digitRun
  have hsplit := digitRun_drop (max base 10) (a ++ rest₀)
  generalize hd : digitRun (max base 10) (a ++ rest₀) = digits at hsize hsplit hall
  obtain ⟨s, rest₁, hs₁, hslen, hs⟩ := suffix_split ((a ++ rest₀).drop digits.length)
  rw [Reading.size_done, ← hslen] at hsize
  have ha : digits ++ s = a := by
    have hpre : digits ++ s <+: a ++ rest₀ := ⟨rest₁, by rw [List.append_assoc, ← hs₁, hsplit]⟩
    refine (List.prefix_of_prefix_length_le hpre (List.prefix_append a rest₀) ?_).eq_of_length ?_
    · rw [List.length_append]
      omega
    · rw [List.length_append]
      omega
  subst ha
  have hrun : digitRun (max base 10) (digits ++ s ++ rest) = digits := by
    rw [List.append_assoc]
    refine digitRun_append hall ?_
    rcases hs with rfl | rfl
    · intro c hc
      exact isDigitOrSeparator_of_not_continue (hr c hc)
    · rintro _ ⟨⟩
      rfl
  have hsuf : suffix ((digits ++ s ++ rest).drop digits.length) =
      suffix ((digits ++ s ++ rest₀).drop digits.length) := by
    rw [← hslen, List.append_assoc, List.drop_left]
    exact suffix_append hs (head?_ne_suffix hr)
  rw [← h]
  simp only [prefixed, hrun, hd, hsuf]

theorem baseOf?_of_not_continue {c : Char} (h : Identifier.isContinue c = false) :
    baseOf? c = none := by
  have hne : ∀ d, Identifier.isContinue d = true → c ≠ d := by
    rintro d hd rfl
    rw [hd] at h
    cases h
  simp [baseOf?, hne 'x' rfl, hne 'X' rfl, hne 'b' rfl, hne 'B' rfl, hne 'o' rfl, hne 'O' rfl]

theorem read_of_ne_zero {c : Char} {cs : Text} (hc : c ≠ '0') : read (c :: cs) = plain (c :: cs) := by
  rw [read_eq]
  split
  · rename_i heq
    exact absurd (List.cons.inj heq).1 hc
  · rfl

theorem read_eq_plain {c : Char} {cs : Text} (h : ∀ a ∈ cs.head?, baseOf? a = none) :
    read (c :: cs) = plain (c :: cs) := by
  rw [read_eq]
  split
  · rename_i a rest heq
    obtain ⟨-, rfl⟩ := List.cons.inj heq
    rw [h a rfl]
  · rfl

/-- No letter of a base stands behind a zero that is read alone. -/
theorem baseOf?_of_read_zero {cs : Text} {m : Meaning} (h : read ('0' :: cs) = .done 1 m) :
    ∀ c ∈ cs.head?, baseOf? c = none := by
  intro c hc
  obtain ⟨more, rfl⟩ := List.head?_eq_some_iff.1 hc
  cases hb : baseOf? c with
  | none => rfl
  | some fb =>
    have hsize := congrArg Reading.size h
    simp only [read_eq, hb, Reading.size_done] at hsize
    have hle := (size_prefixed fb.1 fb.2 more).1
    omega

/-- A numeric literal is read again if what is read with a base is, and what is read without. -/
theorem read_again {a rest₀ : Text} {m : Meaning} (hne : a ≠ [])
    (h : read (a ++ rest₀) = .done a.length m)
    (hbase : (∀ c ∈ rest₀.head?, baseOf? c = none) → ∀ c ∈ rest.head?, baseOf? c = none)
    (hplain : plain (a ++ rest₀) = .done a.length m → plain (a ++ rest) = .done a.length m)
    (hprefixed : ∀ form base digits,
      prefixed form base (digits ++ rest₀) = .done (digits.length + 2) m →
        prefixed form base (digits ++ rest) = .done (digits.length + 2) m) :
    read (a ++ rest) = .done a.length m := by
  obtain ⟨c, a, rfl⟩ := List.exists_cons_of_ne_nil hne
  by_cases hc : c = '0'
  · subst hc
    cases a with
    | nil =>
      have hnone : ∀ c ∈ rest₀.head?, baseOf? c = none := baseOf?_of_read_zero h
      rw [List.singleton_append] at h hplain ⊢
      rw [List.singleton_append] at hplain
      rw [read_eq_plain hnone] at h
      rw [read_eq_plain (hbase hnone)]
      exact hplain h
    | cons c a =>
      simp only [List.cons_append, read_eq] at h ⊢
      cases hb : baseOf? c with
      | none =>
        simp only [hb] at h ⊢
        exact hplain h
      | some fb =>
        simp only [hb] at h ⊢
        exact hprefixed _ _ a h
  · rw [List.cons_append, read_of_ne_zero hc] at h ⊢
    exact hplain h

/-- A numeric literal is read again where no letter, digit or point follows. -/
theorem read_append {a rest₀ : Text} {m : Meaning} (hne : a ≠ [])
    (h : read (a ++ rest₀) = .done a.length m)
    (hr : ∀ c ∈ rest.head?, Identifier.isContinue c = false ∧ c ≠ '.') :
    read (a ++ rest) = .done a.length m := by
  refine read_again hne h ?_ ?_ ?_
  · exact fun _ c hc => baseOf?_of_not_continue (hr c hc).1
  · exact fun hplain => plain_append hne hplain hr
  · exact fun _ _ _ hprefixed => prefixed_append hprefixed fun c hc => (hr c hc).1

end Number

/-- Whether the symbol `s` ends where `c` follows it. -/
def symbolEnds (s : Text) (c : Char) : Bool :=
  symbols.all (fun x => !(s ++ [c]).isPrefixOf x.1) && !(s == ['/'] && (c == '/' || c == '*')) &&
    !(s == ['.'] && isDigitIn 10 c)

theorem read_rune (elides : Bool) (cs : Text) : read elides ('\'' :: cs) = Quotation.rune cs := rfl

theorem read_string (elides : Bool) (cs : Text) : read elides ('"' :: cs) = Quotation.string cs := rfl

theorem read_rawString (elides : Bool) (cs : Text) :
    read elides (Quotation.rawQuote :: cs) = Quotation.rawString cs := rfl

theorem read_symbol {elides : Bool} {c : Char} {cs : Text} (h : OpensSymbol c cs) :
    read elides (c :: cs) = symbol c cs := by
  have hn : ¬(isDigitIn 10 c = true ∨ c = '.' ∧ cs.head?.any (isDigitIn 10) = true) := h.number
  rw [read, if_neg h.newline, if_neg h.lineComment, if_neg h.blockComment, if_neg h.rune,
    if_neg h.string, if_neg h.rawString, if_neg hn, if_neg (by simp [h.word])]

theorem read_number {elides : Bool} {c : Char} {cs : Text} (h : Number.opens c cs) :
    read elides (c :: cs) = Number.read (c :: cs) := by
  have hne : ∀ d, isDigitIn 10 d = false → d ≠ '.' → c ≠ d := by
    rintro d hd hdot rfl
    rcases h with h | h
    · rw [hd] at h
      cases h
    · exact hdot h.1
  have hslash := hne '/' (by decide) (by decide)
  rw [read, if_neg (hne '\n' (by decide) (by decide)), if_neg (fun h => hslash h.1),
    if_neg (fun h => hslash h.1), if_neg (hne '\'' (by decide) (by decide)),
    if_neg (hne '"' (by decide) (by decide)), if_neg (hne _ (by decide) (by decide))]
  exact if_pos h

theorem decimal_range {c : Char} (h : isDigitIn 10 c) : 48 ≤ c.toNat ∧ c.toNat ≤ 57 := by
  by_cases h₁ : '0' ≤ c ∧ c ≤ '9'
  · exact ⟨UInt32.le_iff_toNat_le.1 h₁.1, UInt32.le_iff_toNat_le.1 h₁.2⟩
  · simp only [isDigitIn, digitIn?, digitValue?, if_neg h₁] at h
    split at h
    · rw [Option.isSome_filter, Option.any_some] at h
      have hlt := of_decide_eq_true h
      omega
    split at h
    · rw [Option.isSome_filter, Option.any_some] at h
      have hlt := of_decide_eq_true h
      omega
    · cases h

theorem isStart_of_digit {c : Char} (h : isDigitIn 10 c) : Identifier.isStart c = false := by
  have hr := decimal_range h
  have halpha : c.isAlpha = false := by
    rw [Bool.eq_false_iff, ne_eq, isAlpha_iff]
    omega
  have hne : c ≠ '_' := by
    rintro rfl
    exact absurd hr (by decide)
  rw [Identifier.isStart, if_pos (by omega), halpha]
  simpa using hne

theorem read_word {elides : Bool} {c : Char} {cs : Text} (h : Identifier.isStart c = true) :
    read elides (c :: cs) = word c cs := by
  have hne : ∀ d, Identifier.isStart d = false → c ≠ d := by
    rintro d hd rfl
    rw [hd] at h
    cases h
  have hslash := hne '/' (by decide)
  have hnum : ¬(isDigitIn 10 c = true ∨ c = '.' ∧ cs.head?.any (isDigitIn 10) = true) := by
    rintro (hd | hd)
    · rw [isStart_of_digit hd] at h
      cases h
    · exact hne '.' (by decide) hd.1
  rw [read, if_neg (hne '\n' (by decide)), if_neg (fun h => hslash h.1),
    if_neg (fun h => hslash h.1), if_neg (hne '\'' (by decide)), if_neg (hne '"' (by decide)),
    if_neg (hne _ (by decide)), if_neg hnum, if_pos h]

theorem endsSymbol_of_symbolEnds {s rest : Text} (hr : ∀ c ∈ rest.head?, symbolEnds s c = true) :
    EndsSymbol s rest := by
  intro c hc x hx hpre
  have hends := hr c hc
  simp only [symbolEnds, Bool.and_eq_true, List.all_eq_true] at hends
  have hno := hends.1.1 x hx
  rw [List.isPrefixOf_iff_prefix.2 hpre] at hno
  cases hno

theorem eq_of_symbol {c : Char} {a rest : Text} {kind : Kind} {v : Option Value}
    (h : symbol c (a ++ rest) = .done (a.length + 1) (.token kind v)) :
    (c :: a, kind) ∈ symbols ∧ v = none := by
  rw [symbol_eq_longest] at h
  split at h
  · cases congrArg Reading.result h
  rename_i s k hs
  split at h
  · cases congrArg Reading.result h
  obtain ⟨hmem, hpre, -⟩ := longestSymbol?_eq_some hs
  have hlen : s.length = a.length + 1 := congrArg Reading.size h
  cases (Except.ok.inj (congrArg Reading.result h) : Meaning.token k none = .token kind v)
  have hle : s.length ≤ (c :: a).length := Nat.le_of_eq hlen
  obtain rfl : s = c :: a :=
    (List.prefix_of_prefix_length_le hpre (List.prefix_append (c :: a) rest) hle).eq_of_length hlen
  exact ⟨hmem, rfl⟩

theorem symbol_eq {c : Char} {a rest : Text} {kind : Kind} (hmem : (c :: a, kind) ∈ symbols)
    (hr : ∀ d ∈ rest.head?, symbolEnds (c :: a) d = true) :
    symbol c (a ++ rest) = .done (a.length + 1) (.token kind none) := by
  have hlong := longestSymbol?_append hmem (endsSymbol_of_symbolEnds hr)
  have hdots : ¬(kind = .delimiter .dot ∧ (a ++ rest).head? = some '.') := by
    rintro ⟨rfl, hhead⟩
    obtain ⟨rfl, rfl⟩ := List.cons.inj (mem_symbols_dot hmem)
    exact absurd (hr '.' hhead) (by decide)
  rw [List.cons_append] at hlong
  simp only [symbol_eq_longest, hlong, if_neg hdots]
  rfl

/-- The forms of literals that stand between quotes. -/
def isQuoted : LiteralForm → Bool
  | .rune | .interpretedString | .rawString => true
  | _ => false

/-- Whether a lexeme of kind `kind`, written `s`, ends where `c` follows it. -/
def endsBefore (kind : Kind) (s : Text) (c : Char) : Bool :=
  match kind with
  | .identifier | .keyword _ => !Identifier.isContinue c
  | .literal form => isQuoted form || !Identifier.isContinue c && c != '.'
  | .operator _ | .delimiter _ => symbolEnds s c
  | _ => false

/-- Kinds of tokens that are written as they are, and not made from the end of a line. -/
def isSolid : Kind → Bool
  | .endOfFile | .comment _ => false
  | .delimiter d => d.isWritten
  | _ => true

theorem isQuoted_of_int {form : LiteralForm} (h : form.valueSort = .int) : isQuoted form = false := by
  cases form <;> first | rfl | cases h

theorem close_form {n : Nat} {form form' : LiteralForm} {w : Except Cause Value} {v : Option Value}
    (hf : isQuoted form = false)
    (h : (Number.close n form w).result = .ok (.token (.literal form') v)) :
    isQuoted form' = false := by
  cases w with
  | error cause => cases h
  | ok w =>
    cases h
    exact hf

theorem number_form {cs : Text} {form : LiteralForm} {v : Option Value}
    (h : (Number.read cs).result = .ok (.token (.literal form) v)) : isQuoted form = false := by
  have hplain : ∀ cs, (Number.plain cs).result = .ok (.token (.literal form) v) →
      isQuoted form = false := by
    intro cs h
    simp only [Number.plain] at h
    repeat' split at h
    all_goals first | cases h | exact close_form rfl h
  rw [Number.read_eq] at h
  split at h
  · split at h
    · rename_i hb
      have hf := (Number.baseOf?_int hb).1
      simp only [Number.prefixed] at h
      repeat' split at h
      all_goals try cases h
      · exact close_form (isQuoted_of_int hf) h
      · exact close_form rfl h
    · exact hplain _ h
  · exact hplain _ h

theorem two_le_size_point {d : Char} {cs : Text} (h : isDigitIn 10 d = true) :
    2 ≤ (Number.read ('.' :: d :: cs)).size := by
  have hle := (Number.size_plain ('.' :: d :: cs)).1
  have hrun : Number.digitRun 10 ('.' :: d :: cs) = [] := by
    rw [Number.digitRun, List.takeWhile_cons_of_neg (by decide)]
  have hdigits : Number.digitRun 10 (d :: cs) = d :: Number.digitRun 10 cs := by
    simp [Number.digitRun, Number.isDigitOrSeparator, h]
  rw [Number.read_of_ne_zero (by decide)]
  rw [Number.size_ofText] at hle
  simp only [hrun, List.length_nil, List.drop_zero, Number.Decimal.splitFraction,
    Number.fractionSize, Option.map_some, Option.getD_some, hdigits, List.length_cons] at hle
  omega

theorem opens_append {c : Char} {a rest₀ : Text} {m : Meaning} (rest : Text)
    (hc : Number.opens c (a ++ rest₀))
    (h : Number.read (c :: (a ++ rest₀)) = .done (a.length + 1) m) :
    Number.opens c (a ++ rest) := by
  rcases hc with hc | ⟨rfl, hd⟩
  · exact Or.inl hc
  · cases a with
    | cons d a => exact Or.inr ⟨rfl, hd⟩
    | nil =>
      cases rest₀ with
      | nil => simp at hd
      | cons d rest₀ =>
        have hsize := @two_le_size_point d rest₀ (by simpa using hd)
        have hone : (Number.read ('.' :: ([] ++ d :: rest₀))).size = 1 := congrArg Reading.size h
        rw [List.nil_append] at hone
        omega

theorem word_append {c : Char} {a rest₀ rest : Text} {kind : Kind} {v : Option Value}
    (h : word c (a ++ rest₀) = .done (a.length + 1) (.token kind v))
    (hr : ∀ d ∈ rest.head?, endsBefore kind (c :: a) d = true) :
    word c (a ++ rest) = .done (a.length + 1) (.token kind v) := by
  have hlen : ((a ++ rest₀).takeWhile Identifier.isContinue).length + 1 = a.length + 1 :=
    congrArg Reading.size h
  have ha : (a ++ rest₀).takeWhile Identifier.isContinue = a := by
    have hpre : (a ++ rest₀).takeWhile Identifier.isContinue <+: a ++ rest₀ :=
      List.takeWhile_prefix _
    exact (List.prefix_of_prefix_length_le hpre (List.prefix_append a rest₀)
      (by omega)).eq_of_length (by omega)
  have hall : ∀ d ∈ a, Identifier.isContinue d = true := by
    rw [← ha]
    exact List.all_eq_true.1 List.all_takeWhile
  have hends : ∀ d ∈ rest.head?, Identifier.isContinue d = false := by
    intro d hd
    have hd' := hr d hd
    have hm := congrArg Reading.result h
    simp only [word, Reading.done, Except.ok.injEq] at hm
    split at hm <;> cases hm <;> simpa [endsBefore] using hd'
  simp only [word, ha, takeWhile_append hall hends] at h ⊢
  exact h

theorem symbols_solid {s : Text} {kind : Kind} (h : (s, kind) ∈ symbols) (c : Char) :
    endsBefore kind s c = symbolEnds s c := by
  have hall : symbols.all (fun x => x.2.category = .operator ∨ x.2.category = .delimiter) = true := by
    decide
  have hk := List.all_eq_true.1 hall _ h
  simp only [decide_eq_true_eq] at hk
  cases kind with
  | operator o => rfl
  | delimiter d => rfl
  | _ => simp [Kind.category] at hk

theorem OpensSymbol.append {c : Char} {a rest₀ rest : Text} (h : OpensSymbol c (a ++ rest₀))
    (hr : ∀ d ∈ rest.head?, symbolEnds (c :: a) d = true) : OpensSymbol c (a ++ rest) := by
  cases a with
  | cons d a => exact ⟨h.newline, h.lineComment, h.blockComment, h.rune, h.string, h.rawString,
      h.number, h.word⟩
  | nil =>
    refine ⟨h.newline, ?_, ?_, h.rune, h.string, h.rawString, ?_, h.word⟩
    · rintro ⟨rfl, hd⟩
      exact absurd (hr '/' hd) (by decide)
    · rintro ⟨rfl, hd⟩
      exact absurd (hr '*' hd) (by decide)
    · rintro (hd | ⟨rfl, hd⟩)
      · exact h.number (Or.inl hd)
      · obtain ⟨d, hd, hdigit⟩ := (Option.any_eq_true _ _).1 hd
        have hends := hr d hd
        simp [symbolEnds, hdigit] at hends

/-- A lexeme that was read before one text is read before another if each sort of lexeme that looks
past its end is. -/
theorem read_again {elides elides' : Bool} {c : Char} {a rest₀ rest : Text} {kind : Kind}
    {v : Option Value} (hk : isSolid kind = true)
    (h : read elides (c :: (a ++ rest₀)) = .done (a.length + 1) (.token kind v))
    (hnumber : Number.read (c :: (a ++ rest₀)) = .done (a.length + 1) (.token kind v) →
      Number.read (c :: (a ++ rest)) = .done (a.length + 1) (.token kind v))
    (hword : word c (a ++ rest₀) = .done (a.length + 1) (.token kind v) →
      word c (a ++ rest) = .done (a.length + 1) (.token kind v))
    (hsymbol : OpensSymbol c (a ++ rest₀) →
      symbol c (a ++ rest₀) = .done (a.length + 1) (.token kind v) →
      ∀ d ∈ rest.head?, symbolEnds (c :: a) d = true) :
    read elides' (c :: (a ++ rest)) = .done (a.length + 1) (.token kind v) := by
  have ho := read_opening elides c (a ++ rest₀)
  generalize read elides (c :: (a ++ rest₀)) = r at h ho
  cases ho with
  | newline =>
    have := Except.ok.inj (congrArg Reading.result h)
    cases elides <;> cases this <;> cases hk
  | lineComment =>
    cases Except.ok.inj (congrArg Reading.result h)
    cases hk
  | blockComment =>
    unfold Comment.block at h
    split at h
    · cases Except.ok.inj (congrArg Reading.result h)
      cases hk
    · cases congrArg Reading.result h
  | rune hc =>
    subst hc
    rw [read_rune]
    exact Quotation.rune_append h rest
  | string hc =>
    subst hc
    rw [read_string]
    exact Quotation.string_append h rest
  | rawString hc =>
    subst hc
    rw [read_rawString]
    exact Quotation.rawString_append h rest
  | number hc =>
    rw [read_number (opens_append rest hc h)]
    exact hnumber h
  | word hc =>
    rw [read_word hc]
    exact hword h
  | symbol hc =>
    obtain ⟨hmem, rfl⟩ := eq_of_symbol h
    rw [read_symbol (hc.append (hsymbol hc h))]
    exact symbol_eq hmem (hsymbol hc h)

/-- A lexeme that was read before one text is read before any other that does not go on with it. -/
theorem read_append {elides elides' : Bool} {s rest₀ rest : Text} {kind : Kind} {v : Option Value}
    (hne : s ≠ []) (hk : isSolid kind = true)
    (h : read elides (s ++ rest₀) = .done s.length (.token kind v))
    (hr : ∀ c ∈ rest.head?, endsBefore kind s c = true) :
    read elides' (s ++ rest) = .done s.length (.token kind v) := by
  obtain ⟨c, a, rfl⟩ := List.exists_cons_of_ne_nil hne
  refine read_again hk h ?_ (fun hword => word_append hword hr) ?_
  · intro hnumber
    obtain ⟨form, w, hm⟩ := (Number.literal_read (c :: (a ++ rest₀))).eq_token
      (congrArg Reading.result hnumber)
    cases hm
    have hform := number_form (congrArg Reading.result hnumber)
    refine Number.read_append hne hnumber ?_
    intro d hd
    simpa [endsBefore, hform] using hr d hd
  · intro _ hsymbol d hd
    rw [← symbols_solid (eq_of_symbol hsymbol).1]
    exact hr d hd

/-- A blank or a line feed, which may stand between any two lexemes. -/
def isGap (c : Char) : Bool := c == ' ' || c == '\n'

theorem not_continue_of_gap {c : Char} (h : isGap c = true) :
    Identifier.isContinue c = false ∧ c ≠ '.' ∧ isDigitIn 10 c = false := by
  simp only [isGap, Bool.or_eq_true, beq_iff_eq] at h
  rcases h with rfl | rfl <;> decide

/-- No symbol has a gap in it. -/
theorem symbolEnds_gap (s : Text) {c : Char} (h : isGap c = true) : symbolEnds s c = true := by
  have hgap : symbols.all (fun x => !x.1.any isGap) = true := by decide
  have hall : symbols.all (fun x => !(s ++ [c]).isPrefixOf x.1) = true := by
    refine List.all_eq_true.2 fun x hx => ?_
    cases hp : (s ++ [c]).isPrefixOf x.1 with
    | false => rfl
    | true =>
      obtain ⟨rest, hrest⟩ := List.isPrefixOf_iff_prefix.1 hp
      have hno := List.all_eq_true.1 hgap x hx
      simp [← hrest, h] at hno
  have hcomment : (c == '/' || c == '*') = false := by
    simp only [isGap, Bool.or_eq_true, beq_iff_eq] at h
    rcases h with rfl | rfl <;> rfl
  simp [symbolEnds, hall, hcomment, not_continue_of_gap h]

/-- Every lexeme ends before a gap. -/
theorem endsBefore_gap {kind : Kind} (hk : isSolid kind = true) (s : Text) {c : Char}
    (h : isGap c = true) : endsBefore kind s c = true := by
  have hcontinue := not_continue_of_gap h
  unfold endsBefore
  cases kind with
  | identifier => simp [hcontinue]
  | keyword k => simp [hcontinue]
  | literal form => simp [hcontinue]
  | operator op => exact symbolEnds_gap s h
  | delimiter d => exact symbolEnds_gap s h
  | _ => cases hk

end Lexeme
end GoSyntax
