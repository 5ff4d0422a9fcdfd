import GoSyntax.Proofs.Lexeme.Numeral

/-! The grammar of quoted literals, with the text that each of them stands for. What is read behind a
quote is in the grammar, and what is in the grammar is read, whatever follows it. -/
namespace GoSyntax
namespace QuotedLiteral

open Numeral (DigitOf valueIn)

/-- The characters that stand for one character behind a backslash. -/
def letters : List (Char × Char) :=
  [('a', '\x07'), ('b', '\x08'), ('f', '\x0c'), ('n', '\n'), ('r', '\r'), ('t', '\t'), ('v', '\x0b'),
    ('\\', '\\'), ('\'', '\''), ('"', '"')]

/-- The letters that hexadecimal digits follow behind a backslash, and how many do. -/
def widths : List (Char × Nat) := [('x', 2), ('u', 4), ('U', 8)]

/-- What can stand behind a backslash, and the character it gives. A number gives the character of
that code point, so it has to be a code point that has one. -/
inductive Escape : Text → Char → Prop
  | letter {c v : Char} (h : (c, v) ∈ letters) : Escape [c] v
  | hex {c v : Char} {n : Nat} {s : Text} {ds : List Nat} (hc : (c, n) ∈ widths)
    (hs : List.Forall₂ (DigitOf 16) s ds) (hn : s.length = n) (hv : v.toNat = valueIn 16 ds) :
    Escape (c :: s) v
  | octal {v : Char} {s : Text} {ds : List Nat} (hs : List.Forall₂ (DigitOf 8) s ds)
    (hn : s.length = 3) (hle : valueIn 8 ds ≤ 255) (hv : v.toNat = valueIn 8 ds) : Escape s v

/-- One character between quotes `q`, as it is or escaped. -/
inductive Item (q : Char) : Text → Char → Prop
  | plain {c : Char} (hn : c ≠ '\n') (hq : c ≠ q) (hb : c ≠ '\\') : Item q [c] c
  | escaped {s : Text} {v : Char} (h : Escape s v) : Item q ('\\' :: s) v

inductive Items (q : Char) : Text → Text → Prop
  | nil : Items q [] []
  | cons {s w v : Text} {c : Char} (hs : Item q s c) (hw : Items q w v) :
    Items q (s ++ w) (c :: v)

/-- The quotes that open and close the literals of a form. -/
inductive Quote : LiteralForm → Char → Prop
  | rune : Quote .rune '\''
  | interpreted : Quote .interpretedString '"'
  | raw : Quote .rawString '\x60'

end QuotedLiteral

open QuotedLiteral in
/-- The literals: their form, text and value. -/
inductive QuotedLiteral : LiteralForm → Text → Value → Prop
  | rune {s : Text} {c : Char} (h : Item '\'' s c) :
    QuotedLiteral .rune ('\'' :: (s ++ ['\''])) (.rune c)
  | interpreted {s v : Text} (h : Items '"' s v) :
    QuotedLiteral .interpretedString ('"' :: (s ++ ['"'])) (.text v)
  | raw {s : Text} (h : '\x60' ∉ s) :
    QuotedLiteral .rawString ('\x60' :: (s ++ ['\x60'])) (.text s)

namespace QuotedLiteral

open Numeral (DigitOf valueIn)
open Lexeme

variable {q c v : Char} {s w rest : Text}

section Escapes

open Lexeme.Quotation

theorem simpleEscape?_eq_some_iff : simpleEscape? c = some v ↔ (c, v) ∈ letters := by
  constructor
  · intro h
    unfold simpleEscape? at h
    split at h <;> cases h <;> decide
  · intro h
    simp only [letters, List.mem_cons, Prod.mk.injEq, List.not_mem_nil, or_false] at h
    rcases h with h | h | h | h | h | h | h | h | h | h <;> obtain ⟨rfl, rfl⟩ := h <;> rfl

theorem hexLength?_eq_some_iff {n : Nat} : hexLength? c = some n ↔ (c, n) ∈ widths := by
  constructor
  · intro h
    unfold hexLength? at h
    split at h <;> cases h <;> decide
  · intro h
    simp only [widths, List.mem_cons, Prod.mk.injEq, List.not_mem_nil, or_false] at h
    rcases h with h | h | h <;> obtain ⟨rfl, rfl⟩ := h <;> rfl

/-- A number gives a character exactly if it is the code point of one. -/
theorem scalar?_eq_some_iff {n : Nat} : scalar? n = some v ↔ v.toNat = n := by
  unfold scalar?
  constructor
  · intro h
    split at h
    · rename_i hn
      obtain rfl := Option.some.inj h
      rw [Char.ofNat, dif_pos hn]
      rfl
    · cases h
  · rintro rfl
    rw [if_pos (show v.toNat.isValidChar from v.valid), Char.ofNat_toNat]

theorem exists_forall₂_digitOf {base : Nat} (h : ∀ c ∈ s, isDigitIn base c = true) :
    ∃ ds, List.Forall₂ (DigitOf base) s ds := by
  induction s with
  | nil => exact ⟨[], .nil⟩
  | cons c s ih =>
    obtain ⟨d, hd⟩ := Numeral.exists_digitOf (h c List.mem_cons_self)
    obtain ⟨ds, hds⟩ := ih fun c hc => h c (List.mem_cons_of_mem _ hc)
    exact ⟨d :: ds, .cons hd hds⟩

theorem mem_isDigitIn {base : Nat} {ds : List Nat} (h : List.Forall₂ (DigitOf base) s ds) :
    ∀ c ∈ s, isDigitIn base c = true := by
  induction h with
  | nil => simp
  | cons hd _ ih =>
    intro a ha
    rcases List.mem_cons.1 ha with rfl | ha
    · exact hd.isDigitIn
    · exact ih a ha

/-- As many digits as are asked for stand at the front. -/
theorem exists_of_leadingDigits {base n : Nat} {cs : Text}
    (h : (leadingDigits base n cs).length = n) :
    ∃ s rest ds, cs = s ++ rest ∧ s.length = n ∧ List.Forall₂ (DigitOf base) s ds ∧
      leadingDigits base n cs = s := by
  have hpre : leadingDigits base n cs <+: cs :=
    (List.takeWhile_prefix _).trans (List.take_prefix n cs)
  obtain ⟨rest, hrest⟩ := hpre
  have hall : ∀ c ∈ leadingDigits base n cs, isDigitIn base c = true :=
    List.all_eq_true.1 List.all_takeWhile
  obtain ⟨ds, hds⟩ := exists_forall₂_digitOf hall
  exact ⟨_, rest, ds, hrest.symm, h, hds, rfl⟩

theorem leadingDigits_eq {base : Nat} {ds : List Nat} (h : List.Forall₂ (DigitOf base) s ds)
    (rest : Text) : leadingDigits base s.length (s ++ rest) = s := by
  have htake := @takeWhile_append (isDigitIn base) s [] (mem_isDigitIn h) (by simp)
  rw [List.append_nil] at htake
  rw [leadingDigits_append, htake]

theorem escape_of_hexEscape {n : Nat} {cs : Text} (hc : (c, n) ∈ widths)
    (h : (hexEscape n cs).result = .ok v) :
    ∃ s rest, cs = s ++ rest ∧ (hexEscape n cs).size = s.length ∧ Escape (c :: s) v := by
  obtain ⟨hsize, hlen⟩ := size_hexEscape h
  obtain ⟨s, rest, ds, hcs, hn, hds, hlead⟩ := exists_of_leadingDigits hlen
  refine ⟨s, rest, hcs, hsize.trans hn.symm, .hex hc hds hn ?_⟩
  simp only [hexEscape, hlead, if_pos hn, Numeral.numberIn?_eq hds, Option.bind_some] at h
  split at h
  · rename_i u hu
    obtain rfl := Except.ok.inj h
    exact scalar?_eq_some_iff.1 hu
  · cases h

theorem hexEscape_eq {ds : List Nat} (hs : List.Forall₂ (DigitOf 16) s ds)
    (hv : v.toNat = valueIn 16 ds) (rest : Text) :
    hexEscape s.length (s ++ rest) = .done s.length v := by
  simp only [hexEscape, leadingDigits_eq hs, if_true, Numeral.numberIn?_eq hs, Option.bind_some,
    scalar?_eq_some_iff.2 hv]

theorem escape_of_octalEscape {cs : Text} (h : (octalEscape cs).result = .ok v) :
    ∃ s rest, cs = s ++ rest ∧ (octalEscape cs).size = s.length ∧ Escape s v := by
  obtain ⟨hsize, hlen⟩ := size_octalEscape h
  obtain ⟨s, rest, ds, hcs, hn, hds, hlead⟩ := exists_of_leadingDigits hlen
  simp only [octalEscape, hlead, if_pos hn, Numeral.numberIn?_eq hds] at h
  split at h
  · rename_i hle
    obtain rfl := Except.ok.inj h
    refine ⟨s, rest, hcs, hsize.trans hn.symm, .octal hds hn hle ?_⟩
    rw [Char.ofNat, dif_pos (Or.inl (by omega))]
    rfl
  · cases h

theorem octalEscape_eq {ds : List Nat} (hs : List.Forall₂ (DigitOf 8) s ds) (hn : s.length = 3)
    (hle : valueIn 8 ds ≤ 255) (hv : v.toNat = valueIn 8 ds) (rest : Text) :
    octalEscape (s ++ rest) = .done s.length v := by
  have hlead := leadingDigits_eq hs rest
  rw [hn] at hlead ⊢
  simp only [octalEscape, hlead, if_pos hn, Numeral.numberIn?_eq hs, if_pos hle]
  rw [← hv, Char.ofNat_toNat]

/-- What is read behind a backslash is an escape of the grammar. -/
theorem escape_of_read {cs : Text} (h : (escape cs).result = .ok v) :
    ∃ s rest, cs = s ++ rest ∧ (escape cs).size = s.length ∧ Escape s v := by
  cases cs with
  | nil => cases h
  | cons c cs =>
    simp only [escape] at h ⊢
    split at h
    · rename_i u hu
      obtain rfl := Except.ok.inj h
      exact ⟨[c], cs, rfl, rfl, .letter (simpleEscape?_eq_some_iff.1 hu)⟩
    · rename_i n _ hn
      obtain ⟨s, rest, rfl, hsize, hs⟩ := escape_of_hexEscape (hexLength?_eq_some_iff.1 hn) h
      refine ⟨c :: s, rest, rfl, ?_, hs⟩
      rw [Reading.size_shift, hsize, List.length_cons, Nat.add_comm]
    · split at h
      · rename_i hd
        rw [if_pos hd]
        exact escape_of_octalEscape h
      · cases h

theorem simpleEscape?_hex {n : Nat} (h : (c, n) ∈ widths) : simpleEscape? c = none := by
  simp only [widths, List.mem_cons, Prod.mk.injEq, List.not_mem_nil, or_false] at h
  rcases h with h | h | h <;> obtain ⟨rfl, rfl⟩ := h <;> rfl

/-- An octal digit is no letter of another escape. -/
theorem escape_digit {d : Nat} (h : DigitOf 8 c d) : simpleEscape? c = none ∧ hexLength? c = none := by
  obtain ⟨hd, hc⟩ := h
  interval_cases d <;> rcases hc with hc | hc <;> obtain rfl := Option.some.inj hc <;> decide

/-- An escape of the grammar is read behind a backslash, whatever follows. -/
theorem Escape.read (h : Escape s v) (rest : Text) : escape (s ++ rest) = .done s.length v := by
  cases h with
  | letter h =>
    rw [List.singleton_append, escape, simpleEscape?_eq_some_iff.2 h]
    rfl
  | hex hc hs hn hv =>
    subst hn
    rw [List.cons_append, escape, simpleEscape?_hex hc, hexLength?_eq_some_iff.2 hc]
    simp only [hexEscape_eq hs hv]
    simp [Reading.shift, Reading.done, Nat.add_comm]
  | octal hs hn hle hv =>
    have hread := octalEscape_eq hs hn hle hv rest
    cases hs with
    | nil => simp at hn
    | cons hd hs =>
      obtain ⟨hsimple, hhex⟩ := escape_digit hd
      rw [List.cons_append, escape, hsimple, hhex]
      simp only [if_pos hd.isDigitIn]
      exact hread

end Escapes

section Reading

/-- What is read as one character of a literal is one, the quote and the line feed apart. -/
theorem item_of_read {cs : Text} (hn : c ≠ '\n') (hq : c ≠ q)
    (h : (Quotation.item c cs).result = .ok v) :
    ∃ s rest, cs = s ++ rest ∧ (Quotation.item c cs).size = s.length ∧ Item q (c :: s) v := by
  unfold Quotation.item at h ⊢
  by_cases hb : c = '\\'
  · rw [if_pos hb] at h ⊢
    obtain ⟨s, rest, hcs, hsize, hs⟩ := escape_of_read h
    exact ⟨s, rest, hcs, hsize, hb ▸ .escaped hs⟩
  · rw [if_neg hb] at h ⊢
    obtain rfl := Except.ok.inj h
    exact ⟨[], cs, rfl, rfl, .plain hn hq hb⟩

/-- A character of a literal is read as such, whatever follows. -/
theorem Item.read (h : Item q s v) (hq : q ≠ '\\') :
    ∃ c t, s = c :: t ∧ c ≠ '\n' ∧ c ≠ q ∧
      ∀ rest, Quotation.item c (t ++ rest) = .done t.length v := by
  cases h with
  | plain hn hq' hb =>
    refine ⟨v, [], rfl, hn, hq', fun rest => ?_⟩
    rw [Quotation.item, if_neg hb]
    rfl
  | @escaped s v h =>
    refine ⟨'\\', s, rfl, by decide, hq.symm, fun rest => ?_⟩
    rw [Quotation.item, if_pos rfl]
    exact h.read rest

theorem items_of_read {cs v : Text} (h : (Quotation.stringItems cs).result = .ok v) :
    ∃ s rest, cs = s ++ '"' :: rest ∧ Items '"' s v := by
  fun_induction Quotation.stringItems cs generalizing v with
  | case1 => cases h
  | case2 => cases h
  | case3 cs _ =>
    obtain rfl := Except.ok.inj h
    exact ⟨[], cs, rfl, .nil⟩
  | case4 => cases h
  | case5 c cs hn hq r u hu =>
    rename_i ih
    obtain ⟨a, rest, rfl, hsize, ha⟩ := item_of_read hn hq hu
    have hdrop : (a ++ rest).drop r.size = rest := by
      rw [hsize, List.drop_left]
    rw [hdrop] at h ih
    cases hr : (Quotation.stringItems rest).result with
    | error flaw => simp [Reading.shift, Reading.map, hr, Except.map] at h
    | ok v' =>
      obtain rfl : u :: v' = v := by simpa [Reading.shift, Reading.map, hr, Except.map] using h
      obtain ⟨w, rest', rfl, hitems⟩ := ih hr
      exact ⟨c :: a ++ w, rest', by simp, .cons ha hitems⟩

theorem Items.read {v : Text} (h : Items '"' s v) (rest : Text) :
    Quotation.stringItems (s ++ '"' :: rest) = .done (s.length + 1) v := by
  induction h with
  | nil => rw [List.nil_append, Quotation.stringItems]; rfl
  | @cons a w v c ha _ ih =>
    obtain ⟨d, t, rfl, hn, hq, hread⟩ := ha.read (by decide)
    rw [List.append_assoc, List.cons_append, Quotation.stringItems, if_neg hn, if_neg hq, hread]
    simp only [Reading.done, List.drop_left]
    rw [ih]
    simp [Reading.shift, Reading.map, Reading.done, Except.map]
    omega

/-- Where something is read behind a quote, a literal of the grammar stands at the front. -/
theorem literal_of_read {form : LiteralForm} {elides : Bool} {cs : Text} {m : Meaning}
    (hq : Quote form q) (h : (Lexeme.read elides (q :: cs)).result = .ok m) :
    ∃ w rest v, q :: cs = w ++ rest ∧ QuotedLiteral form w v := by
  cases hq with
  | rune =>
    rw [read_rune] at h
    obtain ⟨c, b, rest, v, rfl, hn, hq, hitem, -, -⟩ := Quotation.eq_of_rune (eq_done rfl h)
    obtain ⟨s, rest', hcs, hsize, hs⟩ := item_of_read hn hq (congrArg Reading.result hitem)
    rw [hitem] at hsize
    obtain ⟨rfl, -⟩ := List.append_inj hcs hsize
    exact ⟨_, rest, _, by simp, .rune hs⟩
  | interpreted =>
    rw [read_string] at h
    cases hr : (Quotation.stringItems cs).result with
    | error flaw => simp [Quotation.string, Reading.shift, Reading.map, hr, Except.map] at h
    | ok v =>
      obtain ⟨s, rest, rfl, hs⟩ := items_of_read hr
      exact ⟨_, rest, _, by simp, .interpreted hs⟩
  | raw =>
    have hraw := read_rawString elides cs
    rw [Quotation.rawQuote] at hraw
    rw [hraw] at h
    obtain ⟨body, rest, rfl, hbody, -, -⟩ := Quotation.eq_of_rawString (eq_done rfl h)
    refine ⟨_, rest, _, ?_, .raw (s := body) ?_⟩
    · simp [Quotation.rawQuote]
    · intro hmem
      simpa [Quotation.rawQuote] using hbody _ hmem

/-- A literal of the grammar is read, whatever follows. -/
theorem read_eq {form : LiteralForm} {v : Value} (h : QuotedLiteral form w v) (elides : Bool)
    (rest : Text) :
    Lexeme.read elides (w ++ rest) = .done w.length (.token (.literal form) (some v)) := by
  cases h with
  | rune h =>
    obtain ⟨c, t, rfl, hn, hq, hread⟩ := h.read (by decide)
    rw [List.cons_append, read_rune, List.append_assoc]
    have hrune := Quotation.rune_eq hn hq (hread ('\'' :: rest))
    simpa using hrune
  | interpreted h =>
    rw [List.cons_append, read_string, List.append_assoc, Quotation.string]
    simp [h.read rest, Reading.shift, Reading.map, Reading.done, Except.map, Nat.add_comm]
  | @raw s h =>
    have hraw := read_rawString elides (s ++ ['\x60'] ++ rest)
    rw [Quotation.rawQuote] at hraw
    have hbody : ∀ c ∈ s, (c != Quotation.rawQuote) = true := by
      rintro c hc
      simp only [bne_iff_ne]
      rintro rfl
      exact h hc
    have hread := Quotation.rawString_eq hbody rest
    rw [Quotation.rawQuote] at hread
    rw [List.cons_append, hraw, List.append_assoc]
    simpa using hread

end Reading

end QuotedLiteral
end GoSyntax
