import GoSyntax.Proofs.Grammar.ExprComplete
import GoSyntax.Proofs.Grammar.ExprYield

/-! Expressions by precedence: what is read is grouped as the precedences say and made of the words
that were taken, and whatever is grouped like that is read back from its print. -/
namespace GoSyntax

variable {p q : Parser} {e : Expr} {s limit : Nat}

/-- The print of an expression that fits is read back, up to the semicolon that the end of the
source stands for. -/
theorem expr_print (h : Expr.Fits (.goal 1) s e) (hs : s ≤ limit) (file : String) :
    ∃ p e' q, Parser.ofText limit file e.print = .ok p ∧ Parse.expr p = .ok e' q ∧
      e'.erase = e.erase ∧ ∃ t u, q.stream = [.ok t, .ok u] ∧ t.kind = .delimiter .semicolon ∧
        t.text = [] ∧ u.kind = .endOfFile := by
  obtain ⟨w, ws, hreads⟩ := Parse.Expr.reads_of_fits h
  have hspells := hreads.spelled false [] (by simp)
  rw [List.append_nil] at hspells
  obtain ⟨p, us, ts, hp, hstream, hwords, hend, hdepth, hlimit⟩ := hspells.stream limit file
  have hending := hend.words
  obtain ⟨t, u, rfl, hk, htext, hu⟩ := hend
  obtain ⟨hholds, hbeyond⟩ := Parser.holds_of_stream
    (hstream.trans (List.append_nil _).symm) (by simp) rfl
  rw [List.map_append, hwords, hending] at hholds
  have hroom : p.room = limit := by rw [Parser.room, hdepth, hlimit, Nat.sub_zero]
  obtain ⟨e', q, hexpr, herase, hq⟩ := hreads.gives p.room p (.delimiter .semicolon) [.endOfFile]
    ⟨Nat.le_refl _, by rwa [hroom], hholds⟩ ⟨by simp, by simp⟩ (by simp)
  refine ⟨p, e', q, hp, hexpr, herase, t, u, ?_, hk, htext, ?_⟩
  · obtain ⟨ws', htaken, -⟩ := Parse.takes_expr (Parser.good_of_ofFeed hp).1 e' q hexpr
    refine htaken.stream_eq (by simpa using hstream) ?_
    have hlen := hq.holds.length
    rw [hq.beyond, hbeyond] at hlen
    simpa [Parser.stream] using hlen
  · rw [← Parser.kind_word, hu]
    rfl

/-- On every stream, an expression that is read is canonical and has the tokens that were taken as
its words. Conversely every canonical expression, wherever it comes from, is read back from its print
up to positions where there are levels enough, and leaves just the semicolon that the end of the
source stands for. -/
theorem expressions_exact :
    (∀ (p q : Parser) (e : Expr), p.Good → Parse.expr p = .ok e q →
      e.Canonical ∧ ∃ ts : List Token, p.stream = ts.map .ok ++ q.stream ∧
        e.Yield (ts.map Token.word)) ∧
    ∀ e : Expr, e.Canonical → ∃ n, ∀ limit, n ≤ limit → ∀ file, ∃ p e' q,
      Parser.ofText limit file e.print = .ok p ∧ Parse.expr p = .ok e' q ∧ e'.erase = e.erase ∧
        ∃ t u, q.stream = [.ok t, .ok u] ∧ t.kind = .delimiter .semicolon ∧ t.text = [] ∧
          u.kind = .endOfFile := by
  constructor
  · intro p q e hp h
    refine ⟨canonical_of_expr hp h, ?_⟩
    obtain ⟨_, ⟨ts, hts, rfl⟩, hyield⟩ := Parse.takes_expr hp e q h
    exact ⟨ts, hts, hyield⟩
  · intro e he
    obtain ⟨s, hs⟩ := Expr.canonical_iff_fits.1 he
    exact ⟨s, fun limit hle file => expr_print hs hle file⟩

/-- A product behind a difference, with a sign before its right factor. -/
def signedProduct : Expr :=
  .binary .sub (.ident ⟨['a'], .nowhere⟩) (.binary .mul (.ident ⟨['b'], .nowhere⟩)
    (.unary .nowhere .sub (.ident ⟨['c'], .nowhere⟩)))

theorem canonical_signedProduct : signedProduct.Canonical := by
  have hletter : ∀ c ∈ ['a', 'b', 'c'], (Word.identifier [c]).Produced := by
    intro c hc
    simp only [List.mem_cons, List.not_mem_nil, or_false] at hc
    refine Word.Stands.produced ?_
    rcases hc with rfl | rfl | rfl <;> exact Word.stands_letter (by decide) rfl
  have hproduct : Expr.Canonical (.binary .mul (.ident ⟨['b'], .nowhere⟩)
      (.unary .nowhere .sub (.ident ⟨['c'], .nowhere⟩))) :=
    .binary rfl (.ident (hletter 'b' (by simp))) (.unary rfl (.ident (hletter 'c' (by simp))) rfl)
      (by simp [Expr.precedence?]) (by simp [Expr.precedence?])
  refine .binary rfl (.ident (hletter 'a' (by simp))) hproduct (by simp [Expr.precedence?]) ?_
  rintro _ ⟨⟩
  decide

theorem expressions_exact_product : ∃ limit p e q,
    Parser.ofText limit "a.go" "a - b * -c".toList = .ok p ∧ p.Good ∧ Parse.expr p = .ok e q ∧
      e.erase = signedProduct.erase ∧ e.Canonical ∧ ∃ ts : List Token,
        p.stream = ts.map .ok ++ q.stream ∧ e.Yield (ts.map Token.word) := by
  obtain ⟨n, hn⟩ := expressions_exact.2 signedProduct canonical_signedProduct
  obtain ⟨p, e, q, hp, hexpr, herase, -⟩ := hn n (Nat.le_refl n) "a.go"
  have hprint : signedProduct.print = "a - b * -c".toList := rfl
  have hgood := (Parser.good_of_ofFeed hp).1
  rw [hprint] at hp
  exact ⟨n, p, e, q, hp, hgood, hexpr, herase, expressions_exact.1 p q e hgood hexpr⟩

end GoSyntax
