import GoSyntax.Proofs.Grammar.FileAgree
import GoSyntax.Proofs.Lexer.Uncommented

/-! Comments do not count. A source and what it is without comments give parsers the same tokens, and
parsers make nothing else of them. -/
namespace GoSyntax

/-- A source is lexed without its comments if it is lexed with them. The visible tokens are then the
same up to places, and every rule gives the same up to places or fails in the same way. -/
theorem comments_ignored {file : String} {feed : Feed} {x : Lexer} {ts : List Token}
    (hx : Lexer.ofFeed file feed = .ok x) (ht : x.tokens = .ok ts) (file' : String) :
    ∃ y us, Lexer.ofText file' (uncommented ts) = .ok y ∧ y.tokens = .ok us ∧
      (us.filterMap Token.visible?).map Token.shape = (ts.filterMap Token.visible?).map Token.shape ∧
      ∀ (rule : Rule) (limit : Nat), SameOutcome Tree.shape (rule.parseFeed limit file feed)
        (rule.parseFeed limit file' (.ofText (uncommented ts))) := by
  obtain ⟨y, us, hy, hu, hseen⟩ := Lexer.tokens_uncommented hx ht file'
  exact ⟨y, us, hy, hu, hseen, fun rule limit =>
    Rule.parseFeed_alike hx ht hy hu hseen.symm rule limit⟩

/-- `a+/**/+b//` and `a+ +b`: in place of the first comment a blank stays, so that the signs on its
sides are two signs still. -/
theorem comments_ignored_signs : ∃ (x : Lexer) (ts : List Token),
    Lexer.ofFeed "a.go" (.ofBytes [0x61, 0x2B, 0x2F, 0x2A, 0x2A, 0x2F, 0x2B, 0x62, 0x2F, 0x2F]) =
        .ok x ∧ x.tokens = .ok ts ∧ uncommented ts = ['a', '+', ' ', '+', 'b'] ∧
      SameOutcome Tree.shape
        (Rule.expr.parseFeed 8 "a.go"
          (.ofBytes [0x61, 0x2B, 0x2F, 0x2A, 0x2A, 0x2F, 0x2B, 0x62, 0x2F, 0x2F]))
        (Rule.expr.parseFeed 8 "b.go" (.ofText ['a', '+', ' ', '+', 'b'])) := by
  obtain ⟨x, hx⟩ : ∃ x, Lexer.ofFeed "a.go"
      (.ofBytes [0x61, 0x2B, 0x2F, 0x2A, 0x2A, 0x2F, 0x2B, 0x62, 0x2F, 0x2F]) = .ok x := ⟨_, rfl⟩
  have hts : ∃ ts, x.tokens = .ok ts ∧ uncommented ts = ['a', '+', ' ', '+', 'b'] := by
    cases hx
    exact ⟨_, rfl, rfl⟩
  obtain ⟨ts, hts, hwithout⟩ := hts
  obtain ⟨y, us, -, -, -, hsame⟩ := comments_ignored hx hts "b.go"
  rw [hwithout] at hsame
  exact ⟨x, ts, hx, hts, hwithout, hsame .expr 8⟩

end GoSyntax
