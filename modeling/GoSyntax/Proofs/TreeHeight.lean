import GoSyntax.Proofs.Expressions
import GoSyntax.Proofs.Defects
import GoSyntax.Proofs.Tree.Height

/-! What the limit on open rules says about the height of trees. It bounds all steps down a tree but
those to the left, which rules take in loops and without opening a level: of these a tree can have any
number, and its height then is any number too. -/
namespace GoSyntax

namespace Tree

/-- The longest way down the tree: a type or an expression left with a step to the left counts for
one, any other for `other`. -/
def levels (other : Nat) : Tree → Nat
  | file f => f.levels other
  | decl (.func f) => f.levels other
  | func f => f.levels other
  | signature s => s.levels other
  | params l => l.levels other
  | type t => t.levels other
  | expr e => e.levels other
  | block _ | ident _ | nothing => 0

/-- The types and expressions on the longest way down the tree. -/
def height (t : Tree) : Nat := t.levels 1

/-- The most steps to the left on a way down the tree. -/
def lefts (t : Tree) : Nat := t.levels 0

theorem Fits.height_le {t : Tree} {room : Nat} (h : t.Fits room) :
    t.lefts ≤ t.height ∧ t.height ≤ room + t.lefts := by
  cases t with
  | file f => exact File.Fits.levels_le h
  | decl d =>
    cases d with
    | func f => exact FuncDecl.Fits.levels_le h
  | func f => exact FuncDecl.Fits.levels_le h
  | signature s => exact Part.Fits.levels_le h
  | params l => exact Part.Fits.levels_le h
  | type t => exact Part.Fits.levels_le h
  | expr e =>
    have hle := Expr.Fits.levels_le h
    simp only [Stage.cost] at hle
    simp only [lefts, height, levels]
    omega
  | block b => exact ⟨Nat.le_refl 0, Nat.zero_le room⟩
  | ident i => exact ⟨Nat.le_refl 0, Nat.zero_le room⟩
  | nothing => exact ⟨Nat.le_refl 0, Nat.zero_le room⟩

end Tree

/-- Calls in turn give trees that fit the levels there are. -/
theorem Parser.fits_session {p : Parser} (hp : p.Good) (rules : List Rule) :
    ∀ c ∈ p.session rules, ∀ t, c.outcome = .ok t → t.Fits p.room := by
  induction rules generalizing p with
  | nil => simp [Parser.session]
  | cons rule rules ih =>
    obtain ⟨hkept, hfits, -⟩ := kept_call hp rule
    intro c hc
    obtain rfl | ⟨hcrash, hc⟩ := mem_session_cons.1 hc
    · exact hfits
    · have hkept := hkept hcrash
      have hrest := ih hkept.good c hc
      rwa [hkept.room] at hrest

/-- A name with `n` selectors behind it. -/
def selectors : Nat → Expr
  | 0 => .ident ⟨['a'], .nowhere⟩
  | n + 1 => .selector (selectors n) ⟨['a'], .nowhere⟩

theorem levels_selectors (n : Nat) : (selectors n).levels 1 = n + 1 := by
  induction n with
  | zero => rfl
  | succ n ih => rw [selectors, Expr.levels, ih]

/-- Two levels are enough for any number of selectors. -/
theorem fits_selectors (n : Nat) : Expr.Fits (.goal 1) 2 (selectors n) := by
  have hletter : Ident.Lawful ⟨['a'], .nowhere⟩ := Word.stands_letter (by decide) rfl
  have hoperand : Expr.Fits .operand 0 (selectors n) := by
    induction n with
    | zero => exact .ident hletter
    | succ n ih => exact .selector ih hletter
  exact .goal (.single (.primary hoperand))

/-- Trees of any height are read with two levels. -/
theorem exists_high_tree (n : Nat) :
    ∃ p t, Parser.ofFeed 2 "a.go" (.ofText (selectors n).print) = .ok p ∧
      (p.call .expr).outcome = .ok t ∧ t.height = n + 1 := by
  obtain ⟨p, e, q, hp, hexpr, herase, -⟩ := expr_print (fits_selectors n) (Nat.le_refl 2) "a.go"
  refine ⟨p, .expr e, hp, ?_, ?_⟩
  · have hparse : Rule.parse .expr p = .ok (.expr e) q := Parse.map_ok hexpr Tree.expr
    simp only [Parser.call, hparse]
  · show e.levels 1 = n + 1
    rw [← Expr.levels_erase, herase, Expr.levels_erase, levels_selectors]

/-- Whatever is called in turn, a tree is higher than it has steps to the left by the limit at most. -/
theorem limit_bounds_height_but_lefts {limit : Nat} {file : String} {feed : Feed} {p : Parser}
    (hp : Parser.ofFeed limit file feed = .ok p) (rules : List Rule) :
    ∀ c ∈ p.session rules, ∀ t, c.outcome = .ok t →
      t.lefts ≤ t.height ∧ t.height ≤ limit + t.lefts := by
  obtain ⟨hgood, hdepth, rfl⟩ := Parser.good_of_ofFeed hp
  intro c hc t ht
  have hfits := Parser.fits_session hgood rules c hc t ht
  rw [Parser.room, hdepth, Nat.sub_zero] at hfits
  exact hfits.height_le

/-- Three selectors behind a name: with a limit of two, at least two of four levels are such steps. -/
theorem limit_bounds_height_but_lefts_selectors :
    ∃ p c t, Parser.ofFeed 2 "a.go" (.ofText "a.a.a.a".toList) = .ok p ∧ c ∈ p.session [.expr] ∧
      c.outcome = .ok t ∧ t.height = 4 ∧ 2 ≤ t.lefts := by
  obtain ⟨p, t, hp, ht, hheight⟩ := exists_high_tree 3
  have hmem : p.call .expr ∈ p.session [.expr] := by simp [Parser.session]
  have hle := (limit_bounds_height_but_lefts hp [.expr] _ hmem t ht).2
  exact ⟨p, _, t, hp, hmem, ht, hheight, by omega⟩

/-- No number that depends on the limit alone bounds the height. -/
theorem limit_leaves_height_unbounded :
    ¬∀ limit, ∃ bound, ∀ (file : String) (feed : Feed) (p : Parser) (rules : List Rule),
      Parser.ofFeed limit file feed = .ok p → ∀ c ∈ p.session rules, ∀ t, c.outcome = .ok t →
        t.height ≤ bound := by
  intro h
  obtain ⟨bound, hbound⟩ := h 2
  obtain ⟨p, t, hp, ht, hheight⟩ := exists_high_tree bound
  have hle := hbound _ _ p [.expr] hp (p.call .expr) (by simp [Parser.session]) t ht
  omega

end GoSyntax
