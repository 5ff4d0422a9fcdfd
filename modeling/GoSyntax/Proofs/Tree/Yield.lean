import GoSyntax.Proofs.Grammar.Spelling
import GoSyntax.Proofs.Tree.Fits

/-! Expressions by precedence, without the rules that read them: the words of an expression from left
to right, and the shapes in which those words stand for no other expression. -/
namespace GoSyntax

/-- A lexer hands out a token with this kind, text and value, whatever source it reads. -/
def Word.Produced (w : Word) : Prop :=
  ∃ file feed x n, Lexer.ofFeed file feed = .ok x ∧ ∃ s ∈ x.steps n, ∃ t : Token,
    s.outcome = .ok t ∧ t.kind = w.kind ∧ t.text = w.text ∧ t.value = w.value

theorem Word.Produced.stands {w : Word} (h : w.Produced) (hv : w.value ≠ none) : w.Stands := by
  obtain ⟨file, feed, x, n, hx, s, hs, t, ht, hk, htext, hval⟩ := h
  have hgenuine := (Lexer.sound_steps (Lexer.sound_of_ofFeed hx) n s hs).1 t ht
  rcases hgenuine with ⟨hnone, -⟩ | hstands
  · exact absurd (hval.symm.trans hnone) hv
  · rwa [hk, htext, hval] at hstands

theorem Word.Stands.produced {w : Word} (h : w.Stands) : w.Produced := by
  have hclean : '\x00' ∉ w.text ++ [] := by simpa using h.clean
  obtain ⟨⟨t, ht, hbare⟩, -⟩ := (Lexer.at_start "" (w.text ++ [])).next_word h (by simp)
  exact ⟨"", _, _, 1, Lexer.ofText_clean "" hclean, _, List.mem_cons_self, t, ht,
    congrArg Word.kind hbare, congrArg Word.text hbare, congrArg Word.value hbare⟩

/-- Levels enough for each member of a list are enough for all of them. -/
theorem exists_common {γ : Type} {Q : Nat → γ → Prop} {l : List γ}
    (h : ∀ a ∈ l, ∃ s, Q s a) (hmono : ∀ a s s', s ≤ s' → Q s a → Q s' a) :
    ∃ s, ∀ a ∈ l, Q s a := by
  induction l with
  | nil => exact ⟨0, by simp⟩
  | cons a l ih =>
    obtain ⟨s, hs⟩ := h a List.mem_cons_self
    obtain ⟨s', hs'⟩ := ih fun b hb => h b (List.mem_cons_of_mem _ hb)
    refine ⟨max s s', List.forall_mem_cons.2 ⟨hmono a s _ (Nat.le_max_left s s') hs, ?_⟩⟩
    exact fun b hb => hmono b s' _ (Nat.le_max_right s s') (hs' b hb)

namespace Expr

/-- The words of the expression from left to right. A comma may follow the last argument of a
call. -/
inductive Yield : Expr → List Word → Prop
  | ident (i : Ident) : Yield (.ident i) [.identifier i.name]
  | literal (l : BasicLit) : Yield (.literal l) [⟨.literal l.form, l.raw, some l.value⟩]
  | selector {base : Expr} {ws : List Word} (field : Ident) (hb : Yield base ws) :
    Yield (.selector base field) (ws ++ [.delimiter .dot, .identifier field.name])
  | paren {e : Expr} {ws : List Word} (start stop : Position) (h : Yield e ws) :
    Yield (.paren start e stop) (.delimiter .lparen :: (ws ++ [.delimiter .rparen]))
  | unary {e : Expr} {ws : List Word} (start : Position) (op : Operator) (h : Yield e ws) :
    Yield (.unary start op e) (.operator op :: ws)
  | binary {left right : Expr} {ws vs : List Word} (op : Operator) (hl : Yield left ws)
    (hr : Yield right vs) : Yield (.binary op left right) (ws ++ .operator op :: vs)
  | call {function : Expr} {ws vs : List Word} {args : List (Expr × List Word)} (stop : Position)
    (hf : Yield function ws) (ha : ∀ i ∈ args, Yield i.1 i.2)
    (hs : Separated (.delimiter .comma) (args.map Prod.snd) vs) :
    Yield (.call function (args.map Prod.fst) stop)
      (ws ++ .delimiter .lparen :: (vs ++ [.delimiter .rparen]))

/-- The precedence of the operator at the root, if it is a binary one. -/
def precedence? : Expr → Option Nat
  | binary op _ _ => op.precedence?
  | _ => none

def isBinary : Expr → Bool
  | binary .. => true
  | _ => false

/-- Operands are grouped as the precedences of their operators say, from left to right among equals;
what is grouped otherwise stands in parentheses. Leaves are what a lexer hands out. -/
inductive Canonical : Expr → Prop
  | ident {i : Ident} (h : (Word.identifier i.name).Produced) : Canonical (.ident i)
  | literal {l : BasicLit} (h : Word.Produced ⟨.literal l.form, l.raw, some l.value⟩) :
    Canonical (.literal l)
  | selector {base : Expr} {field : Ident} (hb : Canonical base) (hu : base.isUnary = false)
    (hn : base.isBinary = false) (hf : (Word.identifier field.name).Produced) :
    Canonical (.selector base field)
  | paren {start stop : Position} {e : Expr} (h : Canonical e) : Canonical (.paren start e stop)
  | unary {start : Position} {op : Operator} {e : Expr} (hop : op.isUnary = true)
    (h : Canonical e) (hn : e.isBinary = false) : Canonical (.unary start op e)
  | binary {op : Operator} {k : Nat} {left right : Expr} (hop : op.precedence? = some k)
    (hl : Canonical left) (hr : Canonical right) (hle : ∀ j, left.precedence? = some j → k ≤ j)
    (hlt : ∀ j, right.precedence? = some j → k < j) : Canonical (.binary op left right)
  | call {function : Expr} {args : List Expr} {stop : Position} (hf : Canonical function)
    (hu : function.isUnary = false) (hn : function.isBinary = false)
    (ha : ∀ a ∈ args, Canonical a) : Canonical (.call function args stop)

/-- What an expression that is read from the stage on has at its root. -/
def Roots : Stage → Expr → Prop
  | .goal n, e | .chain n, e => ∀ j, e.precedence? = some j → n ≤ j
  | .unary, e => e.isBinary = false
  | .operand, e => e.isUnary = false ∧ e.isBinary = false

variable {stage : Stage} {s : Nat} {e : Expr}

theorem precedence?_of_not_binary (h : e.isBinary = false) : e.precedence? = none := by
  cases e <;> first | rfl | cases h

/-- The rule for the loosest operators takes any expression. -/
theorem roots_first (e : Expr) : Roots (.goal 1) e := by
  intro j hj
  cases e with
  | binary op _ _ =>
    have hall : Operator.all.all (fun o => o.precedence?.all (1 ≤ ·)) = true := by decide
    have hop := List.all_eq_true.1 hall op op.mem_all
    have hprec : op.precedence? = some j := hj
    simpa [hprec] using hop
  | _ => cases hj

theorem Fits.canonical (h : Fits stage s e) : e.Canonical ∧ Roots stage e := by
  induction h with
  | goal _ ih => exact ih
  | single _ ih =>
    refine ⟨ih.1, fun j hj => ?_⟩
    rw [precedence?_of_not_binary ih.2] at hj
    cases hj
  | binary hop hk _ _ ihl ihr =>
    refine ⟨.binary hop ihl.1 ihr.1 ihl.2 ihr.2, fun j hj => ?_⟩
    cases hop.symm.trans hj
    exact hk
  | primary _ ih => exact ⟨ih.1, ih.2.2⟩
  | unary hop _ ih => exact ⟨.unary hop ih.1 ih.2, rfl⟩
  | ident hi => exact ⟨.ident (Word.Stands.produced hi), rfl, rfl⟩
  | literal hl => exact ⟨.literal (Word.Stands.produced hl), rfl, rfl⟩
  | paren _ ih => exact ⟨.paren ih.1, rfl, rfl⟩
  | selector _ hf ih =>
    exact ⟨.selector ih.1 ih.2.1 ih.2.2 (Word.Stands.produced hf), rfl, rfl⟩
  | call _ _ ihf iha => exact ⟨.call ihf.1 ihf.2.1 ihf.2.2 fun a ha => (iha a ha).1, rfl, rfl⟩

theorem Fits.of_unary (h : Fits .unary s e) (hs : stage ≠ .operand) : Fits stage (s + 1) e := by
  cases stage with
  | goal n => exact .goal (.single h)
  | chain n => exact .single (h.mono (Nat.le_succ s))
  | unary => exact h.mono (Nat.le_succ s)
  | operand => exact absurd rfl hs

theorem Fits.of_operand (h : Fits .operand s e) (stage : Stage) : Fits stage (s + 2) e := by
  by_cases hs : stage = .operand
  · rw [hs]
    exact h.mono (Nat.le_add_right s 2)
  · exact (Fits.primary h).of_unary hs

/-- A canonical expression can be read from every stage that allows for its root, where there are
levels enough. -/
theorem Canonical.fits (h : e.Canonical) : ∃ s, ∀ stage, Roots stage e → Fits stage s e := by
  induction h with
  | @ident i hi =>
    have hoperand : Fits .operand 0 (.ident i) := .ident (hi.stands (by simp [Word.identifier]))
    exact ⟨2, fun stage _ => hoperand.of_operand stage⟩
  | @literal l hl =>
    have hoperand : Fits .operand 0 (.literal l) := .literal (hl.stands (by simp))
    exact ⟨2, fun stage _ => hoperand.of_operand stage⟩
  | selector _ hu hn hf ih =>
    obtain ⟨s, hs⟩ := ih
    have hname := hf.stands (by simp [Word.identifier])
    exact ⟨s + 2, fun stage _ => Fits.of_operand (.selector (hs .operand ⟨hu, hn⟩) hname) stage⟩
  | paren _ ih =>
    obtain ⟨s, hs⟩ := ih
    exact ⟨s + 2, fun stage _ => Fits.of_operand (.paren (hs (.goal 1) (roots_first _))) stage⟩
  | unary hop _ hn ih =>
    obtain ⟨s, hs⟩ := ih
    refine ⟨s + 2, fun stage hroot => ?_⟩
    refine Fits.of_unary (.unary hop (hs .unary hn)) ?_
    rintro rfl
    cases hroot.1
  | @binary op k left right hop _ _ hle hlt ihl ihr =>
    obtain ⟨s₁, hs₁⟩ := ihl
    obtain ⟨s₂, hs₂⟩ := ihr
    have hleft := (hs₁ (.chain k) hle).mono (Nat.le_max_left s₁ s₂)
    have hright := (hs₂ (.goal (k + 1)) hlt).mono (Nat.le_max_right s₁ s₂)
    have hchain : ∀ n, n ≤ k → Fits (.chain n) (max s₁ s₂) (.binary op left right) :=
      fun n hn => .binary hop hn hleft hright
    refine ⟨max s₁ s₂ + 1, fun stage hroot => ?_⟩
    cases stage with
    | goal n => exact .goal (hchain n (hroot k hop))
    | chain n => exact (hchain n (hroot k hop)).mono (Nat.le_succ _)
    | unary => cases hroot
    | operand => cases hroot.2
  | @call function args stop _ hu hn _ ihf iha =>
    obtain ⟨s₁, hs₁⟩ := ihf
    have hfits : ∀ a ∈ args, ∃ s, Fits (.goal 1) s a := by
      intro a ha
      obtain ⟨s, hs⟩ := iha a ha
      exact ⟨s, hs (.goal 1) (roots_first a)⟩
    obtain ⟨s₂, hs₂⟩ := exists_common hfits fun _ _ _ hle h => h.mono hle
    have hfunction := (hs₁ .operand ⟨hu, hn⟩).mono (Nat.le_max_left s₁ s₂)
    have hargs := fun a ha => (hs₂ a ha).mono (Nat.le_max_right s₁ s₂)
    exact ⟨max s₁ s₂ + 2, fun stage _ => Fits.of_operand (.call hfunction hargs) stage⟩

theorem canonical_iff_fits : e.Canonical ↔ ∃ s, Fits (.goal 1) s e := by
  constructor
  · intro h
    obtain ⟨s, hs⟩ := h.fits
    exact ⟨s, hs (.goal 1) (roots_first e)⟩
  · rintro ⟨s, hs⟩
    exact hs.canonical.1

end Expr
end GoSyntax
