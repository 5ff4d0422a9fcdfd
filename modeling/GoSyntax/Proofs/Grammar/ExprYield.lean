import GoSyntax.Proofs.Grammar.Takes

/-! The words that the rules for expressions take are those of the expression that they give. -/
namespace GoSyntax

theorem canonical_of_expr {p q : Parser} {e : Expr} (hp : p.Good) (h : Parse.expr p = .ok e q) :
    e.Canonical := ((Parse.sure_expr hp).of_ok h).2.canonical.1

namespace Parse
namespace Expr

open GoSyntax.Parser
open GoSyntax.Expr (Yield)

/-- The rules one level deeper take the words of what they give. -/
def Deep (deeper : Goal → Parse GoSyntax.Expr) : Prop :=
  ∀ goal (p : Parser), p.Good → Takes (deeper goal) p fun e ws _ => e.Yield ws

section Rules

variable {deeper : Goal → Parse GoSyntax.Expr} (hd : Deep deeper) {p : Parser}

include hd

theorem takes_operand (hp : p.Good) : Takes (operand deeper) p fun e ws _ => e.Yield ws := by
  refine takes_peek.bind ?_
  rintro _ _ _ - ⟨rfl, rfl, rfl⟩
  split
  · refine (takes_identifier hp _).map ?_
    rintro i _ q - ⟨-, rfl⟩
    exact .ident i
  · rename_i hk
    refine (takes_advance_fixed hp hk rfl).bind ?_
    rintro t _ q₁ h₁ ⟨-, rfl⟩
    refine (hd (.binary 1) q₁ (h₁.good hp)).bind fun e ws q₂ h₂ he => ?_
    refine (takes_fixed (h₂.good (h₁.good hp)) _ rfl).bind ?_
    rintro closing _ q₃ - rfl
    refine .pure ?_
    simpa using Yield.paren t.pos closing.stop he
  · rename_i form hk
    refine (takes_advance hp (by simp [hk])).bind ?_
    rintro _ _ q - ⟨rfl, rfl⟩
    split
    · rename_i v hv
      refine .pure ?_
      have hword : p.peek.word = ⟨.literal form, p.peek.text, some v⟩ := by
        rw [Token.word_of_ne (by simp [hk]), hk, hv]
      simpa [hword] using Yield.literal ⟨p.peek.pos, form, p.peek.text, v⟩
    · rintro _ _ ⟨⟩
  · exact takes_unexpected _

theorem takes_postfixStep {e : GoSyntax.Expr} {ws : List Word} (hp : p.Good) (he : e.Yield ws) :
    Takes (postfixStep deeper e) p fun r vs _ => r.value.Yield (ws ++ vs) := by
  refine (takes_consumeIf hp rfl).bind fun b _ q₁ h₁ hb => ?_
  rcases hb with ⟨rfl, rfl⟩ | ⟨rfl, -, rfl, rfl⟩
  · refine (takes_identifier (h₁.good hp) _).bind ?_
    rintro field _ q₂ - ⟨-, rfl⟩
    exact .pure (Yield.selector field he)
  · refine (takes_consumeIf hp rfl).bind fun b _ q₁ h₁ hb => ?_
    rcases hb with ⟨rfl, rfl⟩ | ⟨rfl, -, rfl, rfl⟩
    · refine (Takes.commaList (h₁.good hp) (hd (.binary 1))).bind ?_
      rintro _ vs q₂ h₂ ⟨args, rfl, hargs, hsep⟩
      refine (takes_fixed (h₂.good (h₁.good hp)) _ rfl).bind ?_
      rintro closing _ q₃ - rfl
      refine .pure ?_
      simpa using Yield.call closing.stop he hargs hsep
    · exact .pure (by simpa using he)

theorem takes_primary (hp : p.Good) : Takes (primary deeper) p fun e ws _ => e.Yield ws := by
  refine .nested ?_
  have hp' : p.enter.Good := hp.enter
  refine (takes_operand hd hp').bind fun e ws q₁ h₁ he => ?_
  refine Takes.loop (I := fun e' vs => Yield e' (ws ++ vs)) ?_ (by simpa using he)
  intro e' vs q hq he'
  have hstep := takes_postfixStep hd (hq.good (h₁.good hp')) he'
  simpa only [List.append_assoc] using hstep

theorem takes_unaryRule (hp : p.Good) : Takes (unaryRule deeper) p fun e ws _ => e.Yield ws := by
  refine takes_peek.bind ?_
  rintro _ _ _ - ⟨rfl, rfl, rfl⟩
  split
  · rename_i op hk
    split
    · refine (takes_advance_fixed hp hk rfl).bind ?_
      rintro t _ q₁ h₁ ⟨-, rfl⟩
      refine (hd .unary q₁ (h₁.good hp)).bind fun e ws q₂ h₂ he => .pure ?_
      simpa using Yield.unary t.pos op he
    · exact takes_primary hd hp
  · exact takes_primary hd hp

omit hd in
theorem takes_operatorInView (n : Nat) : Takes (operatorInView? n) p fun r ws q =>
    ws = [] ∧ p = q ∧ ∀ op k, r = some (op, k) → p.peek.kind = .operator op := by
  refine takes_peek.bind ?_
  rintro _ _ _ - ⟨rfl, rfl, rfl⟩
  split
  · rename_i op hk
    refine .pure ⟨rfl, rfl, fun op' k h => ?_⟩
    obtain ⟨j, -, hj⟩ := Option.map_eq_some_iff.1 h
    cases hj
    exact hk
  · exact .pure ⟨rfl, rfl, by simp⟩

theorem takes_binaryStep {n : Nat} {left : GoSyntax.Expr} {ws : List Word} (hp : p.Good)
    (hl : left.Yield ws) :
    Takes (binaryStep deeper n left) p fun r vs _ => r.value.Yield (ws ++ vs) := by
  refine (takes_operatorInView n).bind ?_
  rintro r _ _ - ⟨rfl, rfl, hr⟩
  cases r with
  | none => exact .pure (by simpa using hl)
  | some x =>
    obtain ⟨op, k⟩ := x
    refine (takes_advance_fixed hp (hr op k rfl) rfl).bind ?_
    rintro t _ q₁ h₁ ⟨-, rfl⟩
    refine (hd (.binary (k + 1)) q₁ (h₁.good hp)).bind fun e vs q₂ h₂ he => .pure ?_
    simpa using Yield.binary op hl he

theorem takes_binaryRule (hp : p.Good) (n : Nat) :
    Takes (binaryRule deeper n) p fun e ws _ => e.Yield ws := by
  refine (takes_unaryRule hd hp).bind fun e ws q₁ h₁ he => ?_
  refine Takes.loop (I := fun e' vs => Yield e' (ws ++ vs)) ?_ (by simpa using he)
  intro e' vs q hq he'
  have hstep := takes_binaryStep hd (n := n) (hq.good (h₁.good hp)) he'
  simpa only [List.append_assoc] using hstep

end Rules

theorem deep_rule (room : Nat) : Deep (rule room) := by
  induction room with
  | zero => exact fun _ _ _ => takes_tooDeep
  | succ room ih =>
    intro goal p hp
    cases goal with
    | binary n => exact .nested (takes_binaryRule ih hp.enter n)
    | unary => exact .nested (takes_unaryRule ih hp.enter)

end Expr

theorem takes_expr {p : Parser} (hp : p.Good) : Takes expr p fun e ws _ => e.Yield ws :=
  Expr.deep_rule p.room (.binary 1) p hp

theorem takes_canonical {p : Parser} (hp : p.Good) :
    Takes expr p fun e ws _ => e.Canonical ∧ e.Yield ws := by
  intro e q h
  obtain ⟨ws, htaken, hyield⟩ := takes_expr hp e q h
  exact ⟨ws, htaken, canonical_of_expr hp h, hyield⟩

end Parse
end GoSyntax
