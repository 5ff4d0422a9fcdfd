import GoSyntax.Grammar.Expr
import GoSyntax.Proofs.Grammar.Sure
import GoSyntax.Proofs.Tree.Fits

/-! The rules for names, literals and expressions give only trees of the grammar. -/
namespace GoSyntax

namespace Lexeme

/-- An identifier is worth its own text. -/
theorem read_identifier {elides : Bool} {c : Char} {cs : Text} {n : Nat} {v : Option Value}
    (h : read elides (c :: cs) = .done n (.token .identifier v)) :
    v = some (.text ((c :: cs).take n)) := by
  have ho := read_opening elides c cs
  generalize read elides (c :: cs) = r at h ho
  have hlit : r.IsLiteral → False := by
    intro hl
    obtain ⟨form, w, hm⟩ := hl.eq_token (congrArg Reading.result h)
    cases hm
  cases ho with
  | newline =>
    have hm := Except.ok.inj (congrArg Reading.result h)
    cases elides <;> cases hm
  | lineComment => cases congrArg Reading.result h
  | blockComment =>
    unfold Comment.block at h
    split at h <;> cases congrArg Reading.result h
  | rune => exact (hlit (Quotation.literal_rune cs)).elim
  | string => exact (hlit (Quotation.literal_string cs)).elim
  | rawString => exact (hlit (Quotation.literal_rawString cs)).elim
  | number => exact (hlit (Number.literal_read (c :: cs))).elim
  | word =>
    have hsize : (cs.takeWhile Identifier.isContinue).length + 1 = n := congrArg Reading.size h
    have hm := Except.ok.inj (congrArg Reading.result h)
    split at hm
    · cases hm
    · cases hm
      rw [← hsize, List.take_succ_cons]
      congr 3
      exact List.prefix_iff_eq_take.1 (List.takeWhile_prefix _)
  | symbol =>
    rw [symbol_eq_longest] at h
    split at h
    · cases congrArg Reading.result h
    · rename_i s k hs
      have hmem := (longestSymbol?_eq_some hs).1
      split at h
      · cases congrArg Reading.result h
      · cases congrArg Reading.result h
        have hall : symbols.all (fun x => x.2 ≠ .identifier) = true := by decide
        have := List.all_eq_true.1 hall _ hmem
        simp at this

end Lexeme

theorem Word.Stands.identifier {s : Text} {v : Option Value}
    (h : Word.Stands ⟨.identifier, s, v⟩) : v = some (.text s) := by
  obtain ⟨c, cs, hs⟩ := List.exists_cons_of_ne_nil h.ne_nil
  have hr := h.read false [] (by simp)
  simp only at hs
  subst hs
  rw [List.append_nil] at hr
  have hv := Lexeme.read_identifier hr
  rwa [List.take_length] at hv

theorem Ident.lawful_ofToken {t : Token} (h : t.Lawful) (hk : t.kind = .identifier) :
    (Ident.ofToken t).Lawful := by
  have hs := h.stands (by simp [hk]) (by simp [hk])
  rw [hk] at hs
  have hv := hs.identifier
  rw [hv] at hs
  exact hs

namespace Parse

open GoSyntax.Parser

variable {p q : Parser}

theorem sure_ident (hp : p.Good) (wanted : Expected) :
    Sure (identifier wanted) p fun i q =>
      i.Lawful ∧ p.peek.kind = .identifier ∧ q.ahead.length < p.ahead.length := by
  refine (sure_identifier hp wanted).mono ?_
  rintro i q - ⟨rfl, hk, hq⟩
  exact ⟨Ident.lawful_ofToken hp.peek hk, hk, hq⟩

theorem sure_stringLit {t : Token} (hp : p.Good) (ht : t.Lawful) (hk : t.kind.isString = true) :
    Sure (stringLit t) p fun s q => s.Lawful ∧ p = q := by
  cases hkind : t.kind with
  | literal form =>
    have hs := ht.stands (by simp [hkind]) (by simp [hkind])
    have hprop := ht.proper
    rw [hkind] at hk
    rw [Token.Proper, hkind] at hprop
    have hform : form.valueSort = .text := by cases form <;> first | rfl | cases hk
    simp only [Kind.valueSort?, hform, Option.map_eq_some_iff] at hprop
    obtain ⟨v, hv, hsort⟩ := hprop
    cases v with
    | text s =>
      unfold stringLit
      rw [hv]
      refine .pure hp ⟨⟨form, hk, ?_⟩, rfl⟩
      rw [hkind, hv] at hs
      exact hs
    | _ => cases hsort
  | _ => rw [hkind] at hk; cases hk

namespace Expr

open GoSyntax.Expr (Fits)

/-- The rules one level deeper give expressions that fit. -/
def Deeper (deeper : Goal → Parse GoSyntax.Expr) : Prop :=
  ∀ p : Parser, p.Good →
    (∀ n, Sure (deeper (.binary n)) p fun e q =>
      Fits (.goal n) p.room e ∧ ∀ op k, q.peek.kind = .operator op → op.precedence? = some k → k < n) ∧
    Sure (deeper .unary) p fun e _ => ∃ s, p.room = s + 1 ∧ Fits .unary s e

section Rules

variable {deeper : Goal → Parse GoSyntax.Expr} (hd : Deeper deeper)

include hd

theorem sure_operand (hp : p.Good) :
    Sure (operand deeper) p fun e _ => Fits .operand p.room e := by
  refine (sure_peek hp).bind ?_
  rintro _ _ - ⟨rfl, rfl⟩
  split
  · exact (sure_ident hp _).map fun i q _ hi => .ident hi.1
  · refine (sure_advance hp).bind fun t q₁ h₁ _ => ?_
    refine ((hd q₁ h₁.good).1 1).bind fun e q₂ h₂ he => ?_
    refine (sure_require h₂.good _ _).bind fun t q₃ h₃ _ => .pure h₃.good ?_
    have hfits := he.1
    rw [h₁.room] at hfits
    exact .paren hfits
  · rename_i form hk
    refine (sure_advance hp).bind ?_
    rintro t q₁ h₁ ⟨rfl, -⟩
    have hs := hp.peek.stands (by simp [hk]) (by simp [hk])
    have hprop := hp.peek.proper
    rw [Token.Proper, hk] at hprop
    cases hv : p.peek.value with
    | none => simp [hv, Kind.valueSort?] at hprop
    | some v =>
      refine .pure h₁.good (.literal ?_)
      rw [hk, hv] at hs
      exact hs
  · exact sure_unexpected hp _

theorem sure_postfixStep {e : GoSyntax.Expr} (hp : p.Good) (he : Fits .operand p.room e) :
    Sure (postfixStep deeper e) p
      (Round (fun e' _ => Fits .operand p.room e') (fun e' _ => Fits .operand p.room e') p) := by
  refine (sure_consumeIf hp (by simp)).bind fun b q₁ h₁ hb => ?_
  rcases hb with ⟨rfl, -, hlt⟩ | ⟨rfl, -, rfl⟩
  · refine (sure_ident h₁.good _).bind fun i q₂ h₂ hi => .pure h₂.good ?_
    exact ⟨.selector he hi.1, by have := h₂.ahead; omega⟩
  · refine (sure_consumeIf hp (by simp)).bind fun b q₁ h₁ hb => ?_
    rcases hb with ⟨rfl, -, hlt⟩ | ⟨rfl, -, rfl⟩
    · have hlist : Sure (commaList (.delimiter .rparen) (deeper (.binary 1))) q₁
          fun args _ => ∀ a ∈ args, Fits (.goal 1) p.room a := by
        refine Sure.commaList h₁.good fun q hq => ((hd q hq.good).1 1).mono fun a _ _ ha => ?_
        have hfits := ha.1
        rwa [hq.room, h₁.room] at hfits
      refine hlist.bind fun args q₂ h₂ hargs => ?_
      refine (sure_require h₂.good _ _).bind fun t q₃ h₃ _ => .pure h₃.good ?_
      have hlt₂ := h₂.ahead
      have hlt₃ := h₃.ahead
      exact ⟨.call he hargs, by omega⟩
    · exact .pure hp he

theorem sure_primary (hp : p.Good) : Sure (primary deeper) p fun e _ => Fits .unary p.room e := by
  refine Sure.nested hp fun hlt => ?_
  have hroom := room_enter hlt
  have hp' : p.enter.Good := hp.enter
  refine (sure_operand hd hp').bind fun e q₁ h₁ he => ?_
  rw [← hroom]
  rw [← h₁.room] at he ⊢
  have hloop : Sure (loop (postfixStep deeper) e) q₁ fun e' _ => Fits .operand q₁.room e' := by
    refine Sure.loop (I := fun e' _ => Fits .operand q₁.room e') ?_ h₁.good he
    intro e' q hq he'
    rw [← hq.room] at he' ⊢
    exact sure_postfixStep hd hq.good he'
  exact hloop.mono fun e' _ _ he' => .primary he'

theorem sure_unaryRule (hp : p.Good) :
    Sure (unaryRule deeper) p fun e _ => Fits .unary p.room e := by
  refine (sure_peek hp).bind ?_
  rintro _ _ - ⟨rfl, rfl⟩
  split
  · rename_i op hk
    split
    · rename_i hop
      refine (sure_advance hp).bind fun t q₁ h₁ _ => ?_
      refine (hd q₁ h₁.good).2.bind fun e q₂ h₂ he => .pure h₂.good ?_
      obtain ⟨s, hs, hfits⟩ := he
      rw [h₁.room] at hs
      rw [hs]
      exact .unary hop hfits
    · exact sure_primary hd hp
  · exact sure_primary hd hp

omit hd in
theorem sure_operatorInView (hp : p.Good) (n : Nat) :
    Sure (operatorInView? n) p fun r q => p = q ∧
      match r with
      | some (op, k) => p.peek.kind = .operator op ∧ op.precedence? = some k ∧ n ≤ k
      | none => ∀ op k, p.peek.kind = .operator op → op.precedence? = some k → k < n := by
  refine (sure_peek hp).bind ?_
  rintro _ _ - ⟨rfl, rfl⟩
  split
  · rename_i op hk
    refine .pure hp ⟨rfl, ?_⟩
    cases hprec : op.precedence? with
    | none =>
      rintro op' k hop' hk'
      cases hk.symm.trans hop'
      simp [hprec] at hk'
    | some k =>
      by_cases hle : n ≤ k
      · simpa [Option.filter, hle] using ⟨hk, hprec⟩
      · simp only [Option.filter, hle, decide_false, Bool.false_eq_true, if_false, Option.map_none]
        rintro op' k' hop' hk'
        cases hk.symm.trans hop'
        cases hprec.symm.trans hk'
        omega
  · rename_i hk
    exact .pure hp ⟨rfl, fun op _ hop _ => absurd hop (hk op)⟩

/-- What a chain of operators keeps: it fits, also below the operator in view. -/
def Chained (n s : Nat) (e : GoSyntax.Expr) (q : Parser) : Prop :=
  Fits (.chain n) s e ∧
    ∀ op k, q.peek.kind = .operator op → op.precedence? = some k → n ≤ k → Fits (.chain k) s e

/-- What a chain of operators is that ends before an operator that does not belong to it. -/
def Closed (n s : Nat) (e : GoSyntax.Expr) (q : Parser) : Prop :=
  Fits (.chain n) s e ∧ ∀ op k, q.peek.kind = .operator op → op.precedence? = some k → k < n

theorem sure_binaryStep {n : Nat} {left : GoSyntax.Expr} (hp : p.Good)
    (hl : Chained n p.room left p) :
    Sure (binaryStep deeper n left) p (Round (Chained n p.room) (Closed n p.room) p) := by
  refine (sure_operatorInView hp n).bind ?_
  rintro r _ - ⟨rfl, hr⟩
  cases r with
  | none => exact .pure hp ⟨hl.1, hr⟩
  | some x =>
    obtain ⟨op, k⟩ := x
    obtain ⟨hk, hprec, hle⟩ := hr
    refine (sure_advance hp).bind fun t q₁ h₁ ht => ?_
    refine ((hd q₁ h₁.good).1 (k + 1)).bind fun e q₂ h₂ he => .pure h₂.good ?_
    have hright := he.1
    rw [h₁.room] at hright
    have hleft := hl.2 op k hk hprec hle
    have hlt := ht.2 (by simp [hk])
    refine ⟨⟨.binary hprec hle hleft hright, ?_⟩, by have := h₂.ahead; omega⟩
    intro op' k' hop' hprec' _
    have hlt' := he.2 op' k' hop' hprec'
    exact .binary hprec (by omega) hleft hright

theorem sure_binaryRule (hp : p.Good) (n : Nat) :
    Sure (binaryRule deeper n) p (Closed n p.room) := by
  refine (sure_unaryRule hd hp).bind fun e q₁ h₁ he => ?_
  rw [← h₁.room] at he ⊢
  refine Sure.loop (I := Chained n q₁.room) ?_ h₁.good ⟨.single he, fun _ _ _ _ _ => .single he⟩
  intro e' q hq he'
  rw [← hq.room] at he' ⊢
  exact sure_binaryStep hd hq.good he'

end Rules

theorem deeper_rule (room : Nat) : Deeper (rule room) := by
  induction room with
  | zero => exact fun p hp => ⟨fun n => sure_tooDeep hp, sure_tooDeep hp⟩
  | succ room ih =>
    intro p hp
    refine ⟨fun n => Sure.nested hp fun hlt => ?_, Sure.nested hp fun hlt => ?_⟩
    · have hroom := room_enter hlt
      refine (sure_binaryRule ih hp.enter n).mono fun e q _ he => ⟨?_, he.2⟩
      rw [← hroom]
      exact .goal he.1
    · have hroom := room_enter hlt
      exact (sure_unaryRule ih hp.enter).mono fun e q _ he => ⟨_, hroom.symm, he⟩

end Expr

theorem sure_expr (hp : p.Good) :
    Sure expr p fun e _ => GoSyntax.Expr.Fits (.goal 1) p.room e :=
  ((Expr.deeper_rule p.room p hp).1 1).mono fun _ _ _ he => he.1

end Parse
end GoSyntax
