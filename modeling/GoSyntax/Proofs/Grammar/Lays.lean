import GoSyntax.Proofs.Grammar.FileTracks
import GoSyntax.Proofs.Tree.Laid

/-! What the rules for expressions and types give is laid out in the tokens that they read. -/
namespace GoSyntax

/-- Nothing is known of errors, and nothing asked. -/
def Outlook.any : Outlook := ⟨fun _ => True, fun _ => True⟩

namespace Parser

variable {p : Parser} {r n : Nat}

theorem Ready.inside (h : p.Ready .any r 0 n) :
    p.enter.Ready .any r 0 n where
  along := h.along
  room := by
    have hroom := h.room
    simp only [Parser.room, enter_depth, enter_limit] at hroom ⊢
    omega
  levels := h.levels

end Parser

namespace Parse

open GoSyntax.Parser

variable {α σ : Type} {m : Parse α} {p : Parser} {r n : Nat} {Q : α → List Token → Parser → Prop}
  {ts : List Token}

/-- Where nothing is asked of errors only success counts. -/
theorem tracks_of_ok (h : ∀ a q, m p = .ok a q → ∃ ts, p.Passes ts q ∧ Q a ts q) :
    Tracks .any n m p Q := by
  unfold Tracks
  split
  · rename_i a q hm
    exact h a q hm
  · exact .inl trivial

theorem Tracks.deeper (h : Tracks .any n m p.enter
    fun a ts q => Q a ts q.leave) : Tracks .any n (Parse.nested m) p Q := by
  refine tracks_of_ok fun a q hq => ?_
  unfold Parse.nested at hq
  split at hq
  · cases hq
  · split at hq
    · rename_i b q' hm
      cases hq
      obtain ⟨ts, hts, ha⟩ := h.of_ok hm
      refine ⟨ts, ⟨hts.stream, hts.solid, ?_, hts.limit⟩, ha⟩
      show q'.depth - 1 = p.depth
      rw [hts.depth]
      exact Nat.add_sub_cancel p.depth 1
    · cases hq

theorem tracks_refused (e : Error) : Tracks .any n (throw e : Parse α) p Q :=
  tracks_of_ok fun _ _ h => by cases h

section Lists

variable {item : Parse α} {f : α → List Slot} (kinds : List Kind)

theorem lays_commaList {G : α → Prop} (hitem : ∀ q : Parser, q.Ready .any r 0 n →
      Tracks .any n item q fun a ts _ => G a ∧ Fills (f a) ts)
    {stop : Kind} (hk : .delimiter .comma ∈ kinds) (hp : p.Ready .any r 0 n) :
    Tracks .any n (commaList stop item) p fun l ts _ =>
      (∀ a ∈ l, G a) ∧ Fills (Slot.list f kinds l) ts := by
  have hlist : ∀ i (q : Parser), q.Ready .any r 0 n → Tracks .any n (commaListFor stop item i) q
      fun l ts _ => (∀ a ∈ l, G a) ∧ Fills (Slot.list f kinds l) ts := by
    intro i
    induction i with
    | zero => exact fun q _ => .pure ⟨by simp, .list_nil f⟩
    | succ i ih =>
      intro q hq
      refine (tracks_peekIs stop).bind ?_
      rintro b _ _ - ⟨-, rfl, rfl⟩
      cases b with
      | true => exact .pure ⟨by simp, .list_nil f⟩
      | false =>
        refine (hitem q hq).bind ?_
        rintro a ts q₁ h₁ ⟨hga, ha⟩
        refine (tracks_consumeIf (h₁.ready hq) (by simp)).bind fun b us q₂ h₂ hb => ?_
        rcases hb with ⟨rfl, hcomma, rfl⟩ | ⟨rfl, rfl, rfl⟩
        · refine (ih q₂ (h₂.ready (h₁.ready hq))).bind ?_
          rintro l vs q₃ - ⟨hgl, hl⟩
          have hrest := hl.list_more (t := q₁.peek) (by rwa [hcomma])
          exact .pure ⟨List.forall_mem_cons.2 ⟨hga, hgl⟩, by simpa using ha.list_cons hrest⟩
        · exact .pure ⟨by simpa using hga, by simpa using ha.list_cons (.list_nil f)⟩
  exact hlist _ p hp

section

variable
  (hitem : ∀ q : Parser, q.Ready .any r 0 n → Tracks .any n item q fun a ts _ => Fills (f a) ts)

include hitem

theorem lays_termList {stop : Kind} {wanted : Expected} (hk : .delimiter .semicolon ∈ kinds)
    (hp : p.Ready .any r 0 n) :
    Tracks .any n (termList stop wanted item) p fun l ts _ => Fills (Slot.list f kinds l) ts := by
  have hlist : ∀ i (q : Parser), q.Ready .any r 0 n →
      Tracks .any n (termListFor stop wanted item i) q
        fun l ts _ => Fills (Slot.list f kinds l) ts := by
    intro i
    induction i with
    | zero => exact fun q _ => .pure (.list_nil f)
    | succ i ih =>
      intro q hq
      refine (tracks_peekIs stop).bind ?_
      rintro b _ _ - ⟨-, rfl, rfl⟩
      cases b with
      | true => exact .pure (.list_nil f)
      | false =>
        refine (hitem q hq).bind fun a ts q₁ h₁ ha => ?_
        have hq₁ := h₁.ready hq
        -- the terminator is a semicolon, or it stays in view
        have hend : Tracks .any n (terminator wanted) q₁ fun _ us _ =>
            us = [] ∨ ∃ t : Token, us = [t] ∧ t.kind = .delimiter .semicolon := by
          refine tracks_peek.bind ?_
          rintro _ _ _ - ⟨rfl, rfl, rfl⟩
          split
          · exact .pure (.inl rfl)
          · refine (tracks_require hq₁ wanted (by simp)).bind ?_
            rintro _ _ q - ⟨rfl, hsemi, rfl⟩
            exact .pure (.inr ⟨_, rfl, hsemi⟩)
        refine hend.bind fun _ us q₂ h₂ hus => ?_
        refine (ih q₂ (h₂.ready hq₁)).bind fun l vs q₃ _ hl => .pure ?_
        rcases hus with rfl | ⟨t, rfl, hsemi⟩
        · simpa using ha.list_cons hl
        · have hrest := hl.list_more (t := t) (by rwa [hsemi])
          simpa using ha.list_cons hrest
  exact hlist _ p hp

theorem lays_openedList {opener : Kind} (hk : opener ∈ kinds) (he : opener ≠ .endOfFile)
    (hp : p.Ready .any r 0 n) : Tracks .any n (openedList opener item) p fun l ts _ =>
      Fills (Slot.list f kinds l) ts := by
  have hlist : ∀ i (q : Parser), q.Ready .any r 0 n → Tracks .any n (openedListFor opener item i) q
      fun l ts _ => Fills (Slot.list f kinds l) ts := by
    intro i
    induction i with
    | zero => exact fun q _ => .pure (.list_nil f)
    | succ i ih =>
      intro q hq
      refine (tracks_consumeIf hq he).bind fun b us q₁ h₁ hb => ?_
      rcases hb with ⟨rfl, hopen, rfl⟩ | ⟨rfl, rfl, rfl⟩
      · have hq₁ := h₁.ready hq
        refine (hitem q₁ hq₁).bind fun a ts q₂ h₂ ha => ?_
        refine (ih q₂ (h₂.ready hq₁)).bind fun l vs q₃ _ hl => .pure ?_
        have hall := (ha.list_cons hl).list_more (t := q.peek) (by rwa [hopen])
        simpa using hall
      · exact .pure (.list_nil f)
  exact hlist _ p hp

end

end Lists

namespace Expr

/-- The rules one level deeper lay out what they give. -/
def Lays (r n : Nat) (deeper : Goal → Parse GoSyntax.Expr) : Prop :=
  ∀ goal (p : Parser), p.Ready .any r 0 n →
    Tracks .any n (deeper goal) p fun e ts _ => Fills [.part (.expr e)] ts

section Rules

variable {deeper : Goal → Parse GoSyntax.Expr} (hd : Lays r n deeper)

include hd

theorem lays_operand (hp : p.Ready .any r 0 n) :
    Tracks .any n (operand deeper) p fun e ts _ => Fills [.part (.expr e)] ts := by
  refine tracks_peek.bind ?_
  rintro _ _ _ - ⟨rfl, rfl, rfl⟩
  split
  · refine (tracks_identifier hp _).map ?_
    rintro _ _ q - ⟨rfl, hk, rfl⟩
    exact .same (.plain rfl) (.ident hk) rfl rfl
  · rename_i hk
    refine (tracks_advance hp (by simp [hk])).bind ?_
    rintro _ _ q₁ h₁ ⟨rfl, rfl⟩
    have hp₁ := h₁.ready hp
    refine (hd _ q₁ hp₁).bind fun e ts q₂ h₂ he => ?_
    refine (tracks_require (h₂.ready hp₁) _ (by simp)).bind ?_
    rintro _ _ q₃ - ⟨rfl, hclose, rfl⟩
    refine .pure ?_
    obtain ⟨own, he⟩ := he
    simpa using Fills.closed (.mark hk he) hclose
      (.plain (p := .expr (.paren _ e q₂.peek.stop)) rfl) rfl rfl
  · rename_i form hk
    refine (tracks_advance hp (by simp [hk])).bind ?_
    rintro _ _ q - ⟨rfl, rfl⟩
    split
    · rename_i value hv
      exact .pure (.same (.plain rfl) (.literal hk hv) rfl rfl)
    · exact tracks_refused _
  · exact tracks_unexpected hp _

theorem lays_postfixStep {e : GoSyntax.Expr} (hp : p.Ready .any r 0 n)
    (he : Fills [.part (.expr e)] ts) : Tracks .any n (postfixStep deeper e) p fun x us _ =>
      Fills [.part (.expr x.value)] (ts ++ us) := by
  have ⟨own, hown⟩ := he
  refine (tracks_consumeIf hp (by simp)).bind fun b us q₁ h₁ hb => ?_
  rcases hb with ⟨rfl, hk, rfl⟩ | ⟨rfl, rfl, rfl⟩
  · refine (tracks_identifier (h₁.ready hp) _).bind ?_
    rintro _ _ q₂ - ⟨rfl, hfield, rfl⟩
    refine .pure ?_
    have hdot := hown.append (.mark hk .nil)
    simpa using Fills.upTo hdot (.ident hfield) (.plain (p := .expr (.selector e _)) rfl)
      (hown.spans.first.append _) rfl
  · refine (tracks_consumeIf hp (by simp)).bind fun b us q₁ h₁ hb => ?_
    rcases hb with ⟨rfl, hk, rfl⟩ | ⟨rfl, rfl, rfl⟩
    · have hp₁ := h₁.ready hp
      have harg : ∀ q : Parser, q.Ready .any r 0 n → Tracks .any n (deeper (.binary 1)) q
          fun e ts _ => True ∧ Fills [.part (.expr e)] ts := fun q hq =>
        (hd (.binary 1) q hq).mono fun _ _ _ _ h => ⟨trivial, h⟩
      refine (lays_commaList [.delimiter .comma] harg (by simp) hp₁).bind ?_
      rintro args us q₂ h₂ ⟨-, hargs⟩
      refine (tracks_require (h₂.ready hp₁) _ (by simp)).bind ?_
      rintro _ _ q₃ - ⟨rfl, hclose, rfl⟩
      refine .pure ?_
      obtain ⟨own', hargs⟩ := hargs
      have hopen := hown.append (.mark hk hargs)
      simpa using Fills.closed hopen hclose (.plain (p := .expr (.call e args q₂.peek.stop)) rfl)
        (hown.spans.first.append _) rfl
    · exact .pure (by simpa using he)

theorem lays_primary (hp : p.Ready .any r 0 n) :
    Tracks .any n (primary deeper) p fun e ts _ => Fills [.part (.expr e)] ts := by
  refine .deeper ((lays_operand hd hp.inside).bind fun e ts q₁ h₁ he => ?_)
  refine Tracks.loop (I := fun e' us => Fills [.part (.expr e')] (ts ++ us)) ?_
    (h₁.ready hp.inside) (by simpa using he)
  intro e' us q hq he'
  simpa only [List.append_assoc] using lays_postfixStep hd hq he'

theorem lays_unaryRule (hp : p.Ready .any r 0 n) :
    Tracks .any n (unaryRule deeper) p fun e ts _ => Fills [.part (.expr e)] ts := by
  refine tracks_peek.bind ?_
  rintro _ _ _ - ⟨rfl, rfl, rfl⟩
  split
  · rename_i op hk
    split
    · refine (tracks_advance hp (by simp [hk])).bind ?_
      rintro _ _ q₁ h₁ ⟨rfl, rfl⟩
      refine (hd _ q₁ (h₁.ready hp)).bind fun e ts q₂ _ he => .pure ?_
      simpa using Fills.upTo (.mark hk .nil) he (.plain (p := .expr (.unary _ op e)) rfl) rfl rfl
    · exact lays_primary hd hp
  · exact lays_primary hd hp

theorem lays_binaryStep {least : Nat} {left : GoSyntax.Expr} (hp : p.Ready .any r 0 n)
    (hl : Fills [.part (.expr left)] ts) :
    Tracks .any n (binaryStep deeper least left) p fun x us _ =>
      Fills [.part (.expr x.value)] (ts ++ us) := by
  refine (tracks_operatorInView least).bind ?_
  rintro x _ _ - ⟨rfl, rfl, hx⟩
  match x with
  | none => exact .pure (by simpa using hl)
  | some (op, precedence) =>
    have hk := hx op precedence rfl
    refine (tracks_advance hp (by simp [hk])).bind ?_
    rintro _ _ q₁ h₁ ⟨rfl, rfl⟩
    refine (hd _ q₁ (h₁.ready hp)).bind fun e us q₂ _ he => .pure ?_
    obtain ⟨own, hl⟩ := hl
    have hop := hl.append (.mark hk .nil)
    simpa using Fills.upTo hop he (.plain (p := .expr (.binary op left e)) rfl)
      (hl.spans.first.append _) rfl

theorem lays_binaryRule (hp : p.Ready .any r 0 n) (least : Nat) :
    Tracks .any n (binaryRule deeper least) p fun e ts _ => Fills [.part (.expr e)] ts := by
  refine (lays_unaryRule hd hp).bind fun e ts q₁ h₁ he => ?_
  refine Tracks.loop (I := fun e' us => Fills [.part (.expr e')] (ts ++ us)) ?_ (h₁.ready hp)
    (by simpa using he)
  intro e' us q hq he'
  simpa only [List.append_assoc] using lays_binaryStep hd hq he'

end Rules

theorem lays_rule (room : Nat) : Lays r n (rule room) := by
  induction room with
  | zero => exact fun _ _ _ => tracks_of_ok fun _ _ h => by cases h
  | succ room ih =>
    intro goal p hp
    cases goal with
    | binary least => exact .deeper (lays_binaryRule ih hp.inside least)
    | unary => exact .deeper (lays_unaryRule ih hp.inside)

end Expr

theorem lays_expr (hp : p.Ready .any r 0 n) :
    Tracks .any n expr p fun e ts _ => Fills [.part (.expr e)] ts :=
  Expr.lays_rule p.room (.binary 1) p hp

end Parse
end GoSyntax
