import GoSyntax.Proofs.Grammar.Gives
import GoSyntax.Proofs.Tree.Erase
import GoSyntax.Proofs.Tree.Yield

/-! Every expression is read from its words, where there are levels enough and nothing goes on with
it. -/
namespace GoSyntax
namespace Parse

open GoSyntax.Parser

variable {σ : Type} {p q r : Parser}

/-- The loop has come from `s` at `p` to `t` at `q`, each round with a token less. -/
inductive Rounds (body : σ → Parse (ForInStep σ)) : σ → Parser → σ → Parser → Prop
  | refl {s : σ} {p : Parser} : Rounds body s p s p
  | snoc {s t u : σ} {p q r : Parser} (h : Rounds body s p t q) (hb : body t q = .ok (.yield u) r)
    (hlt : r.ahead.length < q.ahead.length) : Rounds body s p u r

/-- A loop that has come to a place goes on from there. -/
theorem Rounds.loopFor {body : σ → Parse (ForInStep σ)} {s t : σ} (h : Rounds body s p t q) :
    ∃ k, k + q.ahead.length ≤ p.ahead.length ∧
      ∀ n, loopFor body (n + k) s p = loopFor body n t q := by
  induction h with
  | refl => exact ⟨0, by omega, fun n => rfl⟩
  | snoc _ hb hlt ih =>
    obtain ⟨k, hk, hloop⟩ := ih
    refine ⟨k + 1, by omega, fun n => ?_⟩
    rw [show n + (k + 1) = n + 1 + k by omega, hloop, Parse.loopFor, bind_ok hb]

theorem Rounds.loop {body : σ → Parse (ForInStep σ)} {s t u : σ} (h : Rounds body s p t q)
    (hb : body t q = .ok (.done u) r) : loop body s p = .ok u r := by
  obtain ⟨k, hk, hloop⟩ := h.loopFor
  show Parse.loopFor body (p.ahead.length + 1) s p = .ok u r
  obtain ⟨n, hn⟩ : ∃ n, p.ahead.length + 1 = n + 1 + k := ⟨p.ahead.length - k, by omega⟩
  rw [hn, hloop, Parse.loopFor, bind_ok hb]
  rfl

/-- The kinds of tokens that an expression can open with. -/
def opensExpr : Kind → Bool
  | .identifier | .literal _ | .delimiter .lparen => true
  | .operator op => op.isUnary
  | _ => false

/-- No selector or call goes on with a token of the kind. -/
def endsOperand (kind : Kind) : Prop := kind ≠ .delimiter .dot ∧ kind ≠ .delimiter .lparen

/-- A binary operator of the kind binds no more tightly than `n`. -/
def Bound (n : Nat) (kind : Kind) : Prop :=
  ∀ op k, kind = .operator op → op.precedence? = some k → k ≤ n

namespace Expr

/-- The operand is read from the words, by as many rounds of selectors and calls as it takes. -/
structure OperandGives (s : Nat) (e : Expr) (w : Word) (ws : List Word) : Prop where
  opens : opensExpr w.kind = true ∧ w.kind.isOperator = false
  gives : ∀ room p r rs, Ready s room p (w :: ws ++ r :: rs) → ∃ e₀ q₀ e' q,
    operand (rule room) p = .ok e₀ q₀ ∧ Rounds (postfixStep (rule room)) e₀ q₀ e' q ∧
      Reaches p q (r :: rs) ∧ e'.erase = e.erase

structure UnaryGives (s : Nat) (e : Expr) (w : Word) (ws : List Word) : Prop where
  opens : opensExpr w.kind = true
  gives : ∀ room p r rs, Ready s room p (w :: ws ++ r :: rs) → endsOperand r.kind →
    Gives (unaryRule (rule room)) p (fun e' => e'.erase = e.erase) (r :: rs)

structure ChainGives (n s : Nat) (e : Expr) (w : Word) (ws : List Word) : Prop where
  opens : opensExpr w.kind = true
  gives : ∀ room p r rs least, Ready s room p (w :: ws ++ r :: rs) → least ≤ n →
    endsOperand r.kind → Bound n r.kind → ∃ e₀ q₀ e' q,
      unaryRule (rule room) p = .ok e₀ q₀ ∧ Rounds (binaryStep (rule room) least) e₀ q₀ e' q ∧
        Reaches p q (r :: rs) ∧ e'.erase = e.erase

structure GoalGives (n s : Nat) (e : Expr) (w : Word) (ws : List Word) : Prop where
  opens : opensExpr w.kind = true
  gives : ∀ room p r rs, Ready s room p (w :: ws ++ r :: rs) → endsOperand r.kind →
    (∀ op k, r.kind = .operator op → op.precedence? = some k → k < n) →
      Gives (rule room (.binary n)) p (fun e' => e'.erase = e.erase) (r :: rs)

/-- What reading from the words comes to at each stage. -/
def GivesAt : Stage → Nat → GoSyntax.Expr → Word → List Word → Prop
  | .goal n => GoalGives n
  | .chain n => ChainGives n
  | .unary => UnaryGives
  | .operand => OperandGives

section Stages

variable {s n : Nat} {e : GoSyntax.Expr} {w : Word} {ws : List Word}

theorem gives_ident (i : Ident) : OperandGives s (.ident i) (.identifier i.name) [] where
  opens := ⟨rfl, rfl⟩
  gives room p r rs h := by
    obtain ⟨i', q, hid, hi', hq⟩ := gives_identifier .identifier h.holds (by simp)
    refine ⟨.ident i', q, .ident i', q, ?_, .refl, hq, ?_⟩
    · have hpeek : peek p = .ok p.peek p := rfl
      rw [operand, bind_ok hpeek, h.holds.kind]
      exact map_ok hid _
    · simp only [GoSyntax.Expr.erase, Ident.erase, hi']

theorem gives_literal (l : BasicLit) :
    OperandGives s (.literal l) ⟨.literal l.form, l.raw, some l.value⟩ [] where
  opens := ⟨rfl, rfl⟩
  gives room p r rs h := by
    obtain ⟨t, q, hadv, ht, hq⟩ := gives_advance h.holds (by simp)
    obtain ⟨hk, htext, hval⟩ := word_eq ht (by simp)
    refine ⟨.literal ⟨t.pos, l.form, t.text, l.value⟩, q, _, q, ?_, .refl, hq, ?_⟩
    · have hpeek : peek p = .ok p.peek p := rfl
      rw [operand, bind_ok hpeek, h.holds.kind]
      dsimp only
      rw [bind_ok hadv]
      simp only [hval]
      rfl
    · simp only [GoSyntax.Expr.erase, BasicLit.erase, htext]

theorem gives_paren {start stop : Position} (h : GoalGives 1 s e w ws) :
    OperandGives s (.paren start e stop) (.delimiter .lparen)
      (w :: ws ++ [.delimiter .rparen]) where
  opens := ⟨rfl, rfl⟩
  gives room p r rs hp := by
    have hholds := hp.holds
    have hrun : Gives (operand (rule room)) p
        (fun e' => e'.erase = (GoSyntax.Expr.paren start e stop).erase) (r :: rs) := by
      refine (gives_peek hholds).bind fun t q₁ ht h₁ => ?_
      have hk : t.kind = .delimiter .lparen := by rw [← kind_word, ht]; rfl
      rw [hk]
      dsimp only
      refine (gives_advance h₁.holds (by simp)).bind fun _ q₂ _ h₂ => ?_
      have hroom := (h₁.trans h₂).room
      have hready : Ready s room q₂ (w :: ws ++ .delimiter .rparen :: r :: rs) :=
        ⟨by rw [hroom]; exact hp.fuel, by rw [hroom]; exact hp.deep, by simpa using h₂.holds⟩
      refine (h.gives room q₂ _ _ hready ⟨by simp, by simp⟩
        (by simp)).bind fun e' q₃ he' h₃ => ?_
      refine (gives_require _ h₃.holds (by simp) (by simp)).bind
        fun _ q₄ _ h₄ => .pure h₄.holds ?_
      simp only [GoSyntax.Expr.erase, he']
    obtain ⟨e', q, he, herase, hq⟩ := hrun
    exact ⟨e', q, e', q, he, .refl, hq, herase⟩

theorem gives_selector {field : Ident} (h : OperandGives s e w ws) :
    OperandGives s (.selector e field) w
      (ws ++ [.delimiter .dot, .identifier field.name]) where
  opens := h.opens
  gives room p r rs hp := by
    have hwords : w :: (ws ++ [.delimiter .dot, .identifier field.name]) ++ r :: rs =
        w :: ws ++ .delimiter .dot :: .identifier field.name :: r :: rs := by simp
    rw [hwords] at hp
    obtain ⟨e₀, q₀, e₁, q₁, hop, hrounds, h₁, he₁⟩ := h.gives room p _ _ hp
    have hstep : Gives (postfixStep (rule room) e₁) q₁
        (fun x => ∃ f, x = .yield (.selector e₁ f) ∧ f.name = field.name) (r :: rs) := by
      refine (gives_consumeIf_true h₁.holds (by simp) rfl).bind ?_
      rintro _ q₂ rfl h₂
      refine (gives_identifier .selector h₂.holds (by simp)).bind fun f q₃ hf' h₃ => ?_
      exact .pure h₃.holds ⟨f, rfl, hf'⟩
    obtain ⟨_, q₂, hbody, ⟨f, rfl, hname⟩, h₂⟩ := hstep
    refine ⟨e₀, q₀, .selector e₁ f, q₂, hop, hrounds.snoc hbody ?_, h₁.trans h₂, ?_⟩
    · exact @length_lt _ _ _ _ [.identifier field.name] h₁.holds h₂
    · simp only [GoSyntax.Expr.erase, he₁, Ident.erase, hname]

/-- The arguments of a call, with their words. -/
def ArgGives (s : Nat) (a : GoSyntax.Expr) (ws : List Word) : Prop :=
  ∃ w ws', ws = w :: ws' ∧ GoalGives 1 s a w ws'

theorem gives_call {stop : Position} {pairs : List (GoSyntax.Expr × List Word)} {us : List Word}
    (h : OperandGives s e w ws) (ha : ∀ i ∈ pairs, ArgGives s i.1 i.2)
    (hs : Separated (.delimiter .comma) (pairs.map Prod.snd) us) :
    OperandGives s (.call e (pairs.map Prod.fst) stop) w
      (ws ++ .delimiter .lparen :: (us ++ [.delimiter .rparen])) where
  opens := h.opens
  gives room p r rs hp := by
    have hwords : w :: (ws ++ .delimiter .lparen :: (us ++ [.delimiter .rparen])) ++ r :: rs =
        w :: ws ++ .delimiter .lparen :: (us ++ .delimiter .rparen :: r :: rs) := by simp
    rw [hwords] at hp
    obtain ⟨e₀, q₀, e₁, q₁, hop, hrounds, h₁, he₁⟩ := h.gives room p _ _ hp
    have hstep : Gives (postfixStep (rule room) e₁) q₁
        (fun x => ∃ args stop, x = .yield (.call e₁ args stop) ∧
          args.map GoSyntax.Expr.erase = pairs.map fun i => i.1.erase) (r :: rs) := by
      refine (gives_consumeIf_false h₁.holds (by simp)).bind ?_
      rintro _ q₂ rfl h₂
      refine (gives_consumeIf_true h₂.holds (by simp) rfl).bind ?_
      rintro _ q₃ rfl h₃
      have hkept := (h₁.trans h₂).trans h₃
      have hargs : Gives (commaList (.delimiter .rparen) (rule room (.binary 1))) q₃
          (fun l => l.map GoSyntax.Expr.erase =
            (pairs.map fun i => (i.2, i.1.erase)).map Prod.snd) (.delimiter .rparen :: r :: rs) := by
        refine Gives.commaList (by simpa [Function.comp_def] using hs) h₃.holds rfl (by simp) ?_
        intro i hi
        obtain ⟨j, hj, rfl⟩ := List.mem_map.1 hi
        obtain ⟨v, vs, hv, hreads⟩ := ha j hj
        have hne : v.kind ≠ .delimiter .rparen := by
          intro hk
          have hopens := hreads.opens
          rw [hk] at hopens
          cases hopens
        refine ⟨v, vs, hv, hne, fun q r' rs' hq hr' => ?_⟩
        refine hreads.gives room q r' rs' (hp.of_reaches (hkept.trans hq)) ?_ ?_
        · simp only [List.mem_cons, List.not_mem_nil, or_false] at hr'
          rcases hr' with hr' | hr' <;> simp [endsOperand, hr']
        · simp only [List.mem_cons, List.not_mem_nil, or_false] at hr'
          rcases hr' with hr' | hr' <;> simp [hr']
      refine hargs.bind fun args q₄ hl h₄ => ?_
      refine (gives_require _ h₄.holds (by simp) (by simp)).bind
        fun t q₅ _ h₅ => .pure h₅.holds ⟨args, t.stop, rfl, ?_⟩
      rw [hl, List.map_map]
      rfl
    obtain ⟨_, q₂, hbody, ⟨args, stop', rfl, hl⟩, h₂⟩ := hstep
    refine ⟨e₀, q₀, .call e₁ args stop', q₂, hop, hrounds.snoc hbody ?_, h₁.trans h₂, ?_⟩
    · exact @length_lt _ _ (.delimiter .lparen) _ (us ++ [.delimiter .rparen])
        (by simpa using h₁.holds) h₂
    · simp only [GoSyntax.Expr.erase, he₁, GoSyntax.Expr.eraseAll_eq_map, hl, List.map_map,
        Function.comp_def]

theorem postfixStep_done {room : Nat} {q : Parser} {r : Word} {rs : List Word}
    (hq : q.Holds (r :: rs)) (hr : endsOperand r.kind) (e : GoSyntax.Expr) :
    postfixStep (rule room) e q = .ok (.done e) q := by
  rw [postfixStep, bind_ok (consumeIf_of_ne (by rw [hq.kind]; exact hr.1)),
    if_neg Bool.false_ne_true,
    bind_ok (consumeIf_of_ne (by rw [hq.kind]; exact hr.2))]
  rfl

theorem gives_primary (h : OperandGives s e w ws) : UnaryGives (s + 1) e w ws where
  opens := h.opens.1
  gives room p r rs hp hr := by
    have heq : unaryRule (rule room) p = primary (rule room) p := by
      have hpeek : peek p = .ok p.peek p := rfl
      have hop := h.opens.2
      rw [unaryRule, bind_ok hpeek, hp.holds.kind]
      cases hk : w.kind with
      | operator op => rw [hk] at hop; cases hop
      | _ => rfl
    have hready : Ready s room p.enter (w :: ws ++ r :: rs) := by
      obtain ⟨room', rfl⟩ := hp.exists_room
      have hlow := hp.deeper
      exact ⟨Nat.le_succ_of_le hlow.fuel, hlow.deep, hlow.holds⟩
    obtain ⟨e₀, q₀, e', q, hop, hrounds, hq, he⟩ := h.gives room _ r rs hready
    refine .congr heq (.nested (Nat.le_trans (Nat.le_add_left 1 s) hp.deep) ⟨e', q, ?_, he, hq⟩)
    rw [bind_ok hop, hrounds.loop (postfixStep_done hq.holds hr e')]

theorem gives_unary {start : Position} {op : Operator} (hop : op.isUnary = true)
    (h : UnaryGives s e w ws) :
    UnaryGives (s + 1) (.unary start op e) (.operator op) (w :: ws) where
  opens := hop
  gives room p r rs hp hr := by
    obtain ⟨room, rfl⟩ := hp.exists_room
    have hroom := hp.deep
    refine (gives_peek hp.holds).bind fun t q₁ ht h₁ => ?_
    have hk : t.kind = .operator op := by rw [← kind_word, ht]; rfl
    rw [hk]
    dsimp only
    rw [if_pos hop]
    refine (gives_advance h₁.holds (by simp)).bind fun t q₂ _ h₂ => ?_
    have hready := (hp.of_reaches (h₁.trans h₂)).deeper
    have hinner : Gives (rule (room + 1) .unary) q₂ (fun e' => e'.erase = e.erase) (r :: rs) :=
      .nested (by rw [(h₁.trans h₂).room]; omega) (h.gives room _ r rs hready hr)
    refine hinner.bind fun e' q₃ he' h₃ => .pure h₃.holds ?_
    simp only [GoSyntax.Expr.erase, he']

theorem gives_single (h : UnaryGives s e w ws) : ChainGives n s e w ws where
  opens := h.opens
  gives room p r rs least hp _ hr _ := by
    obtain ⟨e', q, hrun, he, hq⟩ := h.gives room p r rs hp hr
    exact ⟨e', q, e', q, hrun, .refl, hq, he⟩

theorem gives_binary {k : Nat} {op : Operator} {l r : GoSyntax.Expr} {v : Word} {vs : List Word}
    (hop : op.precedence? = some k) (hn : n ≤ k) (hl : ChainGives k s l w ws)
    (hr : GoalGives (k + 1) s r v vs) :
    ChainGives n s (.binary op l r) w (ws ++ .operator op :: v :: vs) where
  opens := hl.opens
  gives room p x xs least hp hle hx hbound := by
    have hwords : w :: (ws ++ .operator op :: v :: vs) ++ x :: xs =
        w :: ws ++ .operator op :: (v :: vs ++ x :: xs) := by simp
    rw [hwords] at hp
    have hopbound : Bound k (Word.operator op).kind := by
      rintro _ j ⟨⟩ hj
      rw [hop] at hj
      cases hj
      exact Nat.le_refl k
    obtain ⟨e₀, q₀, l', q₁, hrun, hrounds, h₁, hl'⟩ := hl.gives room p _ _ least hp
      (Nat.le_trans hle hn) ⟨by simp, by simp⟩ hopbound
    have hstep : Gives (binaryStep (rule room) least l') q₁
        (fun y => ∃ r', y = .yield (.binary op l' r') ∧ r'.erase = r.erase) (x :: xs) := by
      have hview : Gives (operatorInView? least) q₁ (fun o => o = some (op, k)) _ :=
        (gives_peek h₁.holds).bind fun t q₂ ht h₂ => by
          have hk : t.kind = .operator op := by rw [← kind_word, ht]; rfl
          rw [hk]
          refine .pure h₂.holds ?_
          have hleast : least ≤ k := Nat.le_trans hle hn
          simp [hop, Option.filter, hleast]
      refine hview.bind ?_
      rintro _ q₂ rfl h₂
      refine (gives_advance h₂.holds (by simp)).bind fun _ q₃ _ h₃ => ?_
      have hready := hp.of_reaches ((h₁.trans h₂).trans h₃)
      refine (hr.gives room q₃ x xs hready hx fun op' j hop' hj => ?_).bind
        fun r' q₄ hr' h₄ => .pure h₄.holds ⟨r', rfl, hr'⟩
      have := hbound op' j hop' hj
      omega
    obtain ⟨_, q₂, hbody, ⟨r', rfl, hr'⟩, h₂⟩ := hstep
    refine ⟨e₀, q₀, .binary op l' r', q₂, hrun, hrounds.snoc hbody ?_, h₁.trans h₂, ?_⟩
    · exact @length_lt _ _ (.operator op) _ (v :: vs) h₁.holds h₂
    · simp only [GoSyntax.Expr.erase, hl', hr']

theorem binaryStep_done {room least : Nat} {q : Parser} {r : Word} {rs : List Word}
    (hq : q.Holds (r :: rs))
    (hr : ∀ op k, r.kind = .operator op → op.precedence? = some k → k < least)
    (e : GoSyntax.Expr) : binaryStep (rule room) least e q = .ok (.done e) q := by
  have hpeek : peek q = .ok q.peek q := rfl
  have hview : operatorInView? least q = .ok none q := by
    rw [operatorInView?, bind_ok hpeek, hq.kind]
    cases hk : r.kind with
    | operator op =>
      cases hop : op.precedence? with
      | none =>
        simp only [hop]
        rfl
      | some k =>
        have hlt := hr op k hk hop
        have hno : ¬least ≤ k := by omega
        simp only [hop, Option.filter, hno]
        rfl
    | _ => rfl
  rw [binaryStep, bind_ok hview]
  rfl

theorem gives_goal (h : ChainGives n s e w ws) : GoalGives n (s + 1) e w ws where
  opens := h.opens
  gives room p r rs hp hr hbound := by
    obtain ⟨room, rfl⟩ := hp.exists_room
    have hroom := hp.deep
    obtain ⟨e₀, q₀, e', q, hrun, hrounds, hq, he⟩ := h.gives room _ r rs n hp.deeper
      (Nat.le_refl n) hr fun op k hop hk => Nat.le_of_lt (hbound op k hop hk)
    refine Gives.nested (by omega) ⟨e', q, ?_, he, hq⟩
    rw [binaryRule, bind_ok hrun, hrounds.loop (binaryStep_done hq.holds hbound e')]

end Stages

/-- Every expression is read from its words, from whatever stage of reading it fits. -/
theorem gives_of_fits {stage : Stage} {s : Nat} {e : GoSyntax.Expr} {ws : List Word}
    (h : GoSyntax.Expr.Fits stage s e) (hy : e.Yield ws) :
    ∃ w vs, ws = w :: vs ∧ GivesAt stage s e w vs := by
  induction h generalizing ws with
  | goal _ ih =>
    obtain ⟨w, vs, rfl, hr⟩ := ih hy
    exact ⟨w, vs, rfl, gives_goal hr⟩
  | single _ ih =>
    obtain ⟨w, vs, rfl, hr⟩ := ih hy
    exact ⟨w, vs, rfl, gives_single hr⟩
  | binary hop hk _ _ ihl ihr =>
    cases hy with
    | binary _ hyl hyr =>
      obtain ⟨w, ws, rfl, hl⟩ := ihl hyl
      obtain ⟨v, vs, rfl, hr⟩ := ihr hyr
      exact ⟨w, _, rfl, gives_binary hop hk hl hr⟩
  | primary _ ih =>
    obtain ⟨w, vs, rfl, hr⟩ := ih hy
    exact ⟨w, vs, rfl, gives_primary hr⟩
  | unary hop _ ih =>
    cases hy with
    | unary _ _ hy =>
      obtain ⟨w, ws, rfl, hr⟩ := ih hy
      exact ⟨_, _, rfl, gives_unary hop hr⟩
  | ident _ =>
    cases hy
    exact ⟨_, _, rfl, gives_ident _⟩
  | literal _ =>
    cases hy
    exact ⟨_, _, rfl, gives_literal _⟩
  | paren _ ih =>
    cases hy with
    | paren _ _ hy =>
      obtain ⟨w, ws, rfl, hr⟩ := ih hy
      exact ⟨_, _, rfl, gives_paren hr⟩
  | selector _ _ ih =>
    cases hy with
    | selector _ hy =>
      obtain ⟨w, ws, rfl, hr⟩ := ih hy
      exact ⟨_, _, rfl, gives_selector hr⟩
  | call _ _ ihf iha =>
    cases hy with
    | call _ hyf hya hsep =>
      obtain ⟨w, ws, rfl, hr⟩ := ihf hyf
      refine ⟨_, _, rfl, gives_call hr (fun i hi => ?_) hsep⟩
      exact iha i.1 (List.mem_map_of_mem hi) (hya i hi)

end Expr
end Parse
end GoSyntax
