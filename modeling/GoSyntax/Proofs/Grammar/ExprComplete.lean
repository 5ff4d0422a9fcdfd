import GoSyntax.Proofs.Grammar.ExprGives

/-! Every expression of the grammar reads back from its print. -/
namespace GoSyntax
namespace Parse
namespace Expr

/-- The operand is printed as the words and read back from them. -/
structure OperandReads (s : Nat) (e : Expr) (w : Word) (ws : List Word) : Prop
    extends OperandGives s e w ws where
  spelled : SpelledBefore (fun c => isSoft c || !e.isLiteral && c == '.') e.print (w :: ws)
  head : ∃ c cs, e.print = c :: cs ∧ c ∉ operatorTails

structure UnaryReads (s : Nat) (e : Expr) (w : Word) (ws : List Word) : Prop
    extends UnaryGives s e w ws where
  spelled : Spelled e.print (w :: ws)
  head : e.isUnary = false → ∃ c cs, e.print = c :: cs ∧ c ∉ operatorTails

structure ChainReads (n s : Nat) (e : Expr) (w : Word) (ws : List Word) : Prop
    extends ChainGives n s e w ws where
  spelled : Spelled e.print (w :: ws)

structure GoalReads (n s : Nat) (e : Expr) (w : Word) (ws : List Word) : Prop
    extends GoalGives n s e w ws where
  spelled : Spelled e.print (w :: ws)

/-- What reading back comes to at each stage. -/
def Reads : Stage → Nat → GoSyntax.Expr → Prop
  | .goal n, s, e => ∃ w ws, GoalReads n s e w ws
  | .chain n, s, e => ∃ w ws, ChainReads n s e w ws
  | .unary, s, e => ∃ w ws, UnaryReads s e w ws
  | .operand, s, e => ∃ w ws, OperandReads s e w ws

section Stages

variable {s n : Nat} {e : GoSyntax.Expr} {w : Word} {ws : List Word}

theorem reads_ident {i : Ident} (hi : i.Lawful) :
    OperandReads s (.ident i) (.identifier i.name) [] where
  toOperandGives := gives_ident i
  spelled := (spelled_identifier hi).mono fun c hc => by
    simpa [GoSyntax.Expr.isLiteral] using hc
  head := Word.Stands.head_tail hi rfl

theorem reads_literal {l : BasicLit} (hl : l.Lawful) :
    OperandReads s (.literal l) ⟨.literal l.form, l.raw, some l.value⟩ [] where
  toOperandGives := gives_literal l
  spelled := (spelled_literal hl).mono fun c hc => by
    simpa [GoSyntax.Expr.isLiteral] using hc
  head := Word.Stands.head_tail hl rfl

theorem reads_paren {start stop : Position} (h : GoalReads 1 s e w ws) :
    OperandReads s (.paren start e stop) (.delimiter .lparen)
      (w :: ws ++ [.delimiter .rparen]) where
  toOperandGives := gives_paren h.toGoalGives
  spelled elides rest hrest := by
    have hinner := (h.spelled false (')' :: rest) (by simp; decide)).trans
      (.close (d := .rparen) rfl rfl rfl rest)
    have hopen : Spells elides ('(' :: (e.print ++ ')' :: rest)) _ true rest :=
      .mark (d := .lparen) rfl rfl hinner
    simpa [GoSyntax.Expr.print] using hopen
  head := ⟨'(', _, rfl, by decide⟩

theorem reads_selector {field : Ident} (h : OperandReads s e w ws) (hf : field.Lawful) :
    OperandReads s (.selector e field) w
      (ws ++ [.delimiter .dot, .identifier field.name]) where
  toOperandGives := gives_selector h.toOperandGives
  spelled elides rest hrest := by
    have hok : ∀ c ∈ rest.head?, (isSoft c || c == '.') = true := by
      intro c hc
      simpa [GoSyntax.Expr.isLiteral] using hrest c hc
    obtain ⟨c, cs, hname, hstart⟩ := head_identifier hf
    have hdot : ∀ el, Spells el ('.' :: (field.name ++ rest))
        [.delimiter .dot, .identifier field.name] true rest := by
      intro el
      refine .dot ?_ (spelled_identifier hf false rest hok)
      rw [hname]
      rintro _ ⟨⟩
      exact hstart
    cases hl : e.isLiteral with
    | true =>
      have hbase := (h.spelled elides (' ' :: '.' :: (field.name ++ rest)) (by simp; decide)).trans
        (hdot true).blank
      simpa [GoSyntax.Expr.print, hl] using hbase
    | false =>
      have hbase := (h.spelled elides ('.' :: (field.name ++ rest)) (by simp [hl])).trans (hdot true)
      simpa [GoSyntax.Expr.print, hl] using hbase
  head := by
    obtain ⟨c, cs, hc, hne⟩ := h.head
    exact ⟨c, _, by rw [GoSyntax.Expr.print, hc]; rfl, hne⟩

theorem printAll_eq_map (es : List GoSyntax.Expr) :
    GoSyntax.Expr.printAll es = es.map GoSyntax.Expr.print := by
  induction es with
  | nil => rfl
  | cons e es ih => simp [GoSyntax.Expr.printAll, ih]

/-- The arguments of a call, with their words. -/
def ArgReads (s : Nat) (a : GoSyntax.Expr) (ws : List Word) : Prop :=
  ∃ w ws', ws = w :: ws' ∧ GoalReads 1 s a w ws'

theorem ArgReads.gives {a : GoSyntax.Expr} (h : ArgReads s a ws) : ArgGives s a ws := by
  obtain ⟨w, ws', hw, hreads⟩ := h
  exact ⟨w, ws', hw, hreads.toGoalGives⟩

theorem spells_args {pairs : List (GoSyntax.Expr × List Word)} (h : ∀ i ∈ pairs, ArgReads s i.1 i.2)
    (elides : Bool) (rest : Text) :
    Spells elides ('(' :: (Text.join ", " (GoSyntax.Expr.printAll (pairs.map Prod.fst)) ++ ')' :: rest))
      (.delimiter .lparen :: (sepWords (.delimiter .comma) (pairs.map Prod.snd) ++
        [.delimiter .rparen])) true rest := by
  have hitems : ∀ i ∈ pairs.map fun i => (i.1.print, i.2), Spelled i.1 i.2 := by
    intro i hi
    obtain ⟨j, hj, rfl⟩ := List.mem_map.1 hi
    obtain ⟨w, ws, hw, hreads⟩ := h j hj
    rw [hw]
    exact hreads.spelled
  rw [printAll_eq_map, List.map_map]
  simpa [Function.comp_def] using spells_parens hitems elides rest

theorem reads_call {stop : Position} {pairs : List (GoSyntax.Expr × List Word)}
    (h : OperandReads s e w ws) (ha : ∀ i ∈ pairs, ArgReads s i.1 i.2) :
    OperandReads s (.call e (pairs.map Prod.fst) stop) w
      (ws ++ .delimiter .lparen :: (sepWords (.delimiter .comma) (pairs.map Prod.snd) ++
        [.delimiter .rparen])) where
  toOperandGives :=
    gives_call h.toOperandGives (fun i hi => (ha i hi).gives) (separated_sepWords _ _)
  spelled elides rest hrest := by
    have hcall := (h.spelled elides _ (by simp; decide)).trans (spells_args ha true rest)
    simpa [GoSyntax.Expr.print] using hcall
  head := by
    obtain ⟨c, cs, hc, hne⟩ := h.head
    exact ⟨c, _, by rw [GoSyntax.Expr.print, hc]; rfl, hne⟩

theorem reads_primary (h : OperandReads s e w ws) : UnaryReads (s + 1) e w ws where
  toUnaryGives := gives_primary h.toOperandGives
  spelled := h.spelled.mono fun c hc => by simp [hc]
  head _ := h.head

theorem reads_unary {start : Position} {op : Operator} (hop : op.isUnary = true)
    (h : UnaryReads s e w ws) :
    UnaryReads (s + 1) (.unary start op e) (.operator op) (w :: ws) where
  toUnaryGives := gives_unary hop h.toUnaryGives
  spelled elides rest hrest := by
    have hinner := h.spelled false rest hrest
    have helides : (Kind.operator op).elidesSemicolon = false := by
      cases op <;> first | rfl | cases hop
    cases hu : e.isUnary with
    | true =>
      have hspells : Spells elides (op.spelling.toList ++ ' ' :: (e.print ++ rest)) _ true rest :=
        .operator (by simpa using symbolEnds_blank _) (by rw [helides]; exact hinner.blank)
      simpa [GoSyntax.Expr.print, hu] using hspells
    | false =>
      obtain ⟨c, cs, hc, hne⟩ := h.head hu
      have hspells : Spells elides (op.spelling.toList ++ (e.print ++ rest)) _ true rest :=
        .operator (by simpa [hc] using symbolEnds_unary hop hne) (by rw [helides]; exact hinner)
      simpa [GoSyntax.Expr.print, hu] using hspells
  head hu := by cases hu

theorem reads_single (h : UnaryReads s e w ws) : ChainReads n s e w ws :=
  ⟨gives_single h.toUnaryGives, h.spelled⟩

theorem reads_binary {k : Nat} {op : Operator} {l r : GoSyntax.Expr} {v : Word} {vs : List Word}
    (hop : op.precedence? = some k) (hn : n ≤ k) (hl : ChainReads k s l w ws)
    (hr : GoalReads (k + 1) s r v vs) :
    ChainReads n s (.binary op l r) w (ws ++ .operator op :: v :: vs) where
  toChainGives := gives_binary hop hn hl.toChainGives hr.toGoalGives
  spelled elides rest hrest := by
    have helides : (Kind.operator op).elidesSemicolon = false := by
      cases op <;> first | rfl | cases hop
    have hright := (hr.spelled false rest hrest).blank
    rw [← helides] at hright
    have hmiddle : Spells true (op.spelling.toList ++ ' ' :: (r.print ++ rest)) _ true rest :=
      .operator (by simpa using symbolEnds_blank _) hright
    have hall := (hl.spelled elides (' ' :: (op.spelling.toList ++ ' ' :: (r.print ++ rest)))
      (by simp; decide)).trans hmiddle.blank
    simpa [GoSyntax.Expr.print] using hall

theorem reads_goal (h : ChainReads n s e w ws) : GoalReads n (s + 1) e w ws :=
  ⟨gives_goal h.toChainGives, h.spelled⟩

end Stages

/-- Every expression reads back, from whatever stage of reading it fits. -/
theorem reads_of_fits {stage : Stage} {s : Nat} {e : GoSyntax.Expr}
    (h : GoSyntax.Expr.Fits stage s e) : Reads stage s e := by
  induction h with
  | goal _ ih =>
    obtain ⟨w, ws, hr⟩ := ih
    exact ⟨w, ws, reads_goal hr⟩
  | single _ ih =>
    obtain ⟨w, ws, hr⟩ := ih
    exact ⟨w, ws, reads_single hr⟩
  | binary hop hk _ _ ihl ihr =>
    obtain ⟨w, ws, hl⟩ := ihl
    obtain ⟨v, vs, hr⟩ := ihr
    exact ⟨w, _, reads_binary hop hk hl hr⟩
  | primary _ ih =>
    obtain ⟨w, ws, hr⟩ := ih
    exact ⟨w, ws, reads_primary hr⟩
  | unary hop _ ih =>
    obtain ⟨w, ws, hr⟩ := ih
    exact ⟨_, _, reads_unary hop hr⟩
  | ident hi => exact ⟨_, _, reads_ident hi⟩
  | literal hl => exact ⟨_, _, reads_literal hl⟩
  | paren _ ih =>
    obtain ⟨w, ws, hr⟩ := ih
    exact ⟨_, _, reads_paren hr⟩
  | selector _ hf ih =>
    obtain ⟨w, ws, hr⟩ := ih
    exact ⟨_, _, reads_selector hr hf⟩
  | @call s function args stop _ _ ihf iha =>
    obtain ⟨w, ws, hr⟩ := ihf
    have hargs : ∀ a ∈ args, ∃ ws, ArgReads s a ws := by
      intro a ha
      obtain ⟨v, vs, hv⟩ := iha a ha
      exact ⟨v :: vs, v, vs, rfl, hv⟩
    obtain ⟨pairs, rfl, hall⟩ := exists_pairs hargs
    exact ⟨_, _, reads_call hr hall⟩

end Expr
end Parse
end GoSyntax
