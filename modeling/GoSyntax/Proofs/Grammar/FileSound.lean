import GoSyntax.Grammar.File
import GoSyntax.Proofs.Grammar.TypeSound

/-! The rules for bodies, declarations and files give only trees of the grammar. -/
namespace GoSyntax
namespace Parse

open GoSyntax.Parser

variable {p q : Parser}

theorem inBody_of_lawful {t : Token} (h : t.Lawful) (hk : t.kind ≠ .endOfFile) : t.InBody := by
  refine ⟨hk, ?_⟩
  rcases h with ⟨hv, hk' | hk'⟩ | h
  · exact absurd hk' hk
  · exact Or.inl ⟨hv, hk'⟩
  · exact Or.inr h

/-- Every round takes a token, so it is the closing brace that ends a body. -/
theorem sure_blockTokensFor (start : Position) {opened n : Nat} (hp : p.Good)
    (hn : p.ahead.length < n) :
    Sure (blockTokensFor start opened n) p fun ts _ =>
      (∀ t ∈ ts, t.InBody) ∧ Braced p.room opened ts := by
  induction n generalizing opened p with
  | zero => omega
  | succ n ih =>
    have hstep : ∀ opened', p.peek.kind ≠ .endOfFile →
        (∀ ts, Braced p.room opened' ts → Braced p.room opened (p.peek :: ts)) →
        Sure (do return (← advance) :: (← blockTokensFor start opened' n)) p fun ts _ =>
          (∀ t ∈ ts, t.InBody) ∧ Braced p.room opened ts := by
      intro opened' hk hb
      refine (sure_advance hp).bind ?_
      rintro _ q₁ h₁ ⟨rfl, ht⟩
      have hlt := ht hk
      refine (ih h₁.good (by omega)).bind fun ts q₂ h₂ hts => .pure h₂.good ?_
      rw [h₁.room] at hts
      exact ⟨List.forall_mem_cons.2 ⟨inBody_of_lawful hp.peek hk, hts.1⟩, hb ts hts.2⟩
    by_cases heof : p.peek.kind = .endOfFile
    · refine Sure.congr ?_ (sure_problemAt hp p.peek.pos (.openBlock start))
      simp only [blockTokensFor, heof]
    by_cases hopen : p.peek.kind = .delimiter .lbrace
    · by_cases hd : p.limit ≤ p.depth + opened
      · refine Sure.congr ?_ (sure_tooDeep hp)
        simp only [blockTokensFor, hopen, if_pos hd]
      · refine Sure.congr ?_ (hstep (opened + 1) heof fun ts hts => ?_)
        · simp only [blockTokensFor, hopen, if_neg hd]
        · rw [Braced, if_pos hopen]
          refine ⟨?_, hts⟩
          simp only [Parser.room]
          omega
    by_cases hclose : p.peek.kind = .delimiter .rbrace
    · cases opened with
      | zero =>
        have hdone : blockTokensFor start 0 (n + 1) p = (pure [] : Parse (List Token)) p := by
          simp only [blockTokensFor, hclose]
          rfl
        exact .congr hdone (.pure hp ⟨by simp, rfl⟩)
      | succ k =>
        refine Sure.congr ?_ (hstep k heof fun ts hts => ?_)
        · simp only [blockTokensFor, hclose]
        · rw [Braced, if_neg hopen, if_pos hclose]
          exact ⟨Nat.succ_pos k, hts⟩
    · refine Sure.congr ?_ (hstep opened heof fun ts hts => ?_)
      · simp only [blockTokensFor]
      · rwa [Braced, if_neg hopen, if_neg hclose]

theorem sure_block (hp : p.Good) : Sure block p fun b _ => b.Fits p.room := by
  refine (sure_require hp _ _).bind fun t q₁ h₁ _ => ?_
  have hts : Sure (bounded (blockTokensFor t.pos 0)) q₁ fun ts _ =>
      (∀ t ∈ ts, t.InBody) ∧ Braced q₁.room 0 ts :=
    sure_blockTokensFor t.pos h₁.good (Nat.lt_succ_self _)
  refine hts.bind fun ts q₂ h₂ h => ?_
  rw [h₁.room] at h
  exact (sure_require h₂.good _ _).bind fun _ q₃ h₃ _ => .pure h₃.good ⟨h.1, h.2⟩

theorem sure_receiver (hp : p.Good) : Sure receiver? p fun r _ => ∀ l, r = some l →
    Part.Fits p.room (.params l) ∧ l.NamesGiven ∧ l.params.length = 1 := by
  refine (sure_peekIs hp _).bind ?_
  rintro b _ - ⟨-, rfl⟩
  cases b with
  | false => exact .pure hp (by simp)
  | true =>
    refine (sure_paramList finds_type hp true).bind fun l q h₁ hl => ?_
    split
    · rename_i x hx
      refine .pure h₁.good ?_
      rintro _ ⟨⟩
      exact ⟨hl.1, hl.2 rfl, by rw [hx]; rfl⟩
    · exact sure_problemAt h₁.good _ _
    · exact sure_problemAt h₁.good _ _

theorem sure_body (hp : p.Good) : Sure body? p fun r _ => ∀ b, r = some b → b.Fits p.room := by
  refine (sure_peekIs hp _).bind ?_
  rintro b _ - ⟨-, rfl⟩
  cases b with
  | true =>
    refine (sure_block hp).bind fun b q₁ h₁ hb => ?_
    refine (sure_require h₁.good _ _).bind fun _ q₂ h₂ _ => .pure h₂.good ?_
    rintro _ ⟨⟩
    exact hb
  | false => exact (sure_require hp _ _).bind fun _ q₁ h₁ _ => .pure h₁.good (by simp)

theorem sure_funcDecl (hp : p.Good) : Sure funcDecl p fun f _ => f.Fits p.room := by
  refine (sure_require hp _ _).bind fun t q₁ h₁ _ => ?_
  refine (sure_receiver h₁.good).bind fun r q₂ h₂ hr => ?_
  refine (sure_ident h₂.good _).bind fun name q₃ h₃ hname => ?_
  refine (sure_signature finds_type h₃.good true).bind fun sig q₄ h₄ hsig => ?_
  refine (sure_body h₄.good).bind fun b q₅ h₅ hb => ?_
  refine (sure_note h₅.good _).bind fun _ q₆ h₆ _ => .pure h₆.good ?_
  have hroom₂ := h₁.trans h₂
  have hroom₃ := hroom₂.trans h₃
  have hroom₄ := hroom₃.trans h₄
  rw [h₁.room] at hr
  rw [hroom₃.room] at hsig
  rw [hroom₄.room] at hb
  exact ⟨hr, hname.1, hsig.1, hsig.2 rfl, hb⟩

theorem sure_decl (hp : p.Good) : Sure decl p fun d _ => d.Fits p.room := by
  refine (sure_peek hp).bind ?_
  rintro _ _ - ⟨rfl, rfl⟩
  split
  · exact (sure_funcDecl hp).map fun f _ _ hf => hf
  · exact sure_failAt hp rfl
  · exact sure_failAt hp rfl
  · exact sure_failAt hp rfl
  · exact sure_problemAt hp _ _
  · exact sure_unexpected hp _

theorem sure_importName (hp : p.Good) : Sure importName? p fun r _ =>
    ∀ n, r = some n → n.Lawful := by
  refine (sure_peek hp).bind ?_
  rintro _ _ - ⟨rfl, rfl⟩
  refine (sure_consumeIf hp (by simp)).bind fun b q₁ h₁ _ => ?_
  cases b with
  | true =>
    refine .pure h₁.good ?_
    rintro _ ⟨⟩
    trivial
  | false =>
    refine (sure_peekIs h₁.good _).bind ?_
    rintro b _ - ⟨-, rfl⟩
    cases b with
    | true =>
      refine (sure_ident h₁.good _).bind fun i q₂ h₂ hi => .pure h₂.good ?_
      rintro _ ⟨⟩
      split
      · trivial
      · rename_i hb
        exact ⟨hi.1, by simpa using hb⟩
    | false => exact .pure h₁.good (by simp)

theorem sure_importSpec (hp : p.Good) : Sure importSpec p fun i _ => i.Lawful := by
  refine (sure_peek hp).bind fun _ q₀ h₀ _ => ?_
  refine (sure_importName h₀.good).bind fun n q₁ h₁ hn => ?_
  refine (sure_require h₁.good _ _).bind ?_
  rintro _ q₂ h₂ ⟨rfl, hk, -⟩
  have hstr : q₁.peek.kind.isString = true := by
    simp only [List.mem_cons, List.not_mem_nil, or_false] at hk
    rcases hk with hk | hk
    · rw [hk]
      rfl
    · rw [hk]
      rfl
  refine (sure_stringLit h₂.good h₁.good.peek hstr).bind fun path q₃ h₃ hpath => ?_
  exact (sure_note h₃.good _).bind fun _ q₄ h₄ _ => .pure h₄.good ⟨hn, hpath.1⟩

theorem sure_importGroup (hp : p.Good) : Sure importGroup p fun l _ => ∀ i ∈ l, i.Lawful := by
  have hend : ∀ {q : Parser} {l : List Import}, q.Good → (∀ i ∈ l, i.Lawful) →
      Sure (do let _ ← require .importEnd [.delimiter .semicolon]; return l) q
        fun l _ => ∀ i ∈ l, i.Lawful := fun hq hl =>
    (sure_require hq _ _).bind fun _ _ h _ => .pure h.good hl
  refine (sure_consumeIf hp (by simp)).bind fun b q₁ h₁ _ => ?_
  cases b with
  | true =>
    refine (Sure.termList h₁.good fun q hq => sure_importSpec hq.good).bind fun l q₂ h₂ hl => ?_
    exact (sure_require h₂.good _ _).bind fun _ q₃ h₃ _ => hend h₃.good hl
  | false =>
    have hone : Sure (List.singleton <$> importSpec) q₁ fun l _ => ∀ i ∈ l, i.Lawful :=
      (sure_importSpec h₁.good).map fun i _ _ hi => by simpa [List.singleton] using hi
    exact hone.bind fun l q₂ h₂ hl => hend h₂.good hl

theorem sure_declsFor (n : Nat) (hp : p.Good) :
    Sure (declsFor n) p fun l _ => ∀ d ∈ l, d.Fits p.room := by
  induction n generalizing p with
  | zero => exact .pure hp (by simp)
  | succ n ih =>
    refine (sure_consumeIf hp (by simp)).bind fun b q₁ h₁ _ => ?_
    rw [← h₁.room]
    cases b with
    | true => exact ih h₁.good
    | false =>
      refine (sure_peekIs h₁.good _).bind ?_
      rintro b _ - ⟨-, rfl⟩
      cases b with
      | true => exact .pure h₁.good (by simp)
      | false =>
        refine (sure_decl h₁.good).bind fun d q₂ h₂ hd => ?_
        refine (ih h₂.good).bind fun l q₃ h₃ hl => .pure h₃.good ?_
        rw [h₂.room] at hl
        exact List.forall_mem_cons.2 ⟨hd, hl⟩

theorem sure_file (hp : p.Good) : Sure file p fun f _ => f.Fits p.room := by
  refine (sure_require hp _ _).bind fun t q₁ h₁ _ => ?_
  refine (sure_ident h₁.good _).bind fun name q₂ h₂ hname => ?_
  refine (sure_require h₂.good _ _).bind fun _ q₃ h₃ _ => ?_
  refine (sure_note h₃.good _).bind fun _ q₄ h₄ _ => ?_
  have himports : Sure (openedList (.keyword .importKw) importGroup) q₄
      fun ls _ => ∀ l ∈ ls, ∀ i ∈ l, i.Lawful :=
    Sure.openedList h₄.good (by simp) fun q hq => sure_importGroup hq.good
  refine himports.bind fun imports q₅ h₅ hi => ?_
  have hdecls : Sure (bounded declsFor) q₅ fun l _ => ∀ d ∈ l, d.Fits q₅.room :=
    sure_declsFor _ h₅.good
  refine hdecls.bind fun decls q₆ h₆ hd => .pure h₆.good ⟨hname.1, ?_, ?_⟩
  · intro i hmem
    obtain ⟨l, hl, hil⟩ := List.mem_flatten.1 hmem
    exact hi l hl i hil
  · have hkept := (((h₁.trans h₂).trans h₃).trans h₄).trans h₅
    rwa [hkept.room] at hd

end Parse
end GoSyntax
