import GoSyntax.Proofs.Grammar.TypeTakes
import GoSyntax.Proofs.Tree.FileDerives

/-! The words that the rules for files take derive the file that they give. -/
namespace GoSyntax
namespace Parse

open GoSyntax.Parser Entry

variable {p : Parser}

theorem Entry.Resolves.length {es : List Entry} {ps : List Param} {c : Option TypeRef}
    (h : Resolves es ps c) : ps.length = es.length := by
  induction h with
  | nil => rfl
  | named name v type _ ih => rw [List.length_cons, List.length_cons, ih]
  | bare name _ ih => rw [List.length_cons, List.length_cons, ih]

theorem Entry.Settles.length {namesRequired : Bool} {es : List Entry} {ps : List Param}
    (h : Settles namesRequired es ps) : ps.length = es.length := by
  cases h with
  | types => exact List.length_map _
  | names _ _ h => exact h.length

section Functions

theorem takes_blockTokensFor (start : Position) {opened n : Nat} (hp : p.Good) :
    Takes (blockTokensFor start opened n) p fun ts ws _ => ws = ts.map Token.word := by
  induction n generalizing opened p with
  | zero => exact .pure rfl
  | succ n ih =>
    have hstep : ∀ opened', p.peek.kind ≠ .endOfFile →
        Takes (do return (← advance) :: (← blockTokensFor start opened' n)) p fun ts ws _ =>
          ws = ts.map Token.word := by
      intro opened' hk
      refine (takes_advance hp hk).bind ?_
      rintro _ _ q₁ h₁ ⟨rfl, rfl⟩
      refine (ih (h₁.good hp)).bind ?_
      rintro ts _ q₂ - rfl
      exact .pure (by simp)
    by_cases heof : p.peek.kind = .endOfFile
    · refine .congr ?_ (takes_problemAt p.peek.pos (.openBlock start))
      simp only [blockTokensFor, heof]
    by_cases hopen : p.peek.kind = .delimiter .lbrace
    · by_cases hd : p.limit ≤ p.depth + opened
      · refine .congr ?_ takes_tooDeep
        simp only [blockTokensFor, hopen, if_pos hd]
      · refine .congr ?_ (hstep (opened + 1) heof)
        simp only [blockTokensFor, hopen, if_neg hd]
    by_cases hclose : p.peek.kind = .delimiter .rbrace
    · cases opened with
      | zero =>
        have hdone : blockTokensFor start 0 (n + 1) p = (pure [] : Parse (List Token)) p := by
          simp only [blockTokensFor, hclose]
          rfl
        exact .congr hdone (.pure rfl)
      | succ k =>
        refine .congr ?_ (hstep k heof)
        simp only [blockTokensFor, hclose]
    · refine .congr ?_ (hstep opened heof)
      simp only [blockTokensFor]

theorem takes_block (hp : p.Good) : Takes block p fun b ws _ => BodyDerives (some b) ws := by
  have hwords : Takes block p fun b ws _ => ws = blockWords b := by
    refine (takes_fixed hp _ rfl).bind ?_
    rintro opening _ q₁ h₁ rfl
    have htokens : Takes (bounded (blockTokensFor opening.pos 0)) q₁ fun ts ws _ =>
        ws = ts.map Token.word :=
      fun ts q h => takes_blockTokensFor opening.pos (h₁.good hp) ts q h
    refine htokens.bind ?_
    rintro ts _ q₂ h₂ rfl
    refine (takes_fixed (h₂.good (h₁.good hp)) _ rfl).bind ?_
    rintro closing _ q₃ - rfl
    exact .pure (by simp [blockWords])
  intro b q h
  obtain ⟨ws, hws, rfl⟩ := hwords b q h
  have hfits := ((sure_block hp).of_ok h).2
  exact ⟨_, hws, .block hfits.braced fun t ht => (hfits.tokens t ht).1⟩

theorem takes_body (hp : p.Good) : Takes body? p fun o ws _ => ∃ vs, BodyDerives o vs ∧
    ws = vs ++ [.delimiter .semicolon] := by
  refine (takes_peekIs _).bind ?_
  rintro b _ _ - ⟨-, rfl, rfl⟩
  cases b with
  | true =>
    refine (takes_block hp).bind fun b vs q₁ h₁ hb => ?_
    refine (takes_fixed (h₁.good hp) _ rfl).bind ?_
    rintro _ _ q₂ - rfl
    exact .pure ⟨vs, hb, by simp⟩
  | false =>
    refine (takes_fixed hp _ rfl).bind ?_
    rintro _ _ q₁ - rfl
    exact .pure ⟨[], .absent, by simp⟩

theorem takes_receiver (hp : p.Good) : Takes receiver? p fun o ws _ => ReceiverDerives o ws := by
  refine (takes_peekIs _).bind ?_
  rintro b _ _ - ⟨-, rfl, rfl⟩
  cases b with
  | true =>
    refine (takes_list derived_type hp true).bind ?_
    rintro l ws q₁ - ⟨entries, hl⟩
    split
    · rename_i x hx
      have hlen := hl.settles.length
      rw [hx, List.length_map] at hlen
      obtain ⟨e, rfl⟩ := List.length_eq_one_iff.1 hlen.symm
      exact .pure (by simpa using ReceiverDerives.list hl)
    · exact takes_problemAt _ _
    · exact takes_problemAt _ _
  | false => exact .pure .absent

theorem takes_funcDecl (hp : p.Good) : Takes funcDecl p fun f ws _ => FuncDerives f ws := by
  refine (takes_fixed hp _ rfl).bind ?_
  rintro opening _ q₁ h₁ rfl
  have hp₁ := h₁.good hp
  refine (takes_receiver hp₁).bind fun receiver us q₂ h₂ hr => ?_
  have hp₂ := h₂.good hp₁
  refine (takes_identifier hp₂ _).bind ?_
  rintro name _ q₃ h₃ ⟨-, rfl⟩
  have hp₃ := h₃.good hp₂
  refine (takes_listAndResults derived_type hp₃ true).bind ?_
  rintro ⟨args, results⟩ _ q₄ h₄ ⟨entries, vs, ws, hargs, hresults, rfl⟩
  refine (takes_body (h₄.good hp₃)).bind ?_
  rintro body _ q₅ h₅ ⟨xs, hbody, rfl⟩
  refine (takes_note _).bind ?_
  rintro _ _ q₆ - rfl
  refine .pure ?_
  simpa using FuncDerives.mk opening.pos name hr hargs hresults hbody

theorem takes_decl (hp : p.Good) :
    Takes decl p fun d ws _ => ∃ f, d = .func f ∧ FuncDerives f ws := by
  refine takes_peek.bind ?_
  rintro _ _ _ - ⟨rfl, rfl, rfl⟩
  split
  · exact (takes_funcDecl hp).map fun f ws q _ hf => ⟨f, rfl, hf⟩
  · exact takes_failAt _ _
  · exact takes_failAt _ _
  · exact takes_failAt _ _
  · exact takes_problemAt _ _
  · exact takes_unexpected _

/-- Every round takes a token, so it is the end of the source that ends the declarations. -/
theorem takes_declsFor {n : Nat} (hp : p.Good) (hn : p.ahead.length < n) :
    Takes (declsFor n) p fun ds ws q => DeclsDerive ds ws ∧ q.peek.kind = .endOfFile := by
  induction n generalizing p with
  | zero => omega
  | succ n ih =>
    refine (takes_consumeIf hp rfl).bind fun b ws q₁ h₁ hb => ?_
    rcases hb with ⟨rfl, rfl⟩ | ⟨rfl, -, rfl, rfl⟩
    · have hlt := h₁.length
      rw [List.length_singleton] at hlt
      refine (ih (h₁.good hp) (by omega)).mono ?_
      rintro ds vs q₂ - ⟨hds, hend⟩
      exact ⟨.stray hds, hend⟩
    · refine (takes_peekIs _).bind ?_
      rintro b _ _ - ⟨hb, rfl, rfl⟩
      cases b with
      | true => exact .pure ⟨.nil, hb.1 rfl⟩
      | false =>
        refine (takes_decl hp).bind ?_
        rintro _ vs q₁ h₁ ⟨f, rfl, hf⟩
        have hlt : q₁.ahead.length < n := by
          have hlen := h₁.length
          cases hf
          rw [List.length_cons] at hlen
          omega
        refine (ih (h₁.good hp) hlt).bind ?_
        rintro ds us q₂ - ⟨hds, hend⟩
        exact .pure ⟨by simpa using DeclsDerive.func hf hds, hend⟩

end Functions

section Imports

theorem takes_stringLit {t : Token} {form : LiteralForm} (hk : t.kind = .literal form) :
    Takes (stringLit t) p fun x ws _ => ws = [] ∧ t.word = stringWord form x := by
  unfold stringLit
  split
  · rename_i x hvalue
    refine .pure ⟨rfl, ?_⟩
    rw [Token.word_of_ne (by simp [hk]), hk, hvalue]
    rfl
  · exact takes_failAt _ _

theorem takes_importName (hp : p.Good) : Takes importName? p fun o ws _ =>
    ws = (o.map importWord).toList ∧
      ∀ name, o = some (.named name) → name.isBlank = false := by
  refine takes_peek.bind ?_
  rintro _ _ _ - ⟨rfl, rfl, rfl⟩
  refine (takes_consumeIf hp rfl).bind fun b ws q₁ h₁ hb => ?_
  rcases hb with ⟨rfl, rfl⟩ | ⟨rfl, -, rfl, rfl⟩
  · exact .pure ⟨rfl, by simp⟩
  · refine (takes_peekIs _).bind ?_
    rintro b _ _ - ⟨-, rfl, rfl⟩
    cases b with
    | false => exact .pure ⟨rfl, by simp⟩
    | true =>
      refine (takes_identifier hp _).bind ?_
      rintro name _ q₂ - ⟨-, rfl⟩
      refine .pure ?_
      cases hblank : name.isBlank with
      | true =>
        have hname : name.name = ['_'] := by simpa [Ident.isBlank] using hblank
        exact ⟨by simp [importWord, hname], by simp⟩
      | false =>
        refine ⟨by simp [importWord], ?_⟩
        rintro _ ⟨⟩
        exact hblank

theorem takes_importSpec (hp : p.Good) : Takes importSpec p fun i ws _ => SpecDerives i ws := by
  refine takes_peek.bind ?_
  rintro _ _ _ - ⟨rfl, rfl, rfl⟩
  refine (takes_importName hp).bind ?_
  rintro name _ q₁ h₁ ⟨rfl, hname⟩
  refine (takes_requireAny (h₁.good hp) _ (by simp)).bind ?_
  rintro _ _ q₂ - ⟨rfl, hk, rfl⟩
  obtain ⟨form, hform, hstring⟩ : ∃ form, q₁.peek.kind = .literal form ∧ form.isString = true := by
    simp only [List.mem_cons, List.not_mem_nil, or_false] at hk
    rcases hk with hk | hk
    · exact ⟨_, hk, rfl⟩
    · exact ⟨_, hk, rfl⟩
  refine (takes_stringLit hform).bind ?_
  rintro path _ q₃ - ⟨rfl, hpath⟩
  refine (takes_note _).bind ?_
  rintro _ _ q₄ - rfl
  refine .pure ?_
  have hspec : SpecDerives ⟨p.peek.pos, name, path⟩ _ := .mk hstring hname
  simpa [importWords, hpath] using hspec

theorem takes_importGroup (hp : p.Good) :
    Takes importGroup p fun l ws _ => ImportDerives l ws := by
  have hend : ∀ {q : Parser} {l : List Import} (us : List Word), q.Good →
      ImportDerives l (us ++ [.delimiter .semicolon]) →
      Takes (do let _ ← require .importEnd [.delimiter .semicolon]; return l) q
        fun l ws _ => ImportDerives l (us ++ ws) := by
    intro q l us hq hl
    refine (takes_fixed hq _ rfl).bind ?_
    rintro _ _ q₁ - rfl
    exact .pure (by simpa using hl)
  refine (takes_consumeIf hp rfl).bind fun b ws q₁ h₁ hb => ?_
  rcases hb with ⟨rfl, rfl⟩ | ⟨rfl, -, rfl, rfl⟩
  · have hp₁ := h₁.good hp
    refine (Takes.termList hp₁ (fun q hq => takes_importSpec hq) fun i us hi => ?_).bind ?_
    · obtain ⟨form, rfl⟩ : ∃ form, us = importWords form i := by
        cases hi
        exact ⟨_, rfl⟩
      obtain ⟨w, vs, hw, hk⟩ := importWords_opens form i
      exact ⟨w, vs, hw, fun he => hk (by simp [he]), fun he => hk (by simp [he])⟩
    · rintro _ us q₂ h₂ ⟨pairs, rfl, hpairs, hsep⟩
      have hp₂ := h₂.good hp₁
      refine (takes_fixed hp₂ _ rfl).bind ?_
      rintro _ _ q₃ h₃ rfl
      have hgroup := ImportDerives.group hpairs hsep
      refine (hend (.delimiter .lparen :: (us ++ [.delimiter .rparen])) (h₃.good hp₂)
        (by simpa using hgroup)).mono ?_
      rintro l ws q₄ - hl
      simpa using hl
  · have hone : Takes (List.singleton <$> importSpec) p fun l ws _ =>
        ImportDerives l (ws ++ [.delimiter .semicolon]) :=
      (takes_importSpec hp).map fun i ws q _ hi => .single hi
    exact hone.bind fun l ws q₁ h₁ hl => hend ws (h₁.good hp) hl

theorem takes_file (hp : p.Good) : Takes file p fun f ws q =>
    FileDerives f (ws ++ [.endOfFile]) ∧ q.peek.kind = .endOfFile := by
  refine (takes_fixed hp _ rfl).bind ?_
  rintro opening _ q₁ h₁ rfl
  have hp₁ := h₁.good hp
  refine (takes_identifier hp₁ _).bind ?_
  rintro package _ q₂ h₂ ⟨-, rfl⟩
  have hp₂ := h₂.good hp₁
  refine (takes_fixed hp₂ _ rfl).bind ?_
  rintro _ _ q₃ h₃ rfl
  have hp₃ := h₃.good hp₂
  refine (takes_note _).bind ?_
  rintro _ _ q₄ h₄ rfl
  have hp₄ := h₄.good hp₃
  refine (Takes.openedItems hp₄ rfl fun q hq => takes_importGroup hq).bind ?_
  rintro _ _ q₅ h₅ ⟨groups, rfl, hgroups, rfl⟩
  have hdecls : Takes (bounded declsFor) q₅ fun ds ws q =>
      DeclsDerive ds ws ∧ q.peek.kind = .endOfFile :=
    fun ds q h => takes_declsFor (h₅.good hp₄) (Nat.lt_succ_self _) ds q h
  refine hdecls.bind ?_
  rintro decls ws q₆ - ⟨hdecls, hend⟩
  refine .pure ⟨?_, hend⟩
  simpa [groupWords] using FileDerives.mk opening.pos package hgroups hdecls

end Imports

end Parse
end GoSyntax
