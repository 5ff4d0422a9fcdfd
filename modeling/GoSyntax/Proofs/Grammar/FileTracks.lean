import GoSyntax.Grammar.Session
import GoSyntax.Proofs.Grammar.TypeTracks

/-! What the rules for bodies, declarations and files read and what they may blame. -/
namespace GoSyntax
namespace Parse

open GoSyntax.Parser

variable {p q : Parser} {o : Outlook} {r k n : Nat}

/-- A body gives all tokens that it reads. Each brace that is open in it has taken a token, so there
are never more of them than there were tokens in reach. -/
theorem tracks_blockTokensFor {start : Position} (i : Nat) {opened : Nat}
    (hp : p.Ready o r opened n) :
    Tracks o n (blockTokensFor start opened i) p fun tokens ts _ => tokens = ts := by
  induction i generalizing p opened with
  | zero => exact .pure rfl
  | succ i ih =>
    have hstep : ∀ opened', p.peek.kind ≠ .endOfFile → opened' ≤ opened + 2 →
        Tracks o n (do return (← advance) :: (← blockTokensFor start opened' i)) p
          fun tokens ts _ => tokens = ts := by
      intro opened' hk hle
      refine (tracks_advance hp hk).bind ?_
      rintro _ _ q₁ h₁ ⟨rfl, rfl⟩
      refine (ih ((h₁.gain hp).less hle)).bind ?_
      rintro tokens _ q₂ - rfl
      exact .pure (by simp)
    unfold blockTokensFor
    cases hk : p.peek.kind with
    | endOfFile =>
      simp only [Tracks, hk]
      exact Or.inr ⟨hp.place, by simp [Cause.IsLexical], by rintro ⟨⟩⟩
    | delimiter d =>
      cases d with
      | lbrace =>
        simp only [Tracks, hk]
        by_cases hd : p.limit ≤ p.depth + opened
        · simp only [if_pos hd]
          refine Or.inr ⟨hp.place, by simp [Cause.IsLexical], fun _ => ?_⟩
          have hreach : 1 ≤ p.reach := by simp [reach, stream, reachOf, hk]
          have hlevels := hp.levels
          simp only [Parser.room]
          omega
        · simp only [if_neg hd]
          exact hstep (opened + 1) (by simp [hk]) (by omega)
      | rbrace =>
        cases opened with
        | zero =>
          simp only [Tracks, hk]
          exact ⟨[], .refl p, rfl⟩
        | succ opened =>
          simp only [Tracks, hk]
          exact hstep opened (by simp [hk]) (by omega)
      | _ =>
        simp only [Tracks, hk]
        exact hstep opened (by simp [hk]) (by omega)
    | _ =>
      simp only [Tracks, hk]
      exact hstep opened (by simp [hk]) (by omega)

theorem tracks_block (hp : p.Ready o r 0 n) :
    Tracks o n block p fun b ts _ => Written [.block b] ts := by
  refine (tracks_require hp _ (by simp)).bind ?_
  rintro _ _ q₁ h₁ ⟨rfl, hopen, rfl⟩
  have hp₁ := h₁.ready hp
  have htokens : Tracks o n (bounded (blockTokensFor p.peek.pos 0)) q₁
      fun tokens ts _ => tokens = ts := tracks_blockTokensFor (q₁.ahead.length + 1) hp₁
  refine htokens.bind ?_
  rintro tokens _ q₂ h₂ rfl
  refine (tracks_require (h₂.ready hp₁) _ (by simp)).bind ?_
  rintro _ _ q₃ - ⟨rfl, hclose, rfl⟩
  exact .pure (.block hopen hclose rfl rfl .nil)

theorem tracks_receiver (hp : p.Ready o r 2 n) : Tracks o n receiver? p fun x ts _ =>
    Written ((x.map Node.ofParams).getD []) ts := by
  refine (tracks_peekIs _).bind ?_
  rintro b _ _ - ⟨-, rfl, rfl⟩
  cases b with
  | true =>
    refine (tracks_paramList (locates_type r) (hp.less (by omega)) true).bind ?_
    rintro list ts q - ⟨hstart, -, hlist⟩
    split
    · exact .pure (by simpa using hlist)
    · exact tracks_problemAt hstart _
    · exact tracks_problemAt hstart _
  | false => exact .pure .nil

theorem tracks_body (hp : p.Ready o r 2 n) : Tracks o n body? p fun x ts _ =>
    Written (x.toList.map .block) ts := by
  refine (tracks_peekIs _).bind ?_
  rintro b _ _ - ⟨-, rfl, rfl⟩
  cases b with
  | true =>
    refine (tracks_block (hp.less (by omega))).bind fun b ts q₁ h₁ hb => ?_
    refine (tracks_require (h₁.ready hp) _ (by simp)).bind ?_
    rintro _ _ q₂ - ⟨rfl, hk, rfl⟩
    exact .pure (hb.snoc (by simp [hk]))
  | false =>
    refine (tracks_require hp _ (by simp)).bind ?_
    rintro _ _ q₂ - ⟨rfl, hk, rfl⟩
    exact .pure (.mark (by simp [hk]) .nil)

theorem tracks_funcDecl (hp : p.Ready o r 2 n) :
    Tracks o n funcDecl p fun f ts _ => Written [.func f] ts := by
  refine (tracks_require hp _ (by simp)).bind ?_
  rintro _ _ q₁ h₁ ⟨rfl, hopen, rfl⟩
  have hp₁ := h₁.ready hp
  refine (tracks_receiver hp₁).bind fun receiver ts₂ q₂ h₂ hreceiver => ?_
  have hp₂ := h₂.ready hp₁
  refine (tracks_identifier hp₂ _).bind ?_
  rintro _ _ q₃ h₃ ⟨rfl, hname, rfl⟩
  have hp₃ := h₃.ready hp₂
  refine (tracks_signature (locates_type r) hp₃ true).bind fun sig ts₄ q₄ h₄ hsig => ?_
  refine (tracks_body (h₄.ready hp₃)).bind fun body ts₅ q₅ _ hbody => ?_
  refine (tracks_note _).bind ?_
  rintro _ _ q₆ - rfl
  refine .pure (.wrap rfl ?_)
  rw [Node.parts_eq rfl]
  have hall := hreceiver.append (.ident hname (hsig.append hbody))
  simpa [Node.children] using hall.mark (t := p.peek) (by simp [hopen])

theorem tracks_decl (hp : p.Ready o r 2 n) :
    Tracks o n decl p fun d ts _ => Written [.decl d] ts := by
  refine tracks_peek.bind ?_
  rintro _ _ _ - ⟨rfl, rfl, rfl⟩
  have hrefused : ∀ keyword, Tracks o n (failAt p.peek.pos (.unsupported keyword)) p fun d ts _ =>
      Written [.decl d] ([] ++ ts) := fun _ =>
    tracks_failAt hp.place (by simp [Cause.IsLexical]) (by rintro limit ⟨⟩)
  split
  · exact (tracks_funcDecl hp).map fun f ts q _ hf => .wrap rfl hf
  · exact hrefused _
  · exact hrefused _
  · exact hrefused _
  · exact tracks_problemAt hp.place _
  · exact tracks_unexpected hp _

/-- The name of an import is written as itself, a blank one as a token that is no node. -/
theorem tracks_importName (hp : p.Ready o r k n) : Tracks o n importName? p fun x ts _ =>
    ∀ (start : Position) (path : StringLit) us, Written [] us →
      Written [.importSpec ⟨start, x, path⟩] (ts ++ us) := by
  refine tracks_peek.bind ?_
  rintro _ _ _ - ⟨rfl, rfl, rfl⟩
  refine (tracks_consumeIf hp (by simp)).bind fun b ts q₁ h₁ hb => ?_
  rcases hb with ⟨rfl, hk, rfl⟩ | ⟨rfl, rfl, rfl⟩
  · refine .pure fun start path us hus => .wrap rfl ?_
    exact .mark (by simp [hk]) hus
  · refine (tracks_peekIs _).bind ?_
    rintro b _ _ - ⟨hb, rfl, rfl⟩
    cases b with
    | true =>
      have hk := hb.1 rfl
      refine (tracks_identifier hp _).bind ?_
      rintro _ _ q₂ - ⟨rfl, -, rfl⟩
      refine .pure fun start path us hus => ?_
      split
      · next hblank => exact .blank hk (beq_iff_eq.1 hblank) hus
      · exact .wrap rfl (.ident hk hus)
    | false => exact .pure fun start path us hus => .wrap rfl hus

theorem tracks_importSpec (hp : p.Ready o r k n) :
    Tracks o n importSpec p fun i ts _ => Written [.importSpec i] ts := by
  refine tracks_peek.bind ?_
  rintro _ _ _ - ⟨rfl, rfl, rfl⟩
  refine (tracks_importName hp).bind fun name ts q₁ h₁ hname => ?_
  have hp₁ := h₁.ready hp
  refine (tracks_requireAny hp₁ _ (by simp)).bind ?_
  rintro _ _ q₂ - ⟨rfl, hk, rfl⟩
  have hkind : q₁.peek.kind ≠ .identifier := by
    intro h
    rw [h] at hk
    simp at hk
  refine (tracks_stringLit hp₁.place).bind ?_
  rintro path _ q₃ - rfl
  refine (tracks_note _).bind ?_
  rintro _ _ q₄ - rfl
  exact .pure (hname _ _ _ (.mark hkind .nil))

theorem tracks_importGroup (hp : p.Ready o r k n) :
    Tracks o n importGroup p fun l ts _ => Written (l.map .importSpec) ts := by
  have hitem : ∀ q : Parser, q.Ready o r k n → Tracks o n importSpec q
      fun i ts _ => True ∧ Written [.importSpec i] ts := fun q hq =>
    (tracks_importSpec hq).mono fun _ _ _ _ h => ⟨trivial, h⟩
  have hend : ∀ {q : Parser} {l : List Import} {ts : List Token}, q.Ready o r k n →
      Written (l.map .importSpec) ts →
      Tracks o n (do let _ ← require .importEnd [.delimiter .semicolon]; return l) q
        fun l us _ => Written (l.map .importSpec) (ts ++ us) := by
    intro q l ts hq hl
    refine (tracks_require hq _ (by simp)).bind ?_
    rintro _ _ q' - ⟨rfl, hk, rfl⟩
    exact .pure (hl.snoc (by simp [hk]))
  refine (tracks_consumeIf hp (by simp)).bind fun b ts q₁ h₁ hb => ?_
  rcases hb with ⟨rfl, hk, rfl⟩ | ⟨rfl, rfl, rfl⟩
  · have hp₁ := h₁.ready hp
    refine (Tracks.termList hitem hp₁).bind ?_
    rintro specs ts q₂ h₂ ⟨-, hspecs⟩
    have hp₂ := h₂.ready hp₁
    refine (tracks_require hp₂ _ (by simp)).bind ?_
    rintro _ _ q₃ h₃ ⟨rfl, hclose, rfl⟩
    rw [← List.map_eq_flatMap] at hspecs
    have hall := (hspecs.snoc (t := q₂.peek) (by simp [hclose])).mark (t := p.peek) (by simp [hk])
    simpa [List.append_assoc] using hend (h₃.ready hp₂) hall
  · refine ((tracks_importSpec hp).map (R := fun l ts _ => Written (l.map .importSpec) ts)
      fun i ts q _ hi => hi).bind fun l ts q₂ h₂ hl => ?_
    exact hend (h₂.ready hp) hl

theorem tracks_declsFor (i : Nat) (hp : p.Ready o r 2 n) :
    Tracks o n (declsFor i) p fun l ts _ => Written (l.map .decl) ts := by
  induction i generalizing p with
  | zero => exact .pure .nil
  | succ i ih =>
    refine (tracks_consumeIf hp (by simp)).bind fun b ts q₁ h₁ hb => ?_
    rcases hb with ⟨rfl, hk, rfl⟩ | ⟨rfl, rfl, rfl⟩
    · exact (ih (h₁.ready hp)).mono fun l ts q _ hl => .mark (by simp [hk]) hl
    · refine (tracks_peekIs _).bind ?_
      rintro b _ _ - ⟨-, rfl, rfl⟩
      cases b with
      | true => exact .pure .nil
      | false =>
        refine (tracks_decl hp).bind fun d ts q₁ h₁ hd => ?_
        refine (ih (h₁.ready hp)).bind fun l us q₂ _ hl => .pure ?_
        simpa using hd.append hl

theorem tracks_file (hp : p.Ready o r 2 n) :
    Tracks o n file p fun f ts _ => Written [.file f] ts := by
  refine (tracks_require hp _ (by simp)).bind ?_
  rintro _ _ q₁ h₁ ⟨rfl, hopen, rfl⟩
  have hp₁ := h₁.ready hp
  refine (tracks_identifier hp₁ _).bind ?_
  rintro _ _ q₂ h₂ ⟨rfl, hname, rfl⟩
  have hp₂ := h₂.ready hp₁
  refine (tracks_require hp₂ _ (by simp)).bind ?_
  rintro _ _ q₃ h₃ ⟨rfl, hend, rfl⟩
  refine (tracks_note _).bind ?_
  rintro _ _ q₄ h₄ rfl
  have hp₄ := h₄.ready (h₃.ready hp₂)
  have hgroup : ∀ q : Parser, q.Ready o r 2 n → Tracks o n importGroup q
      fun l ts _ => True ∧ Written (l.map .importSpec) ts := fun q hq =>
    (tracks_importGroup hq).mono fun _ _ _ _ h => ⟨trivial, h⟩
  refine (Tracks.openedList hgroup (by simp) (by simp) hp₄).bind ?_
  rintro imports ts q₅ h₅ ⟨-, himports⟩
  have hdecls : Tracks o n (bounded declsFor) q₅ fun l ts _ => Written (l.map .decl) ts :=
    tracks_declsFor (q₅.ahead.length + 1) (h₅.ready hp₄)
  refine hdecls.bind fun decls us q₆ _ hdecls => .pure (.wrap rfl ?_)
  rw [Node.parts_eq rfl]
  have hbody := (himports.append hdecls).mark (t := q₂.peek) (by simp [hend])
  have hall := (hbody.ident hname).mark (t := p.peek) (by simp [hopen])
  simpa [Node.children, List.map_flatten, List.flatMap_def] using hall

/-- Whatever rule is called on a parser, it reads the tree it gives, or there is an excuse. -/
theorem tracks_parse (rule : Rule) (hp : p.Ready o r 2 n) :
    Tracks o n rule.parse p fun t ts _ => Written t.roots ts := by
  cases rule with
  | file => exact (tracks_file hp).map fun _ _ _ _ h => h
  | decl => exact (tracks_decl hp).map fun _ _ _ _ h => h
  | func => exact (tracks_funcDecl hp).map fun _ _ _ _ h => h
  | signature namesRequired =>
    exact (tracks_signature (locates_type r) hp namesRequired).map fun _ _ _ _ h => h
  | params namesRequired =>
    exact (tracks_paramList (locates_type r) (hp.less (by omega)) namesRequired).map
      fun _ _ _ _ h => h.2.2
  | type => exact (tracks_requiredType (locates_type r) hp).map fun _ _ _ _ h => h.2
  | maybeType =>
    refine (locates_type r n p hp).bind fun x ts q _ hx => .pure ?_
    rw [List.append_nil]
    cases x with
    | some t => exact hx.2
    | none =>
      obtain rfl : ts = [] := hx
      exact .nil
  | expr => exact (tracks_expr hp).map fun _ _ _ _ h => h
  | block => exact (tracks_block (hp.less (by omega))).map fun _ _ _ _ h => h
  | ident =>
    refine (tracks_identifier hp _).map ?_
    rintro _ _ q - ⟨rfl, hk, rfl⟩
    exact .of_ident hk

end Parse
end GoSyntax
