import GoSyntax.Proofs.Grammar.TypeLays

/-! What the rules for bodies, declarations and files give is laid out in the tokens that they
read. -/
namespace GoSyntax
namespace Parse

open GoSyntax.Parser

variable {p : Parser} {r n : Nat}

/-- The tokens are a declaration and the semicolon behind it. -/
def Ended (d : Decl) (ts : List Token) : Prop :=
  ∃ us semicolon, ts = us ++ [semicolon] ∧ semicolon.kind = .delimiter .semicolon ∧
    Fills [.part (.decl d)] us

theorem lays_block (hp : p.Ready .any r 0 n) :
    Tracks .any n block p fun b ts _ => Fills [.part (.block b)] ts := by
  refine (tracks_require hp _ (by simp)).bind ?_
  rintro _ _ q₁ h₁ ⟨rfl, hopen, rfl⟩
  have hp₁ := h₁.ready hp
  have htokens : Tracks .any n (bounded (blockTokensFor p.peek.pos 0)) q₁
      fun tokens ts _ => tokens = ts := tracks_blockTokensFor (q₁.ahead.length + 1) hp₁
  refine htokens.bind ?_
  rintro tokens _ q₂ h₂ rfl
  refine (tracks_require (h₂.ready hp₁) _ (by simp)).bind ?_
  rintro _ _ q₃ - ⟨rfl, hclose, rfl⟩
  refine .pure ?_
  have hinner : Laid (tokens.map fun t => .token (· = t)) tokens tokens := by
    clear htokens h₂
    induction tokens with
    | nil => exact .nil
    | cons t tokens ih => exact .token rfl ih
  simpa using Fills.closed (.mark hopen hinner) hclose
    (.plain (p := .block ⟨_, tokens, q₂.peek.stop⟩) rfl) rfl rfl

theorem lays_receiver (hp : p.Ready .any r 0 n) : Tracks .any n receiver? p fun x ts _ =>
    Fills (x.toList.map (.part <| .params ·)) ts := by
  refine (tracks_peekIs _).bind ?_
  rintro b _ _ - ⟨-, rfl, rfl⟩
  cases b with
  | true =>
    refine (lays_paramList lays_type hp true).bind fun list ts q _ hlist => ?_
    split
    · exact .pure (by simpa using hlist)
    · exact tracks_refused _
    · exact tracks_refused _
  | false => exact .pure .nil

/-- A body and the semicolon behind it, or just that. -/
theorem lays_body (hp : p.Ready .any r 0 n) : Tracks .any n body? p fun x ts _ =>
    ∃ us semicolon, ts = us ++ [semicolon] ∧ semicolon.kind = .delimiter .semicolon ∧
      Fills (x.toList.map (.part <| .block ·)) us := by
  refine (tracks_peekIs _).bind ?_
  rintro b _ _ - ⟨-, rfl, rfl⟩
  cases b with
  | true =>
    refine (lays_block hp).bind fun b ts q₁ h₁ hb => ?_
    refine (tracks_require (h₁.ready hp) _ (by simp)).bind ?_
    rintro _ _ q₂ - ⟨rfl, hk, rfl⟩
    exact .pure ⟨ts, q₁.peek, by simp, hk, hb⟩
  | false =>
    refine (tracks_require hp _ (by simp)).bind ?_
    rintro _ _ q₂ - ⟨rfl, hk, rfl⟩
    exact .pure ⟨[], p.peek, rfl, hk, .nil⟩

theorem lays_funcDecl (hp : p.Ready .any r 0 n) :
    Tracks .any n funcDecl p fun f ts _ => Ended (.func f) ts := by
  refine (tracks_require hp _ (by simp)).bind ?_
  rintro _ _ q₁ h₁ ⟨rfl, hopen, rfl⟩
  have hp₁ := h₁.ready hp
  refine (lays_receiver hp₁).bind ?_
  rintro receiver ts₂ q₂ h₂ ⟨own₂, hreceiver⟩
  have hp₂ := h₂.ready hp₁
  refine (tracks_identifier hp₂ _).bind ?_
  rintro _ _ q₃ h₃ ⟨rfl, hname, rfl⟩
  have hp₃ := h₃.ready hp₂
  refine (lays_signature lays_type hp₃ true).bind fun sig ts₄ q₄ h₄ hsig => ?_
  refine (lays_body (h₄.ready hp₃)).bind ?_
  rintro body _ q₅ - ⟨ts₅, semicolon, rfl, hk, hbody⟩
  refine (tracks_note _).bind ?_
  rintro _ _ q₆ - rfl
  obtain ⟨own₃, hname⟩ := Fills.ident hname
  have hhead := Laid.mark hopen (hreceiver.append hname)
  refine .pure ⟨p.peek :: (ts₂ ++ [q₂.peek]) ++ (ts₄ ++ ts₅), semicolon, by simp, hk, ?_⟩
  cases body with
  | none =>
    obtain ⟨own, hbody⟩ := hbody
    rw [hbody.eq_nil.1, List.append_nil]
    refine .upTo hhead hsig ?_ rfl rfl
    simpa [FuncDecl.slots, Piece.slots] using
      Piece.Layout.plain (p := .decl (.func ⟨p.peek.pos, receiver, _, sig, none⟩)) rfl
  | some b =>
    obtain ⟨own₄, hsig⟩ := hsig
    rw [← List.append_assoc]
    refine .upTo (hhead.append hsig) hbody ?_ rfl rfl
    simpa [FuncDecl.slots, Piece.slots] using
      Piece.Layout.plain (p := .decl (.func ⟨p.peek.pos, receiver, _, sig, some b⟩)) rfl

theorem lays_decl (hp : p.Ready .any r 0 n) :
    Tracks .any n decl p fun d ts _ => Ended d ts := by
  refine tracks_peek.bind ?_
  rintro _ _ _ - ⟨rfl, rfl, rfl⟩
  split
  · exact (lays_funcDecl hp).map fun f ts q _ hf => hf
  · exact tracks_refused _
  · exact tracks_refused _
  · exact tracks_refused _
  · exact tracks_refused _
  · exact tracks_unexpected hp _

theorem lays_importName (hp : p.Ready .any r 0 n) : Tracks .any n importName? p fun x ts _ =>
    Fills (x.toList.flatMap ImportName.slots) ts := by
  refine tracks_peek.bind ?_
  rintro _ _ _ - ⟨rfl, rfl, rfl⟩
  refine (tracks_consumeIf hp (by simp)).bind fun b ts q₁ h₁ hb => ?_
  rcases hb with ⟨rfl, hk, rfl⟩ | ⟨rfl, rfl, rfl⟩
  · exact .pure ⟨_, .mark hk .nil⟩
  · refine (tracks_peekIs _).bind ?_
    rintro b _ _ - ⟨-, rfl, rfl⟩
    cases b with
    | true =>
      refine (tracks_identifier hp _).bind ?_
      rintro _ _ q₂ - ⟨rfl, hk, rfl⟩
      refine .pure ?_
      split
      · exact ⟨_, .mark hk .nil⟩
      · simpa [ImportName.slots] using Fills.ident hk
    | false => exact .pure .nil

theorem lays_importSpec (hp : p.Ready .any r 0 n) :
    Tracks .any n importSpec p fun i ts _ => Fills i.slots ts := by
  refine tracks_peek.bind ?_
  rintro _ _ _ - ⟨rfl, rfl, rfl⟩
  refine (lays_importName hp).bind fun name ts q₁ h₁ hname => ?_
  have hp₁ := h₁.ready hp
  refine (tracks_requireAny hp₁ _ (by simp)).bind ?_
  rintro _ _ q₂ - ⟨rfl, hk, rfl⟩
  have hstring : q₁.peek.kind.isString = true := by
    simp only [List.mem_cons, List.not_mem_nil, or_false] at hk
    rcases hk with hk | hk <;> rw [hk] <;> rfl
  refine (lays_stringLit hstring).bind ?_
  rintro path _ q₃ - ⟨rfl, hpath⟩
  refine (tracks_note _).bind ?_
  rintro _ _ q₄ - rfl
  exact .pure (by simpa [Import.slots] using hname.append hpath)

theorem lays_importGroup (hp : p.Ready .any r 0 n) : Tracks .any n importGroup p fun l ts _ =>
    Fills (Slot.list Import.slots File.between l) ts := by
  have hend : ∀ {q : Parser} {l : List Import} {ts : List Token}, q.Ready .any r 0 n →
      Fills (Slot.list Import.slots File.between l) ts →
      Tracks .any n (do let _ ← require .importEnd [.delimiter .semicolon]; return l) q
        fun l us _ => Fills (Slot.list Import.slots File.between l) (ts ++ us) := by
    intro q l ts hq hl
    refine (tracks_require hq _ (by simp)).bind ?_
    rintro _ _ q' - ⟨rfl, hk, rfl⟩
    exact .pure (hl.list_snoc (by simp [hk, File.between]))
  refine (tracks_consumeIf hp (by simp)).bind fun b ts q₁ h₁ hb => ?_
  rcases hb with ⟨rfl, hopen, rfl⟩ | ⟨rfl, rfl, rfl⟩
  · have hp₁ := h₁.ready hp
    refine (lays_termList File.between (fun q hq => lays_importSpec hq) (by simp [File.between])
      hp₁).bind fun specs ts q₂ h₂ hspecs => ?_
    have hp₂ := h₂.ready hp₁
    refine (tracks_require hp₂ _ (by simp)).bind ?_
    rintro _ _ q₃ h₃ ⟨rfl, hclose, rfl⟩
    have hclosed := hspecs.list_snoc (t := q₂.peek) (by simp [hclose, File.between])
    have hall := hclosed.list_more (t := p.peek) (by simp [hopen, File.between])
    simpa [List.append_assoc] using hend (h₃.ready hp₂) hall
  · refine ((lays_importSpec hp).map
      (R := fun l ts _ => Fills (Slot.list Import.slots File.between l) ts)
      fun i ts q _ hi => ?_).bind fun l ts q₂ h₂ hl => hend (h₂.ready hp) hl
    rw [← List.append_nil ts]
    exact hi.list_cons (.list_nil _)

theorem lays_declsFor (i : Nat) (hp : p.Ready .any r 0 n) :
    Tracks .any n (declsFor i) p fun l ts _ =>
      Fills (Slot.list (fun d => [.part (.decl d)]) File.between l) ts := by
  induction i generalizing p with
  | zero => exact .pure (.list_nil _)
  | succ i ih =>
    refine (tracks_consumeIf hp (by simp)).bind fun b ts q₁ h₁ hb => ?_
    rcases hb with ⟨rfl, hk, rfl⟩ | ⟨rfl, rfl, rfl⟩
    · exact (ih (h₁.ready hp)).mono fun l ts q _ hl => hl.list_more (by simp [hk, File.between])
    · refine (tracks_peekIs _).bind ?_
      rintro b _ _ - ⟨-, rfl, rfl⟩
      cases b with
      | true => exact .pure (.list_nil _)
      | false =>
        refine (lays_decl hp).bind ?_
        rintro d _ q₁ h₁ ⟨ts, semicolon, rfl, hk, hd⟩
        refine (ih (h₁.ready hp)).bind fun l us q₂ _ hl => .pure ?_
        have hrest := hl.list_more (t := semicolon) (by simp [hk, File.between])
        simpa using Fills.list_cons (f := fun d => [.part (.decl d)]) hd hrest

theorem lays_file (hp : p.Ready .any r 0 n) :
    Tracks .any n file p fun f ts _ => Fills f.slots ts := by
  refine (tracks_require hp _ (by simp)).bind ?_
  rintro _ _ q₁ h₁ ⟨rfl, hopen, rfl⟩
  have hp₁ := h₁.ready hp
  refine (tracks_identifier hp₁ _).bind ?_
  rintro _ _ q₂ h₂ ⟨rfl, hname, rfl⟩
  have hp₂ := h₂.ready hp₁
  refine (tracks_require hp₂ _ (by simp)).bind ?_
  rintro _ _ q₃ h₃ ⟨rfl, hend, rfl⟩
  refine (tracks_note _).bind ?_
  rintro _ _ q₄ h₄ rfl
  have hp₄ := h₄.ready (h₃.ready hp₂)
  refine (lays_openedList File.between (fun q hq => lays_importGroup hq) (by simp [File.between])
    (by simp) hp₄).bind fun groups ts q₅ h₅ hgroups => ?_
  have hdecls : Tracks .any n (bounded declsFor) q₅ fun l ts _ =>
      Fills (Slot.list (fun d => [.part (.decl d)]) File.between l) ts :=
    lays_declsFor (q₅.ahead.length + 1) (h₅.ready hp₄)
  refine hdecls.bind fun decls us q₆ _ hdecls => .pure ?_
  have himports := hgroups.list_flatten.list_more (t := q₂.peek) (by simp [hend, File.between])
  obtain ⟨own, hall⟩ := (Fills.ident hname).append (himports.append hdecls)
  exact ⟨p.peek :: own, by simpa [File.slots] using Laid.mark hopen hall⟩

/-- Whatever rule is called on a parser, the tree that it gives is laid out in the tokens that it
reads. -/
theorem lays_parse (rule : Rule) (hp : p.Ready .any r 0 n) :
    Tracks .any n rule.parse p fun t ts _ => Fills t.slots ts := by
  have hended : ∀ {d : Decl} {ts : List Token}, Ended d ts →
      Fills [.part (.decl d), .any [.delimiter .semicolon]] ts := by
    rintro d _ ⟨us, semicolon, rfl, hk, hd⟩
    have hend : Fills [.any [.delimiter .semicolon]] [semicolon] :=
      ⟨_, .more (by simp [hk]) (.none .nil)⟩
    exact hd.append hend
  cases rule with
  | file => exact (lays_file hp).map fun _ _ _ _ h => h
  | decl => exact (lays_decl hp).map fun _ _ _ _ h => hended h
  | func => exact (lays_funcDecl hp).map fun _ _ _ _ h => hended h
  | signature namesRequired =>
    exact (lays_signature lays_type hp namesRequired).map fun _ _ _ _ h => h
  | params namesRequired => exact (lays_paramList lays_type hp namesRequired).map fun _ _ _ _ h => h
  | type => exact (lays_required lays_type hp).map fun _ _ _ _ h => h
  | maybeType =>
    refine (lays_type p hp).bind fun x ts q _ hx => .pure ?_
    rw [List.append_nil]
    cases x with
    | some t => exact hx
    | none =>
      obtain rfl : ts = [] := hx
      exact .nil
  | expr => exact (lays_expr hp).map fun _ _ _ _ h => h
  | block => exact (lays_block hp).map fun _ _ _ _ h => h
  | ident =>
    refine (tracks_identifier hp _).map ?_
    rintro _ _ q - ⟨rfl, hk, rfl⟩
    exact .ident hk

end Parse
end GoSyntax
