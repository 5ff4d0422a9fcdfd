import GoSyntax.Proofs.Grammar.ExprGives
import GoSyntax.Proofs.Grammar.ParamsGives

/-! Every form of a type is read from its words, if the parts of it are. -/
namespace GoSyntax
namespace Parse

open GoSyntax.Parser

variable {s : Nat} {t : TypeRef} {w v : Word} {ws vs : List Word} {start stop : Position}

section Elements

theorem typeBody_bracket {type? : Parse (Option TypeRef)} {p : Parser}
    (hk : p.peek.kind = .delimiter .lbracket) :
    typeBody type? p = (some <$> bracketType type?) p := by
  rw [typeBody, bind_ok (peek_ok p), hk]

theorem gives_slice (h : TypeGives s t w ws) :
    TypeGives (s + 1) (.slice start t) (.delimiter .lbracket)
      (.delimiter .rbracket :: w :: ws) where
  pos := Nat.le_add_left 1 s
  opens := rfl
  gives room p r rs hp hr := by
    refine gives_form hp rfl (fun _ _ hk => typeBody_bracket hk) fun room q hq => ?_
    refine (gives_advance hq.holds (by simp)).bind fun opening q₁ _ h₁ => ?_
    refine (gives_consumeIf_true h₁.holds (by simp) rfl).bind ?_
    rintro _ q₂ rfl h₂
    refine (h.required (hq.of_reaches (h₁.trans h₂)).poised hr).bind fun t' q₃ ht' h₃ => ?_
    exact .pure h₃.holds (by simp [TypeRef.erase, ht'])

theorem gives_ellipsisArray (h : TypeGives s t w ws) :
    TypeGives (s + 1) (.ellipsisArray start t) (.delimiter .lbracket)
      (.operator .ellipsis :: .delimiter .rbracket :: w :: ws) where
  pos := Nat.le_add_left 1 s
  opens := rfl
  gives room p r rs hp hr := by
    refine gives_form hp rfl (fun _ _ hk => typeBody_bracket hk) fun room q hq => ?_
    refine (gives_advance hq.holds (by simp)).bind fun opening q₁ _ h₁ => ?_
    refine (gives_consumeIf_false h₁.holds (by simp)).bind ?_
    rintro _ q₂ rfl h₂
    refine (gives_consumeIf_true h₂.holds (by simp) rfl).bind ?_
    rintro _ q₃ rfl h₃
    refine (gives_require _ h₃.holds (by simp) (by simp)).bind fun _ q₄ _ h₄ => ?_
    have hq₄ := ((h₁.trans h₂).trans h₃).trans h₄
    refine (h.required (hq.of_reaches hq₄).poised hr).bind fun t' q₅ ht' h₅ => ?_
    exact .pure h₅.holds (by simp [TypeRef.erase, ht'])

theorem gives_array {length : GoSyntax.Expr} (hl : Expr.GoalGives 1 s length v vs)
    (h : TypeGives s t w ws) :
    TypeGives (s + 1) (.array start length t) (.delimiter .lbracket)
      (v :: vs ++ .delimiter .rbracket :: w :: ws) where
  pos := Nat.le_add_left 1 s
  opens := rfl
  gives room p r rs hp hr := by
    have hne : ∀ kind, opensExpr kind = false → v.kind ≠ kind := by
      rintro _ hk rfl
      rw [hl.opens] at hk
      cases hk
    refine gives_form hp rfl (fun _ _ hk => typeBody_bracket hk) fun room q hq => ?_
    refine (gives_advance hq.holds (by simp)).bind fun opening q₁ _ h₁ => ?_
    refine (gives_consumeIf_false h₁.holds (hne _ rfl)).bind ?_
    rintro _ q₂ rfl h₂
    refine (gives_consumeIf_false h₂.holds (hne _ rfl)).bind ?_
    rintro _ q₃ rfl h₃
    have hq₃ := (h₁.trans h₂).trans h₃
    have hready : Ready s q₃.room q₃ (v :: vs ++ .delimiter .rbracket :: (w :: ws ++ r :: rs)) :=
      ⟨Nat.le_refl _, (hq.of_reaches hq₃).deep, by simpa using hq₃.holds⟩
    refine Gives.bind (.congr rfl (hl.gives q₃.room q₃ _ _ hready ?_ ?_)) fun e q₄ he h₄ => ?_
    · exact ⟨by simp, by simp⟩
    · simp [Word.delimiter]
    refine (gives_require _ h₄.holds (by simp) (by simp)).bind fun _ q₅ _ h₅ => ?_
    have hq₅ := (hq₃.trans h₄).trans h₅
    refine (h.required (hq.of_reaches hq₅).poised hr).bind fun t' q₆ ht' h₆ => ?_
    exact .pure h₆.holds (by simp [TypeRef.erase, ht', he])

theorem gives_map {key : TypeRef} (hkey : TypeGives s key v vs) (h : TypeGives s t w ws) :
    TypeGives (s + 1) (.map start key t) (.keyword .mapKw)
      (.delimiter .lbracket :: (v :: vs ++ .delimiter .rbracket :: w :: ws)) where
  pos := Nat.le_add_left 1 s
  opens := rfl
  gives room p r rs hp hr := by
    refine gives_form (m := fun room => mapType (typeRule room)) hp rfl ?_ fun room q hq => ?_
    · exact fun room p hk => by rw [typeBody, bind_ok (peek_ok p), hk]; rfl
    · refine (gives_advance hq.holds (by simp)).bind fun opening q₁ _ h₁ => ?_
      refine (gives_require _ h₁.holds (by simp) (by simp)).bind fun _ q₂ _ h₂ => ?_
      have hready : Ready s room q₂ (v :: vs ++ .delimiter .rbracket :: (w :: ws ++ r :: rs)) := by
        simpa using hq.of_reaches (h₁.trans h₂)
      refine (hkey.required hready.poised ⟨by simp, rfl⟩).bind fun k q₃ hk h₃ => ?_
      refine (gives_require _ h₃.holds (by simp) (by simp)).bind fun _ q₄ _ h₄ => ?_
      refine (h.required (hready.of_reaches (h₃.trans h₄)).poised hr).bind fun t' q₅ ht' h₅ => ?_
      exact .pure h₅.holds (by simp [TypeRef.erase, ht', hk])

theorem gives_pointer (h : TypeGives s t w ws) :
    TypeGives (s + 1) (.pointer start t) (.operator .mul) (w :: ws) where
  pos := Nat.le_add_left 1 s
  opens := rfl
  gives room p r rs hp hr := by
    refine gives_form (m := fun room => do
      let opening ← advance
      .pointer opening.pos <$> required (typeRule room)) hp rfl ?_ fun room q hq => ?_
    · intro room p hk
      rw [typeBody, bind_ok (peek_ok p), hk, map_bind]
      simp only [← comp_map]
      rfl
    · refine (gives_advance hq.holds (by simp)).bind fun opening q₁ _ h₁ => ?_
      exact (h.required (hq.of_reaches h₁).poised hr).map fun t' ht' => by simp [TypeRef.erase, ht']

theorem gives_func {x : Signature} (h : SignatureGives s false x ws) :
    TypeGives (s + 1) (.func start x) (.keyword .funcKw) (.delimiter .lparen :: ws) where
  pos := Nat.le_add_left 1 s
  opens := rfl
  gives room p r rs hp hr := by
    refine gives_form (m := fun room => do
      let opening ← advance
      .func opening.pos <$> signature (typeRule room) false) hp rfl ?_ fun room q hq => ?_
    · intro room p hk
      rw [typeBody, bind_ok (peek_ok p), hk, map_bind]
      simp only [← comp_map]
      rfl
    · refine (gives_advance hq.holds (by simp)).bind fun opening q₁ _ h₁ => ?_
      exact (h.gives _ q₁ r rs (hq.of_reaches h₁).poised hr).map fun x' hx' => by
        simp [TypeRef.erase, hx']

/-- The first tokens of a channel type tell its direction, and its element follows. -/
theorem gives_chan {room : Nat} {p : Parser} {dir : ChanDir} {opener r : Word} {us rs : List Word}
    (h : TypeGives s t w ws) (hp : Ready (s + 1) room p (opener :: us)) (hne : us ≠ [])
    (hk : opener.kind = .keyword .chanKw ∨ opener.kind = .operator .chan)
    (hdir : ∀ (opening : Token) q, opening.word = opener → q.Holds us →
      Gives (chanDir opening) q (fun d => d = dir) (w :: ws ++ r :: rs)) (hr : endsType r.kind) :
    Gives (typeRule room) p (fun o => o.map TypeRef.erase = some (TypeRef.chan start dir t).erase)
      (r :: rs) := by
  refine gives_form (m := fun room => chanType (typeRule room)) hp rfl ?_ fun room q hq => ?_
  · intro room p hkind
    rw [typeBody, bind_ok (peek_ok p), hkind]
    rcases hk with hk | hk <;> rw [hk]
  · refine (gives_advance hq.holds hne).bind fun opening q₁ hopen h₁ => ?_
    refine (hdir opening q₁ hopen h₁.holds).bind ?_
    rintro _ q₂ rfl h₂
    refine (h.required (hq.of_reaches (h₁.trans h₂)).poised hr).bind fun t' q₃ ht' h₃ => ?_
    exact .pure h₃.holds (by simp [TypeRef.erase, ht'])

theorem gives_chan_send (h : TypeGives s t w ws) :
    TypeGives (s + 1) (.chan start .send t) (.keyword .chanKw) (.operator .chan :: w :: ws) where
  pos := Nat.le_add_left 1 s
  opens := rfl
  gives room p r rs hp hr := by
    refine gives_chan h hp (by simp) (.inl rfl) (fun opening q hopen hq => ?_) hr
    have hk : opening.kind = .keyword .chanKw := by rw [← kind_word, hopen]; rfl
    rw [chanDir, if_neg (by simp [hk])]
    refine (gives_consumeIf_true hq (by simp) rfl).bind ?_
    rintro _ q₁ rfl h₁
    exact .pure h₁.holds rfl

theorem gives_chan_recv (h : TypeGives s t w ws) :
    TypeGives (s + 1) (.chan start .recv t) (.operator .chan) (.keyword .chanKw :: w :: ws) where
  pos := Nat.le_add_left 1 s
  opens := rfl
  gives room p r rs hp hr := by
    refine gives_chan h hp (by simp) (.inr rfl) (fun opening q hopen hq => ?_) hr
    have hk : opening.kind = .operator .chan := by rw [← kind_word, hopen]; rfl
    rw [chanDir, if_pos hk]
    exact (gives_require _ hq (by simp) (by simp)).bind fun _ q₁ _ h₁ => .pure h₁.holds rfl

theorem gives_chan_both (h : TypeGives s t w ws) (hw : w.kind ≠ .operator .chan) :
    TypeGives (s + 1) (.chan start .both t) (.keyword .chanKw) (w :: ws) where
  pos := Nat.le_add_left 1 s
  opens := rfl
  gives room p r rs hp hr := by
    refine gives_chan h hp (by simp) (.inl rfl) (fun opening q hopen hq => ?_) hr
    have hk : opening.kind = .keyword .chanKw := by rw [← kind_word, hopen]; rfl
    rw [chanDir, if_neg (by simp [hk])]
    refine (gives_consumeIf_false hq hw).bind ?_
    rintro _ q₁ rfl h₁
    exact .pure h₁.holds rfl

theorem gives_parenType (h : TypeGives s t w ws) :
    TypeGives (s + 1) t (.delimiter .lparen) (w :: ws ++ [.delimiter .rparen]) where
  pos := Nat.le_add_left 1 s
  opens := rfl
  gives room p r rs hp hr := by
    refine gives_form (m := fun room => parenType (typeRule room)) hp rfl ?_ fun room q hq => ?_
    · exact fun room p hk => by rw [typeBody, bind_ok (peek_ok p), hk]; rfl
    · refine (gives_advance hq.holds (by simp)).bind fun _ q₁ _ h₁ => ?_
      have hready : Ready s room q₁ (w :: ws ++ .delimiter .rparen :: r :: rs) := by
        simpa using hq.of_reaches h₁
      refine (h.required hready.poised ⟨by simp, rfl⟩).bind fun t' q₂ ht' h₂ => ?_
      exact (gives_require _ h₂.holds (by simp) (by simp)).bind fun _ q₃ _ h₃ =>
        .pure h₃.holds ht'

end Elements

section Members

variable {α : Type} {item : Nat → Parse α} {erase : α → α}

/-- A member of a type in braces is read from the words. -/
structure MemberGives (item : Nat → Parse α) (erase : α → α) (s : Nat) (a : α) (w : Word)
    (ws : List Word) : Prop where
  opens : w.kind ≠ .delimiter .rbrace
  gives : ∀ room p r rs, Ready s room p (w :: ws ++ r :: rs) →
    r.kind ∈ [Kind.delimiter .semicolon, .delimiter .rbrace] →
      Gives (item room) p (fun a' => erase a' = erase a) (r :: rs)

theorem MemberGives.mono {s' : Nat} {a : α} (h : MemberGives item erase s a w ws) (hle : s ≤ s') :
    MemberGives item erase s' a w ws :=
  ⟨h.opens, fun room p r rs hp => h.gives room p r rs ⟨hp.fuel, Nat.le_trans hle hp.deep, hp.holds⟩⟩

abbrev FieldGives : Nat → FieldGroup → Word → List Word → Prop :=
  MemberGives (fun room => fieldGroup (typeRule room)) FieldGroup.erase

abbrev ElemGives : Nat → InterfaceElem → Word → List Word → Prop :=
  MemberGives (fun room => interfaceElem (typeRule room)) InterfaceElem.erase

/-- The braces open a level of their own. -/
theorem gives_members {pairs : List (α × List Word)} {us : List Word} {room : Nat} {q : Parser}
    {r : Word} {rs : List Word}
    (h : ∀ i ∈ pairs, ∃ w ws, i.2 = w :: ws ∧ MemberGives item erase s i.1 w ws)
    (hs : Separated (.delimiter .semicolon) (pairs.map Prod.snd) us)
    (hq : Ready (s + 1) room q (.delimiter .lbrace :: (us ++ .delimiter .rbrace :: r :: rs)))
    (wanted wanted' wanted'' : Expected) (f : List α → Position → TypeRef) :
    Gives (nested do
      let _ ← require wanted [.delimiter .lbrace]
      let l ← termList (.delimiter .rbrace) wanted' (item room)
      let closing ← require wanted'' [.delimiter .rbrace]
      return f l closing.stop) q
      (fun t => ∃ l stop, t = f l stop ∧ l.map erase = (pairs.map Prod.fst).map erase)
      (r :: rs) := by
  refine .nested (Nat.le_trans (Nat.le_add_left 1 s) hq.deep) ?_
  have hin := hq.inside
  refine (gives_require _ hin.holds (by simp) (by simp)).bind fun _ q₁ _ h₁ => ?_
  have hmeets : ∀ i ∈ pairs.map fun i => (i.2, erase i.1), Meets (item room) erase q₁
      (.delimiter .rbrace) [.delimiter .semicolon, .delimiter .rbrace] i := by
    intro i hi
    obtain ⟨j, hj, rfl⟩ := List.mem_map.1 hi
    obtain ⟨v, vs, hv, hgives⟩ := h j hj
    exact ⟨v, vs, hv, hgives.opens, fun q' r' rs' hq' hr' =>
      hgives.gives room q' r' rs' (hin.of_reaches (h₁.trans hq')) hr'⟩
  have hlist : Gives (termList (.delimiter .rbrace) wanted' (item room)) q₁ _ _ :=
    Gives.termList (by simpa [Function.comp_def] using hs) h₁.holds rfl (.inr rfl) hmeets
  refine hlist.bind fun l q₂ hl h₂ => ?_
  refine (gives_require _ h₂.holds (by simp) (by simp)).bind
    fun closing q₃ _ h₃ => ?_
  exact .pure h₃.holds ⟨l, closing.stop, rfl, by simpa [Function.comp_def] using hl⟩

theorem gives_struct {pairs : List (FieldGroup × List Word)} {us : List Word}
    (h : ∀ i ∈ pairs, ∃ w ws, i.2 = w :: ws ∧ FieldGives s i.1 w ws)
    (hs : Separated (.delimiter .semicolon) (pairs.map Prod.snd) us) :
    TypeGives (s + 2) (.struct start (pairs.map Prod.fst) stop) (.keyword .structKw)
      (.delimiter .lbrace :: (us ++ [.delimiter .rbrace])) where
  pos := Nat.le_add_left 1 (s + 1)
  opens := rfl
  gives room p r rs hp hr := by
    refine gives_form (m := fun room => do
      let opening ← advance
      nested (structBody (typeRule room) opening.pos)) hp rfl ?_ fun room q hq => ?_
    · exact fun room p hk => by rw [typeBody, bind_ok (peek_ok p), hk, map_bind]; rfl
    · refine (gives_advance hq.holds (by simp)).bind fun opening q₁ _ h₁ => ?_
      have hq₁ := hq.of_reaches h₁
      refine (gives_members h hs (by simpa using hq₁) .structBrace .fieldEnd .structEnd
        (.struct opening.pos)).mono ?_
      rintro _ ⟨l, stop', rfl, hl⟩
      simp only [TypeRef.erase, FieldGroup.eraseAll_eq_map, hl]

theorem gives_interface {pairs : List (InterfaceElem × List Word)} {us : List Word}
    (h : ∀ i ∈ pairs, ∃ w ws, i.2 = w :: ws ∧ ElemGives s i.1 w ws)
    (hs : Separated (.delimiter .semicolon) (pairs.map Prod.snd) us) :
    TypeGives (s + 2) (.interface start (pairs.map Prod.fst) stop) (.keyword .interfaceKw)
      (.delimiter .lbrace :: (us ++ [.delimiter .rbrace])) where
  pos := Nat.le_add_left 1 (s + 1)
  opens := rfl
  gives room p r rs hp hr := by
    refine gives_form (m := fun room => do
      let opening ← advance
      nested (interfaceBody (typeRule room) opening.pos)) hp rfl ?_ fun room q hq => ?_
    · exact fun room p hk => by rw [typeBody, bind_ok (peek_ok p), hk, map_bind]; rfl
    · refine (gives_advance hq.holds (by simp)).bind fun opening q₁ _ h₁ => ?_
      have hq₁ := hq.of_reaches h₁
      refine (gives_members h hs (by simpa using hq₁) .interfaceBrace .elementEnd .interfaceEnd
        (.interface opening.pos)).mono ?_
      rintro _ ⟨l, stop', rfl, hl⟩
      simp only [TypeRef.erase, InterfaceElem.eraseAll_eq_map, hl]

end Members

section Fields

variable {tag : Option StringLit} {ts : List Word}

theorem gives_stringLit {form : LiteralForm} {x : StringLit} {opening : Token} {p : Parser}
    (hp : p.Holds ws) (h : opening.word = stringWord form x) :
    Gives (stringLit opening) p (fun x' => x'.erase = x.erase) ws := by
  obtain ⟨-, htext, hvalue⟩ := word_eq h (by simp [stringWord])
  simp only [stringLit, hvalue, stringWord]
  exact .pure hp (by simp [StringLit.erase, htext, stringWord])

theorem endsType_of_endsField {kind : Kind} (h : endsField kind = true) : endsType kind := by
  simp only [endsField, Bool.or_eq_true, beq_iff_eq] at h
  rcases h with (rfl | rfl) | h
  · exact ⟨by simp, rfl⟩
  · exact ⟨by simp, rfl⟩
  · cases kind with
    | literal form => exact ⟨by simp, rfl⟩
    | _ => cases h

theorem endsField_of_mem {kind : Kind}
    (h : kind ∈ [Kind.delimiter .semicolon, .delimiter .rbrace]) :
    endsField kind = true ∧ kind.isString = false := by
  simp only [List.mem_cons, List.not_mem_nil, or_false] at h
  rcases h with rfl | rfl <;> exact ⟨rfl, rfl⟩

/-- The type of a field ends where its tag or what follows the field begins. -/
theorem TagWords.ends {r : Word} (h : TagWords tag ts) (hr : endsField r.kind = true)
    (rs : List Word) : ∃ v vs, ts ++ r :: rs = v :: vs ∧ endsField v.kind = true := by
  cases h with
  | none => exact ⟨r, rs, rfl, hr⟩
  | some hform => exact ⟨_, _, rfl, by simp [endsField, stringWord, hform]⟩

theorem gives_tag {p : Parser} {r : Word} {rs : List Word} (h : TagWords tag ts)
    (hp : p.Holds (ts ++ r :: rs)) (hr : r.kind.isString = false) :
    Gives tag? p (fun o => o.map StringLit.erase = tag.map StringLit.erase) (r :: rs) := by
  cases h with
  | none =>
    refine (gives_peek hp).bind fun t' q ht' hq => ?_
    have hk : t'.kind.isString = false := by rw [← kind_word, ht', hr]
    rw [hk]
    exact .pure hq.holds rfl
  | @some form x hform =>
    refine (gives_peek hp).bind fun t' q₁ ht' h₁ => ?_
    have hk : t'.kind.isString = true := by
      rw [← kind_word, ht']
      exact hform
    rw [if_pos hk]
    refine Gives.map (P := fun x' => x'.erase = x.erase) ?_ fun x' hx' => congrArg some hx'
    exact (gives_advance h₁.holds (by simp)).bind fun opening q₂ hopen h₂ =>
      gives_stringLit h₂.holds hopen

theorem gives_embeddedField (h : TypeGives s t w ws) (ht : TagWords tag ts) :
    FieldGives s ⟨[], t, tag⟩ w (ws ++ ts) where
  opens := h.kind_ne rfl
  gives room p r rs hp hr := by
    obtain ⟨hends, hstring⟩ := endsField_of_mem hr
    obtain ⟨v, vs, hv, hvends⟩ := TagWords.ends ht hends rs
    rw [← List.cons_append, List.append_assoc, hv] at hp
    rw [fieldGroup_eq]
    refine (h.typeOrName hp.poised (endsType_of_endsField hvends)).bind ?_
    rintro ⟨t', ident?⟩ q₁ ⟨ht', -⟩ h₁
    refine (gives_peek h₁.holds).bind fun t'' q₂ ht'' h₂ => ?_
    have hk : endsField t''.kind = true := by rw [← kind_word, ht'', hvends]
    have htag : Gives (do return ⟨[], t', ← tag?⟩) q₂
        (fun f' : FieldGroup => f'.erase = (FieldGroup.mk [] t tag).erase) (r :: rs) := by
      refine (gives_tag ht (by rw [hv]; exact h₂.holds) hstring).bind fun o q₃ ho h₃ => ?_
      exact .pure h₃.holds (by simp [FieldGroup.erase, ht', ho])
    rw [hk]
    cases ident? <;> exact htag

theorem gives_names (names : List Ident) {q : Parser} (hq : q.Holds (moreNames names ++ w :: ws))
    (hw : w.kind ≠ .delimiter .comma) :
    Gives (openedList (.delimiter .comma) (identifier .fieldName)) q
      (fun l => l.map Ident.erase = names.map Ident.erase) (w :: ws) := by
  have hmeets : ∀ i ∈ names.map fun i => ([Word.identifier i.name], i.erase),
      Meets (identifier .fieldName) Ident.erase q .endOfFile
        [(Word.delimiter .comma).kind, w.kind] i := by
    intro i hi
    obtain ⟨j, -, rfl⟩ := List.mem_map.1 hi
    refine ⟨_, [], rfl, by simp, fun q' r rs hq' _ => ?_⟩
    exact (gives_identifier _ hq'.holds (by simp)).mono fun i hi => by simp [Ident.erase, hi]
  have hlist := Gives.openedList (by simpa [moreNames, List.flatMap_map] using hq) hw hmeets
  exact hlist.mono fun l hl => by simpa [Function.comp_def] using hl

theorem gives_namedField (name : Ident) (names : List Ident) (h : TypeGives s t w ws)
    (ht : TagWords tag ts) :
    FieldGives s ⟨name :: names, t, tag⟩ (.identifier name.name)
      (moreNames names ++ (w :: ws ++ ts)) where
  opens := by simp
  gives room p r rs hp hr := by
    obtain ⟨hends, hstring⟩ := endsField_of_mem hr
    obtain ⟨u, us, hu, huends⟩ := TagWords.ends ht hends rs
    -- The word behind the first name is a comma or opens the type.
    obtain ⟨v, vs, hv, hdot, hvends⟩ : ∃ v vs, moreNames names ++ (w :: ws ++ u :: us) = v :: vs ∧
        v.kind ≠ .delimiter .dot ∧ endsField v.kind = false := by
      cases names with
      | nil =>
        refine ⟨w, ws ++ u :: us, rfl, h.kind_ne rfl, ?_⟩
        cases hk : endsField w.kind with
        | false => rfl
        | true => exact absurd rfl (h.kind_ne (endsType_of_endsField hk).2)
      | cons i names => exact ⟨_, _, rfl, by simp, rfl⟩
    have hwords : .identifier name.name :: (moreNames names ++ (w :: ws ++ ts)) ++ r :: rs =
        .identifier name.name :: v :: vs := by
      rw [← hv, ← hu]
      simp
    rw [hwords] at hp
    rw [fieldGroup_eq]
    refine (gives_loneIdent h.pos hp.poised hdot).bind ?_
    rintro ⟨t', ident?⟩ q₁ hi h₁
    obtain ⟨i, rfl, hname⟩ := Option.map_eq_some_iff.1 hi
    refine (gives_peek h₁.holds).bind fun t'' q₂ ht'' h₂ => ?_
    rw [show endsField t''.kind = false by rw [← kind_word, ht'', hvends]]
    have hq₂ := h₁.trans h₂
    have hholds : q₂.Holds (moreNames names ++ w :: (ws ++ u :: us)) := by
      rw [← List.cons_append, hv]
      exact hq₂.holds
    refine (gives_names names hholds (h.kind_ne rfl)).bind fun l q₃ hl h₃ => ?_
    have hready := hp.of_reaches (hq₂.trans h₃)
    refine (h.required hready.poised (endsType_of_endsField huends)).bind fun t₁ q₄ ht₁ h₄ => ?_
    refine (gives_tag ht (by rw [hu]; exact h₄.holds) hstring).bind fun o q₅ ho h₅ => ?_
    exact .pure h₅.holds (by simp [FieldGroup.erase, hname, hl, ht₁, ho])

end Fields

section Methods

theorem gives_method {x : Signature} (name : Ident) (h : SignatureGives s false x ws) :
    ElemGives s (.method name x) (.identifier name.name) (.delimiter .lparen :: ws) where
  opens := by simp
  gives room p r rs hp hr := by
    refine (gives_identifier _ hp.holds (by simp)).bind fun i q₁ hi h₁ => ?_
    refine (gives_consumeIf_false h₁.holds (by simp)).bind ?_
    rintro _ q₂ rfl h₂
    refine (gives_peekIs h₂.holds (.delimiter .lparen)).bind ?_
    rintro _ q₃ rfl h₃
    rw [if_pos (by simp)]
    have hready := hp.of_reaches ((h₁.trans h₂).trans h₃)
    have hends := endsType_of_endsField (endsField_of_mem hr).1
    refine (h.gives _ q₃ r rs hready.poised hends).bind fun x' q₄ hx' h₄ => ?_
    exact .pure h₄.holds (by simp [InterfaceElem.erase, Ident.erase, hi, hx'])

theorem gives_embeddedElem {n : NamedType} (hw : nameWords n = w :: ws) :
    ElemGives s (.embedded n) w ws where
  opens := (gives_name (s := s) hw).kind_ne rfl
  gives room p r rs hp hr := by
    have hends := endsType_of_endsField (endsField_of_mem hr).1
    rw [← hw] at hp
    obtain ⟨package, name⟩ := n
    cases package with
    | none =>
      refine (gives_identifier _ hp.holds (by simp)).bind fun i q₁ hi h₁ => ?_
      refine (gives_consumeIf_false h₁.holds hends.1).bind ?_
      rintro _ q₂ rfl h₂
      refine (gives_peekIs h₂.holds (.delimiter .lparen)).bind ?_
      rintro _ q₃ rfl h₃
      have hparen : r.kind ≠ .delimiter .lparen := by
        intro hk
        rw [hk] at hends
        cases hends.2
      rw [if_neg (by simpa using hparen)]
      exact .pure h₃.holds (by simp [InterfaceElem.erase, NamedType.erase, Ident.erase, hi])
    | some package =>
      refine (gives_identifier _ hp.holds (by simp)).bind fun i q₁ hi h₁ => ?_
      refine (gives_consumeIf_true h₁.holds (by simp) rfl).bind ?_
      rintro _ q₂ rfl h₂
      refine (gives_identifier _ h₂.holds (by simp)).bind fun j q₃ hj h₃ => .pure h₃.holds ?_
      simp [InterfaceElem.erase, NamedType.erase, Ident.erase, hi, hj]

end Methods

end Parse
end GoSyntax
