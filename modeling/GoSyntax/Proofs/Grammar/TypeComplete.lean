import GoSyntax.Proofs.Grammar.ExprComplete
import GoSyntax.Proofs.Grammar.ParamsComplete
import GoSyntax.Proofs.Grammar.TypeGives

/-! Every type of the grammar reads back from its print. -/
namespace GoSyntax
namespace Parse

open GoSyntax.Parser

variable {s : Nat} {t : TypeRef} {w v : Word} {ws vs : List Word} {start stop : Position}

section Elements

theorem reads_slice (h : TypeReads s t w ws) :
    TypeReads (s + 1) (.slice start t) (.delimiter .lbracket)
      (.delimiter .rbracket :: w :: ws) where
  toTypeGives := gives_slice h.toTypeGives
  spelled elides rest hrest :=
    .mark (d := .lbracket) rfl rfl (.mark (d := .rbracket) rfl rfl (h.spelled _ rest hrest))
  kind := rfl
  head := ⟨'[', _, rfl, by decide⟩

theorem reads_ellipsisArray (h : TypeReads s t w ws) :
    TypeReads (s + 1) (.ellipsisArray start t) (.delimiter .lbracket)
      (.operator .ellipsis :: .delimiter .rbracket :: w :: ws) where
  toTypeGives := gives_ellipsisArray h.toTypeGives
  spelled elides rest hrest := by
    rw [TypeRef.print_ellipsisArray, List.cons_append, List.append_assoc]
    exact .mark (d := .lbracket) rfl rfl (spells_ellipsis
      (.mark (d := .rbracket) rfl rfl (h.spelled _ rest hrest)))
  kind := rfl
  head := ⟨'[', _, rfl, by decide⟩

theorem reads_array {length : GoSyntax.Expr} (hl : Expr.GoalReads 1 s length v vs)
    (h : TypeReads s t w ws) :
    TypeReads (s + 1) (.array start length t) (.delimiter .lbracket)
      (v :: vs ++ .delimiter .rbracket :: w :: ws) where
  toTypeGives := gives_array hl.toGoalGives h.toTypeGives
  spelled elides rest hrest := by
    have hlength := (hl.spelled false (']' :: (t.print ++ rest)) (by simp; decide)).trans
      (.mark (d := .rbracket) rfl rfl (h.spelled _ rest hrest))
    rw [TypeRef.print_array, List.cons_append, List.append_assoc]
    exact .mark (d := .lbracket) rfl rfl hlength
  kind := rfl
  head := ⟨'[', _, rfl, by decide⟩

theorem reads_map {key : TypeRef} (hkey : TypeReads s key v vs) (h : TypeReads s t w ws) :
    TypeReads (s + 1) (.map start key t) (.keyword .mapKw)
      (.delimiter .lbracket :: (v :: vs ++ .delimiter .rbracket :: w :: ws)) where
  toTypeGives := gives_map hkey.toTypeGives h.toTypeGives
  spelled elides rest hrest := by
    have hinner := (hkey.spelled false (']' :: (t.print ++ rest)) (by simp; decide)).trans
      (.mark (d := .rbracket) rfl rfl (h.spelled _ rest hrest))
    rw [TypeRef.print_map, List.append_assoc, List.cons_append, List.append_assoc]
    exact .keyword (by simp; decide) (.mark (d := .lbracket) rfl rfl hinner)
  kind := rfl
  head := ⟨'m', _, rfl, by decide⟩

/-- Two stars stay apart, as there is no symbol of two. -/
theorem reads_pointer (h : TypeReads s t w ws) :
    TypeReads (s + 1) (.pointer start t) (.operator .mul) (w :: ws) where
  toTypeGives := gives_pointer h.toTypeGives
  spelled elides rest hrest := by
    obtain ⟨c, cs, hprint, hne⟩ := h.head
    show Spells elides (Operator.mul.spelling.toList ++ (t.print ++ rest)) _ true rest
    refine .operator ?_ (h.spelled false rest hrest)
    rw [hprint]
    rintro _ ⟨⟩
    refine symbolEnds_of_follows ?_ (by decide) fun hdot => absurd hdot (by decide)
    have hf : follows Operator.mul.spelling.toList = ['='] := by decide
    simpa [hf] using hne
  kind := rfl
  head := ⟨'*', _, rfl, by decide⟩

theorem reads_func {x : Signature} (h : SignatureReads s x ws) :
    TypeReads (s + 1) (.func start x) (.keyword .funcKw) (.delimiter .lparen :: ws) where
  toTypeGives := gives_func (h.gives false (by simp))
  spelled elides rest hrest := by
    rw [TypeRef.print_func, List.append_assoc]
    refine .keyword ?_ (h.spelled false rest hrest)
    obtain ⟨cs, hprint⟩ := x.print_opens
    rw [hprint]
    rintro _ ⟨⟩
    decide
  kind := rfl
  head := ⟨'f', _, rfl, by decide⟩

theorem reads_chan_send (h : TypeReads s t w ws) :
    TypeReads (s + 1) (.chan start .send t) (.keyword .chanKw) (.operator .chan :: w :: ws) where
  toTypeGives := gives_chan_send h.toTypeGives
  spelled elides rest hrest := by
    rw [TypeRef.print_chan_send, List.append_assoc, List.append_assoc]
    refine .keyword (by simp; decide) (.operator ?_ (h.spelled false rest hrest).blank)
    rintro _ ⟨⟩
    exact symbolEnds_blank _
  kind := rfl
  head := ⟨'c', _, rfl, by decide⟩

theorem reads_chan_recv (h : TypeReads s t w ws) :
    TypeReads (s + 1) (.chan start .recv t) (.operator .chan) (.keyword .chanKw :: w :: ws) where
  toTypeGives := gives_chan_recv h.toTypeGives
  spelled elides rest hrest := by
    rw [TypeRef.print_chan_recv, List.append_assoc, List.append_assoc]
    refine .operator ?_ (.keyword (by simp; decide) (h.spelled false rest hrest).blank)
    rintro _ ⟨⟩
    decide
  kind := rfl
  head := ⟨'<', _, rfl, by decide⟩

theorem reads_chan_both (hd : t.isRecvChan = false) (h : TypeReads s t w ws) :
    TypeReads (s + 1) (.chan start .both t) (.keyword .chanKw) (w :: ws) where
  toTypeGives := by
    refine gives_chan_both h.toTypeGives fun hk => ?_
    rw [TypeRef.isRecvChan_of_opening (h.kind.symm.trans hk)] at hd
    cases hd
  spelled elides rest hrest := by
    rw [TypeRef.print_chan_both, hd, List.append_assoc]
    exact .keyword (by simp; decide) (h.spelled false rest hrest).blank
  kind := rfl
  head := ⟨'c', _, rfl, by decide⟩

/-- The parentheses keep the arrow from the channel before it. -/
theorem reads_chanOfRecv (hd : t.isRecvChan = true) (h : TypeReads s t w ws) :
    TypeReads (s + 2) (.chan start .both t) (.keyword .chanKw)
      (.delimiter .lparen :: (w :: ws ++ [.delimiter .rparen])) where
  toTypeGives := gives_chan_both (gives_parenType h.toTypeGives) (by simp)
  spelled elides rest hrest := by
    have hinner := (h.spelled false (')' :: rest) (by simp; decide)).trans
      (.close (d := .rparen) rfl rfl rfl rest)
    rw [TypeRef.print_chan_both, hd, if_pos rfl, List.append_assoc, List.cons_append,
      List.cons_append, List.append_assoc]
    exact .keyword (by simp; decide) (.blank (.mark (d := .lparen) rfl rfl hinner))
  kind := rfl
  head := ⟨'c', _, rfl, by decide⟩

end Elements

section Members

variable {α : Type} {item : Nat → Parse α} {print : α → Text} {erase : α → α}

/-- A member of a type in braces is printed as the words and read back from them. -/
structure MemberReads (item : Nat → Parse α) (print : α → Text) (erase : α → α) (s : Nat) (a : α)
    (w : Word) (ws : List Word) : Prop extends MemberGives item erase s a w ws where
  spelled : Spelled (print a) (w :: ws)

abbrev FieldReads : Nat → FieldGroup → Word → List Word → Prop :=
  MemberReads (fun room => fieldGroup (typeRule room)) FieldGroup.print FieldGroup.erase

abbrev ElemReads : Nat → InterfaceElem → Word → List Word → Prop :=
  MemberReads (fun room => interfaceElem (typeRule room)) InterfaceElem.print InterfaceElem.erase

/-- The words of the members in braces. -/
def bracedWords (members : List (List Word)) : List Word :=
  .delimiter .lbrace :: (sepWords (.delimiter .semicolon) members ++ [.delimiter .rbrace])

theorem MemberReads.gives_all {pairs : List (α × List Word)}
    (h : ∀ i ∈ pairs, ∃ w ws, i.2 = w :: ws ∧ MemberReads item print erase s i.1 w ws) :
    ∀ i ∈ pairs, ∃ w ws, i.2 = w :: ws ∧ MemberGives item erase s i.1 w ws := by
  intro i hi
  obtain ⟨w, ws, hw, hreads⟩ := h i hi
  exact ⟨w, ws, hw, hreads.toMemberGives⟩

theorem spells_members {pairs : List (α × List Word)}
    (h : ∀ i ∈ pairs, ∃ w ws, i.2 = w :: ws ∧ MemberReads item print erase s i.1 w ws)
    (k : Keyword) (elides : Bool) (rest : Text) :
    Spells elides (k.spelling.toList ++ Text.braced ((pairs.map Prod.fst).map print) ++ rest)
      (.keyword k :: bracedWords (pairs.map Prod.snd)) true rest := by
  have hitems : ∀ i ∈ pairs.map fun i => (print i.1, i.2), Spelled i.1 i.2 := by
    intro i hi
    obtain ⟨j, hj, rfl⟩ := List.mem_map.1 hi
    obtain ⟨w, ws, hw, hreads⟩ := h j hj
    rw [hw]
    exact hreads.spelled
  have hbody := spells_braced hitems (Kind.keyword k).elidesSemicolon rest
  simp only [List.map_map, Function.comp_def] at hbody
  rw [List.append_assoc, List.map_map]
  exact .keyword (Text.head_braced _ rest) hbody

theorem printAll_fields (fs : List FieldGroup) :
    FieldGroup.printAll fs = fs.map FieldGroup.print := by
  induction fs with
  | nil => rfl
  | cons f fs ih => rw [FieldGroup.printAll, ih, List.map_cons]

theorem printAll_elems (es : List InterfaceElem) :
    InterfaceElem.printAll es = es.map InterfaceElem.print := by
  induction es with
  | nil => rfl
  | cons e es ih => rw [InterfaceElem.printAll, ih, List.map_cons]

theorem reads_struct {pairs : List (FieldGroup × List Word)}
    (h : ∀ i ∈ pairs, ∃ w ws, i.2 = w :: ws ∧ FieldReads s i.1 w ws) :
    TypeReads (s + 2) (.struct start (pairs.map Prod.fst) stop) (.keyword .structKw)
      (bracedWords (pairs.map Prod.snd)) where
  toTypeGives := gives_struct (MemberReads.gives_all h) (separated_sepWords _ _)
  spelled elides rest _ := by
    rw [TypeRef.print_struct, printAll_fields]
    exact spells_members h .structKw elides rest
  kind := rfl
  head := ⟨'s', _, TypeRef.print_struct .., by decide⟩

theorem reads_interface {pairs : List (InterfaceElem × List Word)}
    (h : ∀ i ∈ pairs, ∃ w ws, i.2 = w :: ws ∧ ElemReads s i.1 w ws) :
    TypeReads (s + 2) (.interface start (pairs.map Prod.fst) stop) (.keyword .interfaceKw)
      (bracedWords (pairs.map Prod.snd)) where
  toTypeGives := gives_interface (MemberReads.gives_all h) (separated_sepWords _ _)
  spelled elides rest _ := by
    rw [TypeRef.print_interface, printAll_elems]
    exact spells_members h .interfaceKw elides rest
  kind := rfl
  head := ⟨'i', _, TypeRef.print_interface .., by decide⟩

end Members

section Fields

variable {tag : Option StringLit} {ts : List Word}

/-- Behind the type of a field, the tag is printed as the words. -/
structure TagReads (tag : Option StringLit) (ts : List Word) : Prop where
  words : TagWords tag ts
  spelled : ∀ rest : Text, (∀ c ∈ rest.head?, isSoft c = true) →
    Spells true ((tag.map fun x => ' ' :: x.raw).getD [] ++ rest) ts true rest

theorem reads_tag (h : ∀ x, tag = some x → x.Lawful) : ∃ ts, TagReads tag ts := by
  cases tag with
  | none => exact ⟨[], .none, fun rest _ => .nil⟩
  | some x =>
    obtain ⟨form, hform, hstands⟩ := h x rfl
    refine ⟨[stringWord form x], .some hform, fun rest hrest => ?_⟩
    exact (spelled_literal hstands true rest hrest).blank

theorem FieldGroup.print_eq (names : List Ident) :
    (FieldGroup.mk names t tag).print =
      (if names.isEmpty then [] else Text.join ", " (names.map (·.name)) ++ [' ']) ++ t.print ++
        (tag.map fun x => ' ' :: x.raw).getD [] := by
  cases tag <;> rfl

/-- A blank comes before a tag. -/
theorem spells_tagged (h : TypeReads s t w ws) (ht : TagReads tag ts) (elides : Bool) (rest : Text)
    (hrest : ∀ c ∈ rest.head?, isSoft c = true) :
    Spells elides (t.print ++ ((tag.map fun x => ' ' :: x.raw).getD [] ++ rest)) (w :: ws ++ ts) true
      rest := by
  refine (h.spelled elides _ ?_).trans (ht.spelled rest hrest)
  cases tag with
  | none => exact hrest
  | some x =>
    rintro _ ⟨⟩
    decide

theorem reads_embeddedField (h : TypeReads s t w ws) (ht : TagReads tag ts) :
    FieldReads s ⟨[], t, tag⟩ w (ws ++ ts) where
  toMemberGives := gives_embeddedField h.toTypeGives ht.words
  spelled elides rest hrest := by
    simpa [FieldGroup.print_eq] using spells_tagged h ht elides rest hrest

theorem spells_names {name : Ident} {names : List Ident} (hn : ∀ i ∈ name :: names, i.Lawful)
    (elides : Bool) (rest : Text) (hrest : ∀ c ∈ rest.head?, isSoft c = true) :
    ∃ elides', Spells elides (Text.join ", " ((name :: names).map (·.name)) ++ rest)
      (.identifier name.name :: moreNames names) elides' rest := by
  have hitems : ∀ i ∈ (name :: names).map fun i => (i.name, [Word.identifier i.name]),
      Spelled i.1 i.2 := by
    intro i hi
    obtain ⟨j, hj, rfl⟩ := List.mem_map.1 hi
    exact (spelled_identifier (hn j hj)).mono fun c hc => by simp [hc]
  obtain ⟨elides', hjoin⟩ := spells_join (d := .comma) ", " rfl rfl rfl (by decide) hitems rest
    hrest elides
  refine ⟨elides', ?_⟩
  simpa [sepWords_eq_flatMap, moreNames, List.flatMap_map, Function.comp_def] using hjoin

theorem reads_namedField {name : Ident} {names : List Ident}
    (hn : ∀ i ∈ name :: names, i.Lawful) (h : TypeReads s t w ws) (ht : TagReads tag ts) :
    FieldReads s ⟨name :: names, t, tag⟩ (.identifier name.name)
      (moreNames names ++ (w :: ws ++ ts)) where
  toMemberGives := gives_namedField name names h.toTypeGives ht.words
  spelled elides rest hrest := by
    obtain ⟨elides', hnames⟩ := spells_names hn elides
      (' ' :: (t.print ++ ((tag.map fun x => ' ' :: x.raw).getD [] ++ rest))) (by simp; decide)
    have hall := hnames.trans (spells_tagged h ht elides' rest hrest).blank
    simpa [FieldGroup.print_eq] using hall

end Fields

section Methods

theorem reads_method {name : Ident} {x : Signature} (hn : name.Lawful) (h : SignatureReads s x ws) :
    ElemReads s (.method name x) (.identifier name.name) (.delimiter .lparen :: ws) where
  toMemberGives := gives_method name (h.gives false (by simp))
  spelled elides rest hrest := by
    rw [InterfaceElem.print, List.append_assoc]
    refine (spelled_identifier hn elides (x.print ++ rest) ?_).trans (h.spelled true rest hrest)
    obtain ⟨cs, hprint⟩ := x.print_opens
    rw [hprint]
    rintro _ ⟨⟩
    decide

theorem reads_embeddedElem {n : NamedType} (hn : n.Lawful) :
    ∃ w ws, ElemReads s (.embedded n) w ws := by
  obtain ⟨w, ws, hw, hreads⟩ := reads_named (s := s) hn
  exact ⟨w, ws, gives_embeddedElem hw, hreads.spelled⟩

end Methods

/-- What reading back comes to for each part. -/
def Reads (s : Nat) : Part → Prop
  | .type t => ∃ w ws, TypeReads s t w ws
  | .field f => ∃ w ws, FieldReads s f w ws
  | .elem e => ∃ w ws, ElemReads s e w ws
  | .signature x => ∃ ws, SignatureReads s x ws
  | .params l => ∃ ws, ListReads s l ws
  | .results l => ∃ w ws, ResultReads s l w ws

/-- The names of parameters can be written. -/
theorem names_lawful {ps : List Param} (h : Param.Row ps ∨ Param.Run ps) :
    ∀ x ∈ ps, (∀ i, x.name = some i → i.Lawful) ∧ (x.name = none → x.inferred = false) := by
  rcases h with h | h
  · induction h with
    | nil => simp
    | last variadic type => simp
    | cons type _ ih =>
      intro x hx
      rcases List.mem_cons.1 hx with rfl | hx
      · exact ⟨by simp, fun _ => rfl⟩
      · exact ih x hx
  · induction h with
    | last hn variadic type => simpa using hn
    | typed hn type _ ih =>
      intro x hx
      rcases List.mem_cons.1 hx with rfl | hx
      · simpa using hn
      · exact ih x hx
    | inferred hn _ ih =>
      intro x hx
      rcases List.mem_cons.1 hx with rfl | hx
      · simpa using hn
      · exact ih x hx

/-- Every part that fits is read back from its print. -/
theorem reads_of_fits {part : Part} (h : Part.Fits s part) : Reads s part := by
  induction h with
  | named hn =>
    obtain ⟨w, ws, -, hr⟩ := reads_named hn
    exact ⟨w, ws, hr⟩
  | array hl _ ih =>
    obtain ⟨v, vs, hlength⟩ := Expr.reads_of_fits hl
    obtain ⟨w, ws, hr⟩ := ih
    exact ⟨_, _, reads_array hlength hr⟩
  | slice _ ih =>
    obtain ⟨w, ws, hr⟩ := ih
    exact ⟨_, _, reads_slice hr⟩
  | ellipsisArray _ ih =>
    obtain ⟨w, ws, hr⟩ := ih
    exact ⟨_, _, reads_ellipsisArray hr⟩
  | @struct s start stop fields _ ih =>
    have hfields : ∀ f ∈ fields, ∃ ws, ∃ v vs, ws = v :: vs ∧ FieldReads s f v vs := by
      intro f hf
      obtain ⟨v, vs, hr⟩ := ih f hf
      exact ⟨v :: vs, v, vs, rfl, hr⟩
    obtain ⟨pairs, rfl, hall⟩ := exists_pairs hfields
    exact ⟨_, _, reads_struct hall⟩
  | pointer _ ih =>
    obtain ⟨w, ws, hr⟩ := ih
    exact ⟨_, _, reads_pointer hr⟩
  | func _ ih =>
    obtain ⟨ws, hr⟩ := ih
    exact ⟨_, _, reads_func hr⟩
  | @interface s start stop elems _ ih =>
    have helems : ∀ e ∈ elems, ∃ ws, ∃ v vs, ws = v :: vs ∧ ElemReads s e v vs := by
      intro e he
      obtain ⟨v, vs, hr⟩ := ih e he
      exact ⟨v :: vs, v, vs, rfl, hr⟩
    obtain ⟨pairs, rfl, hall⟩ := exists_pairs helems
    exact ⟨_, _, reads_interface hall⟩
  | map _ _ ihk ihv =>
    obtain ⟨v, vs, hkey⟩ := ihk
    obtain ⟨w, ws, hr⟩ := ihv
    exact ⟨_, _, reads_map hkey hr⟩
  | @chan s start dir elem hd _ ih =>
    obtain ⟨w, ws, hr⟩ := ih
    cases dir with
    | send => exact ⟨_, _, reads_chan_send hr⟩
    | recv => exact ⟨_, _, reads_chan_recv hr⟩
    | both => exact ⟨_, _, reads_chan_both (hd rfl) hr⟩
  | chanOfRecv hd _ ih =>
    obtain ⟨w, ws, hr⟩ := ih
    exact ⟨_, _, reads_chanOfRecv hd hr⟩
  | @field s names type tag hn ht _ ih =>
    obtain ⟨w, ws, hr⟩ := ih
    obtain ⟨ts, htag⟩ := reads_tag ht
    cases names with
    | nil => exact ⟨_, _, reads_embeddedField hr htag⟩
    | cons name names => exact ⟨_, _, reads_namedField hn hr htag⟩
  | method hn _ ih =>
    obtain ⟨ws, hr⟩ := ih
    exact ⟨_, _, reads_method hn hr⟩
  | embedded hn => exact reads_embeddedElem hn
  | @signature s args results _ _ iha ihr =>
    obtain ⟨ws, ha⟩ := iha
    cases results with
    | none => exact ⟨_, reads_signature ha⟩
    | some l =>
      obtain ⟨v, vs, hr⟩ := ihr l rfl
      exact ⟨_, reads_signature_results ha hr⟩
  | @params s start stop params hn hf ih =>
    have hparams : ∀ x ∈ params, ∃ ws, ∃ v vs, ws = v :: vs ∧ EntryReads s x v vs := by
      intro x hx
      obtain ⟨hname, hinferred⟩ := names_lawful hn x hx
      obtain ⟨w, ws, hr⟩ := ih x hx
      obtain ⟨v, vs, he⟩ := reads_entry hname hinferred (hf x hx) hr
      exact ⟨v :: vs, v, vs, rfl, he⟩
    obtain ⟨pairs, rfl, hall⟩ := exists_pairs hparams
    exact ⟨_, reads_paramList hn hall⟩
  | bareResult _ ih =>
    obtain ⟨w, ws, hr⟩ := ih
    exact ⟨_, _, reads_bareResult hr⟩
  | listResult hb _ ih =>
    obtain ⟨ws, hr⟩ := ih
    exact ⟨_, _, reads_listResult hb hr⟩

end Parse
end GoSyntax
