import GoSyntax.Proofs.Grammar.ParamsGives

/-! Every list of parameters reads back from its print, and every signature does, if the types in
them do. -/
namespace GoSyntax

/-- The kind of the token that a type opens with. -/
def TypeRef.opening : TypeRef → Kind
  | .named _ => .identifier
  | .array .. | .slice .. | .ellipsisArray .. => .delimiter .lbracket
  | .struct .. => .keyword .structKw
  | .pointer .. => .operator .mul
  | .func .. => .keyword .funcKw
  | .interface .. => .keyword .interfaceKw
  | .map .. => .keyword .mapKw
  | .chan _ .recv _ => .operator .chan
  | .chan .. => .keyword .chanKw

namespace TypeRef

theorem opening_ne_lparen (t : TypeRef) : t.opening ≠ .delimiter .lparen := by
  cases t with
  | chan start dir elem => cases dir <;> simp [opening]
  | _ => simp [opening]

theorem isRecvChan_of_opening {t : TypeRef} (h : t.opening = .operator .chan) :
    t.isRecvChan = true := by
  cases t with
  | chan start dir elem =>
    cases dir with
    | recv => rfl
    | _ => cases h
  | _ => cases h

end TypeRef

theorem Signature.print_opens (x : Signature) : ∃ cs, x.print = '(' :: cs := by
  obtain ⟨⟨_, params, _⟩, results⟩ := x
  cases results <;> exact ⟨_, rfl⟩

namespace Parse

open GoSyntax.Parser

/-- The type is printed as the words and read back from them. -/
structure TypeReads (s : Nat) (t : TypeRef) (w : Word) (ws : List Word) : Prop
    extends TypeGives s t w ws where
  spelled : Spelled t.print (w :: ws)
  kind : w.kind = t.opening
  head : ∃ c cs, t.print = c :: cs ∧ c ≠ '='

variable {s : Nat} {t : TypeRef} {w : Word} {ws : List Word}

theorem TypeReads.kind_ne_lparen (h : TypeReads s t w ws) : w.kind ≠ .delimiter .lparen := by
  rw [h.kind]
  exact t.opening_ne_lparen

section Named

theorem spelled_name {n : NamedType} (h : n.Lawful) :
    SpelledBefore (fun c => isSoft c || c == '.') n.print (nameWords n) := by
  obtain ⟨package, name⟩ := n
  cases package with
  | none => exact spelled_identifier h.name
  | some package =>
    intro elides rest hrest
    obtain ⟨c, cs, hname, hstart⟩ := head_identifier h.name
    have hdot : Spells true ('.' :: (name.name ++ rest))
        [.delimiter .dot, .identifier name.name] true rest := by
      refine .dot ?_ (spelled_identifier h.name false rest hrest)
      rw [show name.name = c :: cs from hname]
      rintro _ ⟨⟩
      exact hstart
    have hall := (spelled_identifier (h.package package rfl) elides ('.' :: (name.name ++ rest))
      (by simp)).trans hdot
    simpa [NamedType.print, nameWords] using hall

theorem head_name {n : NamedType} (h : n.Lawful) : ∃ c cs, n.print = c :: cs ∧ c ≠ '=' := by
  obtain ⟨package, name⟩ := n
  have hne : ∀ {c : Char}, Identifier.isStart c = true → c ≠ '=' := by
    rintro c hc rfl
    revert hc
    decide
  cases package with
  | none =>
    obtain ⟨c, cs, hname, hstart⟩ := head_identifier h.name
    exact ⟨c, cs, hname, hne hstart⟩
  | some package =>
    obtain ⟨c, cs, hname, hstart⟩ := head_identifier (h.package package rfl)
    refine ⟨c, cs ++ '.' :: name.name, ?_, hne hstart⟩
    simp only [NamedType.print]
    rw [show package.name = c :: cs from hname]
    rfl

theorem reads_named {n : NamedType} (h : n.Lawful) :
    ∃ w ws, nameWords n = w :: ws ∧ TypeReads (s + 1) (.named n) w ws := by
  obtain ⟨w, ws, hw, hk⟩ := nameWords_eq n
  have hspelled := (spelled_name h).mono fun c (hc : isSoft c = true) => by simp [hc]
  rw [hw] at hspelled
  exact ⟨w, ws, hw, gives_name hw, hspelled, hk, head_name h⟩

end Named

section Entries

/-- The entry that a parameter is printed as. -/
def Entry.ofParam : Param → Entry
  | ⟨some name, true, _, _⟩ => lone name
  | ⟨some name, false, v, type⟩ => named name v type
  | ⟨none, _, true, type⟩ => variadic type
  | ⟨none, _, false, type⟩ => (type.bareIdent?.map lone).getD (plain type)

/-- The parameter is printed as the words, and they are read as its entry. -/
structure EntryReads (s : Nat) (x : Param) (w : Word) (ws : List Word) : Prop
    extends EntryGives s (Entry.ofParam x) w ws where
  spelled : Spelled x.print (w :: ws)

theorem reads_bareEntry {x : Param} {name : Ident} (hn : name.Lawful) (hs : 1 ≤ s)
    (hprint : x.print = name.name) (hentry : Entry.ofParam x = .lone name) :
    EntryReads s x (.identifier name.name) [] where
  toEntryGives := by
    rw [hentry]
    exact gives_bareEntry name hs
  spelled := by
    rw [hprint]
    exact (spelled_identifier hn).mono fun c hc => by simp [hc]

theorem spells_ellipsis {elides elides' : Bool} {s s' : Text} (h : Spells false s ws elides' s') :
    Spells elides (Operator.ellipsis.spelling.toList ++ s) (.operator .ellipsis :: ws) elides' s' := by
  refine .operator (fun c _ => symbolEnds_of_follows ?_ (by decide) fun hdot => ?_) h
  · have hf : follows Operator.ellipsis.spelling.toList = [] := by decide
    simp [hf]
  · exact absurd hdot (by decide)

theorem reads_variadicEntry (h : TypeReads s t w ws) :
    EntryReads s ⟨none, false, true, t⟩ (.operator .ellipsis) (w :: ws) where
  toEntryGives := gives_variadicEntry h.toTypeGives
  spelled elides rest hrest := by
    rw [Param.print_variadic, List.append_assoc]
    exact spells_ellipsis (h.spelled false rest hrest)

theorem reads_plainEntry (h : TypeReads s t w ws) (ht : t.bareIdent? = none) :
    EntryReads s ⟨none, false, false, t⟩ w ws where
  toEntryGives := by
    rw [Entry.ofParam, ht]
    exact gives_plainEntry h.toTypeGives fun _ => ht
  spelled elides rest hrest := by
    simpa [Param.print] using h.spelled elides rest hrest

theorem reads_namedEntry {name : Ident} (hn : name.Lawful) (variadic : Bool)
    (h : TypeReads s t w ws) :
    EntryReads s ⟨some name, false, variadic, t⟩ (.identifier name.name)
      ((if variadic then [.operator .ellipsis] else []) ++ w :: ws) where
  toEntryGives := gives_namedEntry name variadic h.toTypeGives
  spelled elides rest hrest := by
    have htype : Spells true ((if variadic then Operator.ellipsis.spelling.toList else []) ++
        (t.print ++ rest)) ((if variadic then [.operator .ellipsis] else []) ++ w :: ws) true
        rest := by
      cases variadic with
      | true => exact spells_ellipsis (h.spelled false rest hrest)
      | false => exact h.spelled true rest hrest
    have hall := (spelled_identifier hn elides (' ' :: _) (by simp; decide)).trans htype.blank
    simpa [Param.print_named] using hall

theorem reads_entry {x : Param} (hn : ∀ i, x.name = some i → i.Lawful)
    (hi : x.name = none → x.inferred = false) (hf : Part.Fits s (.type x.type))
    (h : TypeReads s x.type w ws) : ∃ w ws, EntryReads s x w ws := by
  obtain ⟨name, inferred, variadic, type⟩ := x
  cases name with
  | some name =>
    have hname := hn name rfl
    cases inferred with
    | true => exact ⟨_, _, reads_bareEntry hname h.pos rfl rfl⟩
    | false => exact ⟨_, _, reads_namedEntry hname variadic h⟩
  | none =>
    obtain rfl : inferred = false := hi rfl
    cases variadic with
    | true => exact ⟨_, _, reads_variadicEntry h⟩
    | false =>
      cases hbare : type.bareIdent? with
      | none => exact ⟨_, _, reads_plainEntry h hbare⟩
      | some name =>
        obtain ⟨rfl, hname⟩ := lawful_of_bareIdent hf hbare
        exact ⟨_, _, reads_bareEntry hname h.pos rfl rfl⟩

end Entries

namespace Entry

variable {es : List Entry} {ps : List Param} {namesRequired : Bool}

theorem variadicLast_cons {e : Entry} (h : e.isVariadic = false) (hes : VariadicLast es) :
    VariadicLast (e :: es) := by
  rw [variadicLast_iff] at hes ⊢
  cases es with
  | nil => rfl
  | cons d es => simpa [earlyVariadic?, h] using hes

/-- A parameter without name comes back as it was, a lone identifier as a type. -/
theorem unnamed_ofParam (variadic : Bool) (type : TypeRef) :
    (ofParam ⟨none, false, variadic, type⟩).isNamed = false ∧
      (ofParam ⟨none, false, variadic, type⟩).unnamed = ⟨none, false, variadic, type⟩ := by
  cases variadic with
  | true => exact ⟨rfl, rfl⟩
  | false =>
    simp only [ofParam]
    cases hbare : type.bareIdent? with
    | none => exact ⟨rfl, rfl⟩
    | some name =>
      rw [TypeRef.eq_of_bareIdent hbare]
      exact ⟨rfl, rfl⟩

theorem settles_row (h : Param.Row ps) (hr : namesRequired = true → ps = []) :
    Settles namesRequired (ps.map ofParam) ps := by
  have hall : VariadicLast (ps.map ofParam) ∧ (ps.map ofParam).any isNamed = false ∧
      (ps.map ofParam).map unnamed = ps := by
    clear hr
    induction h with
    | nil => exact ⟨variadicLast_iff.2 rfl, rfl, rfl⟩
    | last variadic type =>
      exact ⟨variadicLast_iff.2 rfl, by simpa using unnamed_ofParam variadic type⟩
    | cons type _ ih =>
      obtain ⟨hone, hmap⟩ := unnamed_ofParam false type
      have hv := congrArg Param.variadic hmap
      refine ⟨variadicLast_cons hv ih.1, ?_, ?_⟩
      · rw [List.map_cons, List.any_cons, hone, ih.2.1, Bool.or_false]
      · rw [List.map_cons, List.map_cons, hmap, ih.2.2]
  obtain ⟨hv, hn, hmap⟩ := hall
  have hsettles : Settles namesRequired (ps.map ofParam) ((ps.map ofParam).map unnamed) := by
    refine .types hv (fun hnamed => ?_) fun h' => by rw [hr h', List.map_nil]
    rw [any_isNamed_iff.2 hnamed] at hn
    cases hn
  rwa [hmap] at hsettles

theorem settles_run (h : Param.Run ps) : Settles namesRequired (ps.map ofParam) ps := by
  have hall : VariadicLast (ps.map ofParam) ∧ (ps.map ofParam).any isNamed = true ∧
      Resolves (ps.map ofParam) ps (ps.head?.map Param.type) := by
    induction h with
    | last _ variadic type => exact ⟨variadicLast_iff.2 rfl, rfl, .named _ _ _ .nil⟩
    | typed _ type _ ih => exact ⟨variadicLast_cons rfl ih.1, rfl, .named _ _ _ ih.2.2⟩
    | inferred _ _ ih =>
      refine ⟨variadicLast_cons rfl ih.1, ?_, .bare _ ih.2.2⟩
      rw [List.map_cons, List.any_cons, ih.2.1, Bool.or_true]
  exact .names hall.1 (any_isNamed_iff.1 hall.2.1) hall.2.2

end Entry

section Lists

open Entry

theorem printAll_params (ps : List Param) : Param.printAll ps = ps.map Param.print := by
  induction ps with
  | nil => rfl
  | cons p ps ih => rw [Param.printAll, ih, List.map_cons]

/-- The list is printed as the words and read back from them, also where names are called for. -/
structure ListReads (s : Nat) (l : ParamList) (ws : List Word) : Prop where
  spelled : SpelledBefore (fun _ => true) l.print (.delimiter .lparen :: ws)
  gives : ∀ namesRequired, (namesRequired = true → l.NamesGiven) → ListGives s namesRequired l ws

theorem reads_paramList {start stop : Position} {pairs : List (Param × List Word)}
    (hn : Param.Row (pairs.map Prod.fst) ∨ Param.Run (pairs.map Prod.fst))
    (h : ∀ i ∈ pairs, ∃ w ws, i.2 = w :: ws ∧ EntryReads s i.1 w ws) :
    ListReads (s + 1) ⟨start, pairs.map Prod.fst, stop⟩
      (sepWords (.delimiter .comma) (pairs.map Prod.snd) ++ [.delimiter .rparen]) where
  spelled elides rest _ := by
    have hitems : ∀ i ∈ pairs.map fun i => (i.1.print, i.2), Spelled i.1 i.2 := by
      intro i hi
      obtain ⟨j, hj, rfl⟩ := List.mem_map.1 hi
      obtain ⟨w, ws, hw, hreads⟩ := h j hj
      rw [hw]
      exact hreads.spelled
    rw [ParamList.print, printAll_params, List.map_map]
    simpa [Function.comp_def] using spells_parens hitems elides rest
  gives namesRequired hnames := by
    have hentries : ∀ i ∈ pairs.map fun i => (ofParam i.1, i.2),
        ∃ w ws, i.2 = w :: ws ∧ EntryGives s i.1 w ws := by
      intro i hi
      obtain ⟨j, hj, rfl⟩ := List.mem_map.1 hi
      obtain ⟨w, ws, hw, hreads⟩ := h j hj
      exact ⟨w, ws, hw, hreads.toEntryGives⟩
    refine gives_paramList hentries (by simpa [Function.comp_def] using separated_sepWords _ _) ?_
    have hsettles : Settles namesRequired ((pairs.map Prod.fst).map ofParam)
        (pairs.map Prod.fst) := by
      by_cases hrun : Param.Run (pairs.map Prod.fst)
      · exact settles_run hrun
      · exact settles_row (hn.resolve_right hrun) fun hreq => (hnames hreq).resolve_right hrun
    simpa [Function.comp_def] using hsettles

end Lists

section Signatures

variable {l : ParamList} {v : Word} {vs : List Word}

/-- The results are printed as the words and read back from them. -/
structure ResultReads (s : Nat) (l : ParamList) (w : Word) (ws : List Word) : Prop
    extends ResultGives s l w ws where
  spelled : Spelled l.printResult (w :: ws)

theorem reads_bareResult {start stop : Position} (h : TypeReads s t w ws) :
    ResultReads s ⟨start, [⟨none, false, false, t⟩], stop⟩ w ws where
  toResultGives := gives_bareResult h.toTypeGives h.kind_ne_lparen
  spelled := by
    have hprint : (ParamList.mk start [⟨none, false, false, t⟩] stop).printResult = t.print := by
      simp [ParamList.printResult, ParamList.isBare, Param.printAll, Param.print, Text.join,
        List.intercalate]
    rw [hprint]
    exact h.spelled

theorem reads_listResult (hb : l.isBare = false) (h : ListReads s l ws) :
    ResultReads s l (.delimiter .lparen) ws where
  toResultGives := gives_listResult (h.gives false (by simp))
  spelled := by
    have hprint : l.printResult = l.print := by
      obtain ⟨start, params, stop⟩ := l
      simp only [ParamList.printResult, hb, ParamList.print]
      rfl
    rw [hprint]
    exact h.spelled.mono fun _ _ => rfl

/-- The signature is printed as the words and read back from them. -/
structure SignatureReads (s : Nat) (x : Signature) (ws : List Word) : Prop where
  spelled : Spelled x.print (.delimiter .lparen :: ws)
  gives : ∀ namesRequired, (namesRequired = true → x.args.NamesGiven) →
    SignatureGives s namesRequired x ws

theorem reads_signature (h : ListReads s l ws) : SignatureReads (s + 1) ⟨l, none⟩ ws where
  spelled := h.spelled.mono fun _ _ => rfl
  gives namesRequired hn := gives_signature (h.gives namesRequired hn)

theorem reads_signature_results {l' : ParamList} (h : ListReads s l ws)
    (h' : ResultReads s l' v vs) : SignatureReads (s + 1) ⟨l, some l'⟩ (ws ++ v :: vs) where
  spelled elides rest hrest := by
    have hall := (h.spelled elides (' ' :: (l'.printResult ++ rest)) (by simp)).trans
      (h'.spelled true rest hrest).blank
    simpa [Signature.print] using hall
  gives namesRequired hn :=
    gives_signature_results (h.gives namesRequired hn) h'.toResultGives

end Signatures

end Parse
end GoSyntax
