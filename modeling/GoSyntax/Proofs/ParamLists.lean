import GoSyntax.Proofs.Defects
import GoSyntax.Proofs.Grammar.Gives

/-! Which parameter lists are accepted, what they declare, and what is wrong with the others. -/
namespace GoSyntax
namespace Parse

open GoSyntax.Parser

namespace Entry

def isBare : Entry → Bool
  | bare _ => true
  | _ => false

/-- The entry stands between `p` and `q`. A name is an identifier that a type follows, perhaps behind
an ellipsis; an identifier before a comma or the closing parenthesis is both name and type. Any
identifier is read as a type first, for which a level is opened and closed again. -/
inductive Written : Entry → Parser → Parser → Prop
  | variadic {p p₁ q : Parser} {type : TypeRef} (hk : p.peek.kind = .operator .ellipsis)
    (h₁ : advance p = .ok p.peek p₁) (ht : type? p₁ = .ok (some type) q) :
    Written (.variadic type) p q
  | plain {p q : Parser} {type : TypeRef} (ht : type? p = .ok (some type) q)
    (hn : p.peek.kind ≠ .identifier ∨ type.bareIdent? = none) : Written (.plain type) p q
  | bare {p q : Parser} (hk : p.peek.kind = .identifier) (hd : p.depth < p.limit)
    (h : advance p = .ok p.peek q)
    (hq : q.peek.kind = .delimiter .comma ∨ q.peek.kind = .delimiter .rparen) :
    Written (.lone (.ofToken p.peek)) p q.enter.leave
  | named {p p₁ q : Parser} {type : TypeRef} (hk : p.peek.kind = .identifier)
    (h₁ : advance p = .ok p.peek p₁) (ht : type? p₁.enter.leave = .ok (some type) q) :
    Written (.named (.ofToken p.peek) false type) p q
  | namedVariadic {p p₁ p₂ q : Parser} {type : TypeRef} (hk : p.peek.kind = .identifier)
    (h₁ : advance p = .ok p.peek p₁) (hk₁ : p₁.peek.kind = .operator .ellipsis)
    (h₂ : advance p₁.enter.leave = .ok p₁.peek p₂) (ht : type? p₂ = .ok (some type) q) :
    Written (.named (.ofToken p.peek) true type) p q

/-- The entries stand between `p` and the closing parenthesis at `q`, with commas between them and
perhaps behind the last. -/
inductive Listed : List Entry → Parser → Parser → Prop
  | nil {p : Parser} (hk : p.peek.kind = .delimiter .rparen) : Listed [] p p
  | last {p q : Parser} {e : Entry} (h : Written e p q) (hk : q.peek.kind = .delimiter .rparen) :
    Listed [e] p q
  | cons {p p₁ p₂ q : Parser} {e : Entry} {es : List Entry} (h : Written e p p₁)
    (hk : p₁.peek.kind = .delimiter .comma) (h₁ : advance p₁ = .ok p₁.peek p₂)
    (hes : Listed es p₂ q) : Listed (e :: es) p q

/-- From `p` on the entries stand in parentheses, with `q` behind them. -/
inductive Enclosed (p : Parser) (es : List Entry) (closing : Token) (q : Parser) : Prop
  | intro {p₁ p₂ : Parser} (hd : p.depth < p.limit) (hk : p.peek.kind = .delimiter .lparen)
    (h₁ : advance p.enter = .ok p.peek p₁) (hes : Listed es p₁ p₂)
    (h₂ : advance p₂ = .ok closing { q with depth := p.depth + 1 }) (hq : q.depth = p.depth)

variable {p q : Parser} {e : Entry} {es : List Entry}

theorem opensType_of_ok {type : TypeRef} (hp : p.Good) (h : type? p = .ok (some type) q) :
    opensType p.peek.kind = true := ((finds_type p hp).of_ok h).2.opens

theorem required_of_ok {type : TypeRef} (h : type? p = .ok (some type) q) :
    required type? p = .ok type q := by
  rw [required, bind_ok h]
  rfl

theorem typeOrName_of_ok {type : TypeRef} (h : type? p = .ok (some type) q) :
    typeOrName type? p =
      .ok (type, if p.peek.kind == .identifier then type.bareIdent? else none) q := by
  have hpeek : peekIs .identifier p = .ok (p.peek.kind == .identifier) p := rfl
  rw [typeOrName, bind_ok hpeek, bind_ok (required_of_ok h)]
  rfl

/-- An identifier is read as a type first. -/
theorem typeOrName_of_identifier (hk : p.peek.kind = .identifier) (hd : p.depth < p.limit)
    (h : advance p = .ok p.peek q) (hq : q.peek.kind ≠ .delimiter .dot) :
    typeOrName type? p =
      .ok (.named ⟨none, .ofToken p.peek⟩, some (.ofToken p.peek)) q.enter.leave := by
  rw [typeOrName_of_ok (type?_of_identifier hk hd h hq), hk]
  rfl

theorem entry_of_named {p₁ p₂ : Parser} {v : Bool} {type : TypeRef} (hk : p.peek.kind = .identifier)
    (h₁ : advance p = .ok p.peek p₁) (hd : p.depth < p.limit)
    (hk₁ : opensType p₁.peek.kind = true ∨ p₁.peek.kind = .operator .ellipsis)
    (hv : consumeIf (.operator .ellipsis) p₁.enter.leave = .ok v p₂)
    (ht : type? p₂ = .ok (some type) q) :
    entry type? p = .ok (.named (.ofToken p.peek) v type) q := by
  have hne : ∀ kind, opensType kind = false → kind ≠ .operator .ellipsis → p₁.peek.kind ≠ kind := by
    rintro kind hopen hell rfl
    rcases hk₁ with h | h
    · rw [h] at hopen
      cases hopen
    · exact hell h
  have hpeek : peek p₁.enter.leave = .ok p₁.peek p₁.enter.leave := rfl
  have hfollow : ¬[Kind.delimiter .comma, .delimiter .rparen].contains p₁.peek.kind = true := by
    simpa using ⟨hne (.delimiter .comma) rfl (by simp), hne (.delimiter .rparen) rfl (by simp)⟩
  rw [entry_eq, bind_ok (consumeIf_of_ne (by simp [hk])),
    if_neg Bool.false_ne_true,
    bind_ok (typeOrName_of_identifier hk hd h₁ (hne (.delimiter .dot) rfl (by simp)))]
  dsimp only
  rw [bind_ok hpeek, if_neg hfollow, bind_ok hv, bind_ok (required_of_ok ht)]
  rfl

theorem Written.entry (h : Written e p q) (hp : p.Good) : entry type? p = .ok e q := by
  cases h with
  | variadic hk h₁ ht =>
    rw [entry_eq, bind_ok (consumeIf_of_eq hk h₁), if_pos rfl, bind_ok (required_of_ok ht)]
    rfl
  | @plain _ _ type ht hn =>
    have hell : p.peek.kind ≠ .operator .ellipsis := by
      intro hk
      have hopen := opensType_of_ok hp ht
      rw [hk] at hopen
      cases hopen
    have hnone : (if p.peek.kind == .identifier then type.bareIdent? else none) = none := by
      rcases hn with hk | hb
      · simp [hk]
      · simp [hb]
    rw [entry_eq, bind_ok (consumeIf_of_ne hell), if_neg Bool.false_ne_true,
      bind_ok (typeOrName_of_ok ht), hnone]
    rfl
  | @bare _ q hk hd h hq =>
    have hdot : q.peek.kind ≠ .delimiter .dot := by
      rcases hq with hq | hq <;> simp [hq]
    have hpeek : peek q.enter.leave = .ok q.peek q.enter.leave := rfl
    have hfollow : [Kind.delimiter .comma, .delimiter .rparen].contains q.peek.kind = true := by
      simpa using hq
    rw [entry_eq, bind_ok (consumeIf_of_ne (by simp [hk])), if_neg Bool.false_ne_true,
      bind_ok (typeOrName_of_identifier hk hd h hdot)]
    dsimp only
    rw [bind_ok hpeek, if_pos hfollow]
    rfl
  | @named _ p₁ _ type hk h₁ ht =>
    have hp₁ := ((sure_advance hp).of_ok h₁).1.reopened
    have hopen := opensType_of_ok hp₁.good ht
    rw [leave_peek, enter_peek] at hopen
    have hell : p₁.peek.kind ≠ .operator .ellipsis := by
      intro hk'
      rw [hk'] at hopen
      cases hopen
    have hd := depth_lt_of_type ht
    rw [hp₁.depth, hp₁.limit] at hd
    exact entry_of_named hk h₁ hd (Or.inl hopen) (consumeIf_of_ne hell) ht
  | @namedVariadic _ p₁ p₂ _ type hk h₁ hk₁ h₂ ht =>
    have hp₁ := ((sure_advance hp).of_ok h₁).1.reopened
    have hp₂ := hp₁.trans ((sure_advance hp₁.good).of_ok h₂).1
    have hd := depth_lt_of_type ht
    rw [hp₂.depth, hp₂.limit] at hd
    exact entry_of_named hk h₁ hd (Or.inr hk₁) (consumeIf_of_eq hk₁ h₂) ht

theorem Written.kept (h : Written e p q) (hp : p.Good) : Kept p q :=
  ((sure_entry finds_type hp).of_ok (h.entry hp)).1

/-- Every comma takes a token, so there are rounds enough for all entries. -/
theorem Listed.commaListFor (h : Listed es p q) (hp : p.Good) {n : Nat} (hn : p.ahead.length < n) :
    commaListFor (.delimiter .rparen) (Parse.entry type?) n p = .ok es q := by
  have hopen : ∀ {e : Entry} {p q : Parser}, Written e p q → p.Good →
      peekIs (.delimiter .rparen) p = .ok false p := by
    intro e p q hw hp
    cases hk : p.peek.kind == .delimiter .rparen with
    | false => simp [peekIs, hk]
    | true =>
      rw [beq_iff_eq] at hk
      cases hw with
      | plain ht _ =>
        have hty := opensType_of_ok hp ht
        rw [hk] at hty
        cases hty
      | _ => simp_all
  induction h generalizing n with
  | @nil p hk =>
    obtain ⟨m, rfl⟩ : ∃ m, n = m + 1 := ⟨n - 1, by omega⟩
    have hpeek : peekIs (.delimiter .rparen) p = .ok true p := by simp [peekIs, hk]
    rw [Parse.commaListFor, bind_ok hpeek]
    rfl
  | @last p q e hw hk =>
    obtain ⟨m, rfl⟩ : ∃ m, n = m + 1 := ⟨n - 1, by omega⟩
    rw [Parse.commaListFor, bind_ok (hopen hw hp), if_neg Bool.false_ne_true,
      bind_ok (hw.entry hp), bind_ok (consumeIf_of_ne (by simp [hk]))]
    rfl
  | @cons p p₁ p₂ q e es hw hk h₁ _ ih =>
    obtain ⟨m, rfl⟩ : ∃ m, n = m + 1 := ⟨n - 1, by omega⟩
    have hkept := hw.kept hp
    obtain ⟨hkept₁, -, htook⟩ := (sure_advance hkept.good).of_ok h₁
    have hlt := htook (by simp [hk])
    have hle := hkept.ahead
    rw [Parse.commaListFor, bind_ok (hopen hw hp), if_neg Bool.false_ne_true,
      bind_ok (hw.entry hp), bind_ok (consumeIf_of_eq hk h₁), if_pos rfl,
      bind_ok (ih hkept₁.good (by omega))]
    rfl

theorem Listed.proper (h : Listed es p q) : ∀ e ∈ es, e.Proper := by
  have hentry : ∀ {e : Entry} {p q : Parser}, Written e p q → e.Proper := by
    intro e p q hw
    cases hw with
    | variadic => exact .variadic _
    | plain => exact .plain _
    | bare => exact .lone _
    | named => exact .named _ _ _
    | namedVariadic => exact .named _ _ _
  induction h with
  | nil => simp
  | last hw _ => exact List.forall_mem_singleton.2 (hentry hw)
  | cons hw _ _ _ ih => exact List.forall_mem_cons.2 ⟨hentry hw, ih⟩

theorem Enclosed.proper {closing : Token} (h : Enclosed p es closing q) : ∀ e ∈ es, e.Proper := by
  obtain ⟨_, _, _, hes, _, _⟩ := h
  exact hes.proper

theorem Listed.closes (h : Listed es p q) : q.peek.kind = .delimiter .rparen := by
  induction h with
  | nil hk => exact hk
  | last _ hk => exact hk
  | cons _ _ _ _ ih => exact ih

/-- What a list comes to is settled once all of it has been read. -/
theorem Enclosed.paramList {closing : Token} (h : Enclosed p es closing q) (hp : p.Good)
    (namesRequired : Bool) :
    paramList type? namesRequired p =
      match params p.peek.pos namesRequired es { q with depth := p.depth + 1 } with
      | .ok ps r => .ok ⟨p.peek.pos, ps, closing.stop⟩ r.leave
      | .error e r => .error e r.leave := by
  obtain ⟨hd, hk, h₁, hes, h₂, -⟩ := h
  have hp₁ := ((sure_advance hp.enter).of_ok h₁).1
  have hlist : commaList (.delimiter .rparen) (Parse.entry type?) _ = .ok es _ :=
    hes.commaListFor hp₁.good (Nat.lt_succ_self _)
  have hopen : require .paramsStart [.delimiter .lparen] p.enter = _ :=
    (require_of_mem .paramsStart (by simpa using hk)).trans h₁
  have hclose : require .paramsEnd [.delimiter .rparen] _ = _ :=
    (require_of_mem .paramsEnd (by simpa using hes.closes)).trans h₂
  cases hr : params p.peek.pos namesRequired es { q with depth := p.depth + 1 } with
  | ok ps r =>
    refine nested_of_ok hd ?_
    rw [bind_ok hopen, bind_ok hlist, bind_ok hclose, bind_ok hr]
    rfl
  | error e r =>
    refine nested_of_error hd ?_
    rw [bind_ok hopen, bind_ok hlist, bind_ok hclose, bind_error hr]

/-- Every entry can be a name, and the last has a type. -/
def Consistent (es : List Entry) : Prop :=
  (∀ e ∈ es, e.isNamed = true ∨ e.isBare = true) ∧ ∀ e ∈ es.getLast?, e.isNamed = true

theorem Consistent.suffix {l : List Entry} (h : Consistent (l ++ es)) : Consistent es := by
  refine ⟨fun e he => h.1 e (List.mem_append_right l he), fun e he => h.2 e ?_⟩
  rw [List.getLast?_append, he]
  rfl

variable {ps : List Param} {c : Option TypeRef}

theorem Resolves.consistent (h : Resolves es ps c) : Consistent es := by
  induction h with
  | nil => simp [Consistent]
  | @named es ps c name v type h ih =>
    refine ⟨List.forall_mem_cons.2 ⟨Or.inl rfl, ih.1⟩, fun e he => ?_⟩
    rw [List.getLast?_cons] at he
    cases hl : es.getLast? with
    | none =>
      simp only [hl, Option.getD_none, Option.mem_some] at he
      rw [← he]
      rfl
    | some d =>
      simp only [hl, Option.getD_some, Option.mem_some] at he
      exact ih.2 e (by simp [hl, he])
  | @bare es ps type name h ih =>
    refine ⟨List.forall_mem_cons.2 ⟨Or.inr rfl, ih.1⟩, fun e he => ?_⟩
    have hne : es ≠ [] := by
      rintro rfl
      cases h
    rw [List.getLast?_cons_of_ne_nil hne] at he
    exact ih.2 e he

/-- The rightmost entry that offends: what follows it is consistent, and is no longer with it. -/
theorem Blamed.split (h : Blamed es e) :
    ∃ l r, es = l ++ e :: r ∧ Consistent r ∧ ¬Consistent (e :: r) := by
  obtain ⟨l, r, ps, c, hes, hres, hoff⟩ := h
  refine ⟨l, r, hes, hres.consistent, fun hc => ?_⟩
  have hall := hc.1 e List.mem_cons_self
  cases e with
  | named name v type => exact hoff
  | bare type =>
    obtain rfl : c = none := hoff
    obtain rfl := hres.carried_none
    cases hc.2 (.bare type) rfl
  | plain type => simp [isNamed, isBare] at hall
  | variadic type => simp [isNamed, isBare] at hall

/-- Each parameter by the entry it comes from: a lone identifier has the type of the nearest entry to
its right that has a name of its own. -/
structure Declares (es : List Entry) (ps : List Param) : Prop where
  length : ps.length = es.length
  named : ∀ (i : Nat) name v type, es[i]? = some (.named name v type) →
    ps[i]? = some ⟨some name, false, v, type⟩
  bare : ∀ (i : Nat) name, es[i]? = some (.lone name) → ∃ (j : Nat) (name' : Ident) (v : Bool)
    (type : TypeRef), i < j ∧ es[j]? = some (.named name' v type) ∧
      (∀ k : Nat, i < k → k < j → ∃ x, es[k]? = some (.lone x)) ∧
      ps[i]? = some ⟨some name, true, false, type⟩

/-- The type that is carried on is that of the first entry with a name of its own. -/
theorem Resolves.carried {type : TypeRef} (h : Resolves es ps c) (hc : c = some type) :
    ∃ (j : Nat) (name : Ident) (v : Bool), es[j]? = some (.named name v type) ∧
      ∀ k : Nat, k < j → ∃ x, es[k]? = some (.lone x) := by
  induction h with
  | nil => cases hc
  | named name v type' _ _ =>
    cases hc
    exact ⟨0, name, v, rfl, by simp⟩
  | bare name _ ih =>
    obtain ⟨j, name', v, hj, hbefore⟩ := ih hc
    refine ⟨j + 1, name', v, hj, fun k hk => ?_⟩
    cases k with
    | zero => exact ⟨name, rfl⟩
    | succ k => exact hbefore k (by omega)

/-- An entry in front leaves the parameters behind it as they are. -/
theorem Declares.cons {d : Param} (h : Declares es ps)
    (hn : ∀ name v type, e = .named name v type → d = ⟨some name, false, v, type⟩)
    (hb : ∀ name, e = .lone name → ∃ (j : Nat) (name' : Ident) (v : Bool) (type : TypeRef),
      es[j]? = some (.named name' v type) ∧ (∀ k : Nat, k < j → ∃ x, es[k]? = some (.lone x)) ∧
        d = ⟨some name, true, false, type⟩) : Declares (e :: es) (d :: ps) where
  length := congrArg (· + 1) h.length
  named i name v type hi := by
    cases i with
    | zero => exact congrArg some (hn name v type (Option.some.inj hi))
    | succ i => exact h.named i name v type hi
  bare i name hi := by
    cases i with
    | zero =>
      obtain ⟨j, name', v, type, hj, hbefore, hd⟩ := hb name (Option.some.inj hi)
      refine ⟨j + 1, name', v, type, Nat.succ_pos j, hj, fun k hk hkj => ?_, congrArg some hd⟩
      obtain ⟨k, rfl⟩ : ∃ k', k = k' + 1 := ⟨k - 1, by omega⟩
      exact hbefore k (by omega)
    | succ i =>
      obtain ⟨j, name', v, type, hij, hj, hbetween, hd⟩ := h.bare i name hi
      refine ⟨j + 1, name', v, type, by omega, hj, fun k hk hkj => ?_, hd⟩
      obtain ⟨k, rfl⟩ : ∃ k', k = k' + 1 := ⟨k - 1, by omega⟩
      exact hbetween k (by omega) (by omega)

theorem Resolves.declares (h : Resolves es ps c) : Declares es ps := by
  induction h with
  | nil => exact ⟨rfl, by simp, by simp⟩
  | named name v type _ ih =>
    refine ih.cons ?_ (by simp)
    rintro _ _ _ ⟨⟩
    rfl
  | @bare es ps type name h ih =>
    refine ih.cons (by simp) ?_
    rintro _ ⟨⟩
    obtain ⟨j, name', v, hj, hbefore⟩ := h.carried rfl
    exact ⟨j, name', v, type, hj, hbefore, rfl⟩

end Entry

open Entry

/-- What a list of entries comes to. -/
inductive Outcome (start : Position) (namesRequired : Bool) (es : List Entry) (p : Parser) :
    EStateM.Result Error Parser (List Param) → Prop
  | early {e : Entry} {l r : List Entry} (hes : es = l ++ e :: r) (hr : r ≠ [])
    (hv : e.isVariadic = true) (hl : ∀ d ∈ l, d.isVariadic = false) :
    Outcome start namesRequired es p (.error ⟨e.typeRef.start, .grammar .earlyVariadic⟩ p)
  | unnamed (hv : VariadicLast es) (hn : namesRequired = true) (hne : es ≠ []) (h : ¬HasNamed es) :
    Outcome start namesRequired es p (.error ⟨start, .grammar .unnamedParams⟩ p)
  | mixed {e : Entry} {l r : List Entry} {log : List Event} (hv : VariadicLast es) (h : HasNamed es)
    (hes : es = l ++ e :: r) (hr : Consistent r) (he : ¬Consistent (e :: r)) :
    Outcome start namesRequired es p
      (.error ⟨e.typeRef.start, .grammar .mixedParams⟩ { p with log })
  | types (hv : VariadicLast es) (hn : namesRequired = true → es = []) (h : ¬HasNamed es) :
    Outcome start namesRequired es p (.ok (es.map Entry.unnamed) p)
  | names {ps : List Param} {log : List Event} (hv : VariadicLast es) (h : HasNamed es)
    (hc : Consistent es) (hd : Declares es ps) :
    Outcome start namesRequired es p (.ok ps { p with log })

theorem params_outcome {es : List Entry} (hes : ∀ e ∈ es, e.Proper) (start : Position)
    (namesRequired : Bool) (p : Parser) :
    Outcome start namesRequired es p (params start namesRequired es p) := by
  cases hv : earlyVariadic? es with
  | some e =>
    obtain ⟨l, r, hes, hr, hvar, hl⟩ := earlyVariadic?_eq_some hv
    rw [params_of_early start namesRequired hv]
    exact .early hes hr hvar hl
  | none =>
    have hlast := variadicLast_iff.2 hv
    by_cases hn : es.any Entry.isNamed = true
    · have hnamed := any_isNamed_iff.1 hn
      rw [params_of_named start namesRequired hv hn, map_eq_pure_bind]
      rcases resolve_cases hes p with ⟨ps, c, log, hr, hres⟩ | ⟨e, log, hr, hblamed⟩
      · rw [bind_ok hr]
        exact .names hlast hnamed hres.consistent hres.declares
      · obtain ⟨l, r, hes, hcr, hce⟩ := hblamed.split
        rw [bind_error hr]
        exact .mixed hlast hnamed hes hcr hce
    · have hnamed := fun h => hn (any_isNamed_iff.2 h)
      rw [params_of_unnamed start namesRequired hv (Bool.eq_false_iff.2 hn)]
      by_cases hreq : (namesRequired && !es.isEmpty) = true
      · rw [if_pos hreq]
        simp only [Bool.and_eq_true, Bool.not_eq_true', List.isEmpty_eq_false_iff] at hreq
        exact .unnamed hlast hreq.1 hreq.2 hnamed
      · rw [if_neg hreq]
        refine .types hlast (fun h => ?_) hnamed
        simpa [h] using hreq

/-- The list gives names where they are asked for. -/
def NamesMet (namesRequired : Bool) (es : List Entry) : Prop :=
  namesRequired = true → es = [] ∨ HasNamed es

/-- Exactly those lists are accepted where nothing follows a variadic entry, names are given if they
are asked for, and either no entry or every entry is a name. Of the others the first variadic entry
that another follows is blamed, then the list as a whole, then the last entry that is no name or has
no type to its right. Reading goes on behind the list in any case. -/
theorem paramList_resolves {p q : Parser} {es : List Entry} {closing : Token} (hp : p.Good)
    (h : Enclosed p es closing q) (namesRequired : Bool) :
    ((∃ list r, paramList type? namesRequired p = .ok list r) ↔
      VariadicLast es ∧ NamesMet namesRequired es ∧ (HasNamed es → Consistent es)) ∧
    (∀ list r, paramList type? namesRequired p = .ok list r →
      list.start = p.peek.pos ∧ list.stop = closing.stop ∧ (∃ log, r = { q with log }) ∧
        (¬HasNamed es ∧ list.params = es.map Entry.unnamed ∨
          HasNamed es ∧ Consistent es ∧ Declares es list.params)) ∧
    (¬VariadicLast es → ∃ l e r, es = l ++ e :: r ∧ r ≠ [] ∧ e.isVariadic = true ∧
      (∀ d ∈ l, d.isVariadic = false) ∧ paramList type? namesRequired p =
        .error ⟨e.typeRef.start, .grammar .earlyVariadic⟩ q) ∧
    (VariadicLast es → ¬NamesMet namesRequired es → paramList type? namesRequired p =
      .error ⟨p.peek.pos, .grammar .unnamedParams⟩ q) ∧
    (VariadicLast es → ¬(HasNamed es → Consistent es) → ∃ l e r log, es = l ++ e :: r ∧
      Consistent r ∧ ¬Consistent (e :: r) ∧ paramList type? namesRequired p =
        .error ⟨e.typeRef.start, .grammar .mixedParams⟩ { q with log }) := by
  have hq : q.depth = p.depth := by
    obtain ⟨_, _, _, _, _, hq⟩ := h
    exact hq
  have hback : ∀ log, leave { q with depth := p.depth + 1, log } = { q with log } := by
    intro log
    rw [leave, Nat.add_sub_cancel, ← hq]
  have hback' : leave { q with depth := p.depth + 1 } = q := hback q.log
  have hlist := h.paramList hp namesRequired
  have hout := params_outcome h.proper p.peek.pos namesRequired { q with depth := p.depth + 1 }
  generalize params p.peek.pos namesRequired es { q with depth := p.depth + 1 } = result at hlist hout
  cases hout with
  | @early e l r hes hr hv hl =>
    simp only [hback'] at hlist
    have hlate : ¬VariadicLast es := fun hlast => hr (hlast l e r hes hv)
    refine ⟨by simp [hlist, hlate], by simp [hlist], fun _ => ?_, fun hlast => absurd hlast hlate,
      fun hlast => absurd hlast hlate⟩
    exact ⟨l, e, r, hes, hr, hv, hl, hlist⟩
  | unnamed hv hn hne hnamed =>
    simp only [hback'] at hlist
    have hmet : ¬NamesMet namesRequired es := fun hm => (hm hn).elim hne hnamed
    refine ⟨by simp [hlist, hmet], by simp [hlist], fun hlate => absurd hv hlate, fun _ _ => hlist, ?_⟩
    exact fun _ hc => absurd (fun hn' => absurd hn' hnamed) hc
  | @mixed e l r log hv hnamed hes hr he =>
    simp only [hback] at hlist
    have hmixed : ¬(HasNamed es → Consistent es) := by
      intro hc
      have hall := hc hnamed
      rw [hes] at hall
      exact he hall.suffix
    refine ⟨⟨by simp [hlist], fun hc => absurd hc.2.2 hmixed⟩, by simp [hlist],
      fun hlate => absurd hv hlate, fun _ hmet => absurd (fun _ => Or.inr hnamed) hmet, fun _ _ => ?_⟩
    exact ⟨l, e, r, log, hes, hr, he, hlist⟩
  | types hv hn hnamed =>
    simp only [hback'] at hlist
    have hmet : NamesMet namesRequired es := fun h' => Or.inl (hn h')
    have hcon : HasNamed es → Consistent es := fun h' => absurd h' hnamed
    refine ⟨⟨fun _ => ⟨hv, hmet, hcon⟩, fun _ => ⟨_, _, hlist⟩⟩, fun list r hok => ?_,
      fun hlate => absurd hv hlate, fun _ h' => absurd hmet h', fun _ h' => absurd hcon h'⟩
    rw [hlist] at hok
    cases hok
    exact ⟨rfl, rfl, ⟨q.log, rfl⟩, Or.inl ⟨hnamed, rfl⟩⟩
  | @names ps log hv hnamed hc hd =>
    simp only [hback] at hlist
    have hmet : NamesMet namesRequired es := fun _ => Or.inr hnamed
    refine ⟨⟨fun _ => ⟨hv, hmet, fun _ => hc⟩, fun _ => ⟨_, _, hlist⟩⟩, fun list r hok => ?_,
      fun hlate => absurd hv hlate, fun _ h' => absurd hmet h', fun _ h' => absurd (fun _ => hc) h'⟩
    rw [hlist] at hok
    cases hok
    exact ⟨rfl, rfl, ⟨log, rfl⟩, Or.inr ⟨hnamed, hc, hd⟩⟩

theorem spells_pair : Spells false "(a, b T)\n".toList
    [.delimiter .lparen, .identifier ['a'], .delimiter .comma, .identifier ['b'], .identifier ['T'],
      .delimiter .rparen, .delimiter .semicolon] false [] := by
  have hclose : Spells true [')', '\n'] [.delimiter .rparen, .delimiter .semicolon] false [] :=
    .mark (d := .rparen) rfl rfl (.endLine .nil)
  have htype := (spelled_identifier (Word.stands_letter (c := 'T') (by decide) rfl) true _
    (by simp; decide)).trans hclose
  have hsecond := (spelled_identifier (Word.stands_letter (c := 'b') (by decide) rfl) false _
    (by simp; decide)).trans htype.blank
  have hcomma : Spells true (',' :: ' ' :: _) _ false [] :=
    .mark (d := .comma) rfl rfl hsecond.blank
  have hfirst := (spelled_identifier (Word.stands_letter (c := 'a') (by decide) rfl) false _
    (by simp; decide)).trans hcomma
  exact .mark (d := .lparen) rfl rfl hfirst

/-- A name without a type before one with a type. -/
theorem enclosed_pair : ∃ p q a b t closing, Parser.ofText 8 "p.go" "(a, b T)\n".toList = .ok p ∧
    Enclosed p [.lone a, .named b false t] closing q := by
  obtain ⟨p, hp, hholds, hdepth, hlimit⟩ := spells_pair.holds 8 "p.go"
  have h₀ : p.enter.Holds _ := hholds
  obtain ⟨p₁, ha₀, h₁, hd₁, hl₁⟩ := h₀.advance (by simp)
  obtain ⟨p₂, ha₁, h₂, hd₂, hl₂⟩ := h₁.advance (by simp)
  -- a level was opened and closed behind every identifier
  have h₂' : p₂.enter.leave.Holds _ := h₂
  obtain ⟨p₃, ha₂, h₃, (hd₃ : p₃.depth = p₂.depth), (hl₃ : p₃.limit = p₂.limit)⟩ :=
    h₂'.advance (by simp)
  obtain ⟨p₄, ha₃, h₄, hd₄, hl₄⟩ := h₃.advance (by simp)
  have h₄' : p₄.enter.leave.Holds _ := h₄
  obtain ⟨p₅, ha₄, h₅, (hd₅ : p₅.depth = p₄.depth), -⟩ := h₄'.advance (by simp)
  have h₅' : p₅.enter.leave.Holds _ := h₅
  obtain ⟨p₆, ha₅, h₆, (hd₆ : p₆.depth = p₅.depth), -⟩ := h₅'.advance (by simp)
  have hlt₁ : p₁.depth < p₁.limit := by
    rw [hd₁, hl₁]
    show p.depth + 1 < p.limit
    rw [hdepth, hlimit]
    decide
  have hlt₄ : p₄.depth < p₄.limit := by rwa [hd₄, hd₃, hd₂, hl₄, hl₃, hl₂]
  have htype : type? p₄.enter.leave = .ok (some (.named ⟨none, .ofToken p₄.peek⟩)) p₅.enter.leave :=
    type?_of_identifier h₄'.kind hlt₄ ha₄ (by rw [h₅.kind]; simp [Word.delimiter])
  have hlisted : Listed [.lone (.ofToken p₁.peek), .named (.ofToken p₃.peek) false
      (.named ⟨none, .ofToken p₄.peek⟩)] p₁ p₅.enter.leave :=
    .cons (.bare h₁.kind hlt₁ ha₁ (.inl h₂.kind)) h₂.kind ha₂
      (.last (.named h₃.kind ha₃ htype) h₅.kind)
  have hback : p₆ = { p₆ with depth := p.depth + 1 } := by
    have hd : p₆.depth = p.depth + 1 := by rw [hd₆, hd₅, hd₄, hd₃, hd₂, hd₁, enter_depth]
    rw [← hd]
  refine ⟨p, { p₆ with depth := p.depth }, _, _, _, p₅.peek, hp, .intro ?_ hholds.kind ha₀ hlisted
    (ha₅.trans (congrArg _ hback)) rfl⟩
  rw [hdepth, hlimit]
  decide

theorem paramList_resolves_pair : ∃ p q a b t closing,
    Parser.ofText 8 "p.go" "(a, b T)\n".toList = .ok p ∧
      Enclosed p [.lone a, .named b false t] closing q ∧
      ∃ list r, paramList type? true p = .ok list r ∧
        Declares [.lone a, .named b false t] list.params := by
  obtain ⟨p, q, a, b, t, closing, hp, henclosed⟩ := enclosed_pair
  have hres : Resolves [.lone a, .named b false t] _ _ := .bare a (.named b false t .nil)
  have hnamed : HasNamed [.lone a, .named b false t] := any_isNamed_iff.1 rfl
  obtain ⟨haccept, hgives, -⟩ := paramList_resolves (good_of_ofFeed hp).1 henclosed true
  obtain ⟨list, r, hok⟩ := haccept.2
    ⟨variadicLast_iff.2 rfl, fun _ => .inr hnamed, fun _ => hres.consistent⟩
  refine ⟨p, q, a, b, t, closing, hp, henclosed, list, r, hok, ?_⟩
  exact ((hgives list r hok).2.2.2.resolve_left fun h => h.1 hnamed).2.2

end Parse
end GoSyntax
