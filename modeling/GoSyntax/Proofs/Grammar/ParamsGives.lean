import GoSyntax.Proofs.Grammar.Bare
import GoSyntax.Proofs.Grammar.Gives
import GoSyntax.Proofs.Grammar.TypeSound
import GoSyntax.Proofs.Tree.Derives
import GoSyntax.Proofs.Tree.Erase

/-! Lists of parameters and signatures are read from their words, if the types in them are. -/
namespace GoSyntax

namespace TypeRef

theorem bareIdent_erase (t : TypeRef) : t.erase.bareIdent? = t.bareIdent?.map Ident.erase := by
  cases t with
  | named name =>
    obtain ⟨package, name⟩ := name
    cases package <;> rfl
  | _ => rfl

end TypeRef

namespace Parse

open GoSyntax.Parser

variable {s s' : Nat} {t : TypeRef} {w v : Word} {ws vs : List Word}

/-- No type goes on with a token of the kind. -/
def endsType (kind : Kind) : Prop := kind ≠ .delimiter .dot ∧ opensType kind = false

/-- The type is read from the words. -/
structure TypeGives (s : Nat) (t : TypeRef) (w : Word) (ws : List Word) : Prop where
  pos : 1 ≤ s
  opens : opensType w.kind = true
  gives : ∀ room p r rs, Ready s room p (w :: ws ++ r :: rs) → endsType r.kind →
    Gives (typeRule room) p (fun o => o.map TypeRef.erase = some t.erase) (r :: rs)

theorem TypeGives.mono (h : TypeGives s t w ws) (hle : s ≤ s') : TypeGives s' t w ws where
  pos := Nat.le_trans h.pos hle
  opens := h.opens
  gives room p r rs hp := h.gives room p r rs ⟨hp.fuel, Nat.le_trans hle hp.deep, hp.holds⟩

/-- The first word of a type is of no kind that opens none. -/
theorem TypeGives.kind_ne (h : TypeGives s t w ws) {kind : Kind} (hk : opensType kind = false) :
    w.kind ≠ kind := by
  rintro rfl
  rw [h.opens] at hk
  cases hk

theorem gives_required {type? : Parse (Option TypeRef)} {p : Parser}
    (h : Gives type? p (fun o => o.map TypeRef.erase = some t.erase) ws) :
    Gives (required type?) p (fun t' => t'.erase = t.erase) ws := by
  refine h.bind fun o q ho hq => ?_
  cases o with
  | none => cases ho
  | some t' => exact .pure hq.holds (Option.some.inj ho)

/-- A type is read one level deeper than it is asked for. -/
theorem gives_typeRule {room : Nat} {p : Parser} {P : Option TypeRef → Prop} {vs us : List Word}
    (hp : Ready (s + 1) room p vs)
    (h : ∀ room q, Ready s room q vs → Gives (typeBody (typeRule room)) q P us) :
    Gives (typeRule room) p P us := by
  obtain ⟨room, rfl⟩ := hp.exists_room
  have hdeep := hp.deep
  exact .congr rfl (.nested (by omega) (h room _ hp.deeper))

theorem peek_ok (p : Parser) : peek p = .ok p.peek p := rfl

/-- The token that a type opens with decides how to go on. -/
theorem gives_form {kind : Kind} {room : Nat} {p : Parser} {vs us : List Word}
    {m : Nat → Parse TypeRef} (hp : Ready (s + 1) room p (w :: vs)) (hk : w.kind = kind)
    (hm : ∀ room (p : Parser), p.peek.kind = kind →
      typeBody (typeRule room) p = (some <$> m room) p)
    (h : ∀ room q, Ready s room q (w :: vs) → Gives (m room) q (fun t' => t'.erase = t.erase) us) :
    Gives (typeRule room) p (fun o => o.map TypeRef.erase = some t.erase) us := by
  refine gives_typeRule hp fun room q hq => ?_
  refine .congr (hm room q (hq.holds.kind.trans hk)) ?_
  exact (h room q hq).map fun t' ht' => congrArg some ht'

section Names

theorem gives_namedType {n : NamedType} {p : Parser} {r : Word} {rs : List Word}
    (hp : p.Holds (nameWords n ++ r :: rs)) (hr : r.kind ≠ .delimiter .dot) :
    Gives namedType p (fun n' => n'.erase = n.erase) (r :: rs) := by
  obtain ⟨package, name⟩ := n
  cases package with
  | none =>
    refine (gives_identifier _ hp (by simp)).bind fun i q₁ hi h₁ => ?_
    refine (gives_consumeIf_false h₁.holds hr).bind ?_
    rintro _ q₂ rfl h₂
    exact .pure h₂.holds (by simp [NamedType.erase, Ident.erase, hi])
  | some package =>
    refine (gives_identifier _ hp (by simp)).bind fun i q₁ hi h₁ => ?_
    refine (gives_consumeIf_true h₁.holds (by simp) rfl).bind ?_
    rintro _ q₂ rfl h₂
    refine (gives_identifier _ h₂.holds (by simp)).bind fun j q₃ hj h₃ => .pure h₃.holds ?_
    simp [NamedType.erase, Ident.erase, hi, hj]

theorem gives_named {n : NamedType} {room : Nat} {p : Parser} {r : Word} {rs : List Word}
    (hp : Ready (s + 1) room p (nameWords n ++ r :: rs)) (hr : r.kind ≠ .delimiter .dot) :
    Gives (typeRule room) p (fun o => o.map TypeRef.erase = some (TypeRef.named n).erase)
      (r :: rs) := by
  obtain ⟨v, vs, hv, hk⟩ := nameWords_eq n
  have hp' := hp
  rw [hv, List.cons_append] at hp'
  refine gives_form (m := fun _ => .named <$> namedType) hp' hk ?_ fun room q hq => ?_
  · exact fun room p hk => by rw [typeBody, bind_ok (peek_ok p), hk, ← comp_map]
  · rw [← List.cons_append, ← hv] at hq
    exact (gives_namedType hq.holds hr).map fun n' hn' => by simp [TypeRef.erase, hn']

theorem gives_name {n : NamedType} (hw : nameWords n = w :: ws) :
    TypeGives (s + 1) (.named n) w ws where
  pos := Nat.le_add_left 1 s
  opens := by
    obtain ⟨v, vs, hv, hk⟩ := nameWords_eq n
    rw [hw] at hv
    cases hv
    rw [hk]
    rfl
  gives room p r rs hp hr := by
    rw [← hw] at hp
    exact gives_named hp hr.1

end Names

/-- A place to read the words from with a rule that finds types, where at least `s` levels can be
opened. The rule may count the levels down or look how many are left. -/
structure Poised (s : Nat) (type? : Parse (Option TypeRef)) (p : Parser) (ws : List Word) :
    Prop where
  serves : ∀ q : Parser, q.room ≤ p.room → ∃ room, q.room ≤ room ∧ type? q = typeRule room q
  deep : s ≤ p.room
  holds : p.Holds ws

section Poised

variable {type? : Parse (Option TypeRef)} {p q : Parser} {r : Word} {rs : List Word}

theorem Ready.poised {room : Nat} (h : Ready s room p ws) : Poised s (typeRule room) p ws where
  serves _ hq := ⟨room, Nat.le_trans hq h.fuel, rfl⟩
  deep := h.deep
  holds := h.holds

theorem poised_type (hs : s ≤ p.room) (hp : p.Holds ws) : Poised s Parse.type? p ws where
  serves q _ := ⟨q.room, Nat.le_refl _, rfl⟩
  deep := hs
  holds := hp

theorem Poised.of_reaches (h : Poised s type? p ws) (hq : Reaches p q rs) :
    Poised s type? q rs where
  serves q' hq' := h.serves q' (by rwa [hq.room] at hq')
  deep := by rw [hq.room]; exact h.deep
  holds := hq.holds

theorem Poised.mono (h : Poised s' type? p ws) (hle : s ≤ s') : Poised s type? p ws where
  serves := h.serves
  deep := Nat.le_trans hle h.deep
  holds := h.holds

theorem Poised.inside (h : Poised (s + 1) type? p ws) :
    Poised s type? p.enter ws := by
  have hdeep := h.deep
  refine ⟨fun q hq => h.serves q (Nat.le_trans hq ?_), ?_, h.holds⟩ <;>
    simp only [Parser.room, Parser.enter_depth, Parser.enter_limit] at hdeep ⊢ <;> omega

theorem Poised.ready (h : Poised s type? p ws) :
    ∃ room, Ready s room p ws ∧ type? p = typeRule room p := by
  obtain ⟨room, hfuel, htype⟩ := h.serves p (Nat.le_refl _)
  exact ⟨room, ⟨hfuel, h.deep, h.holds⟩, htype⟩

theorem TypeGives.found (h : TypeGives s t w ws) (hp : Poised s type? p (w :: ws ++ r :: rs))
    (hr : endsType r.kind) :
    Gives type? p (fun o => o.map TypeRef.erase = some t.erase) (r :: rs) := by
  obtain ⟨room, hready, htype⟩ := hp.ready
  exact .congr htype (h.gives room p r rs hready hr)

theorem TypeGives.required (h : TypeGives s t w ws) (hp : Poised s type? p (w :: ws ++ r :: rs))
    (hr : endsType r.kind) :
    Gives (required type?) p (fun t' => t'.erase = t.erase) (r :: rs) :=
  gives_required (h.found hp hr)

end Poised

section Entries

/-- The identifier that a type consists of is found where the type opens with it. -/
theorem TypeGives.typeOrName (h : TypeGives s t w ws) {type? : Parse (Option TypeRef)}
    {p : Parser} {r : Word} {rs : List Word} (hp : Poised s type? p (w :: ws ++ r :: rs))
    (hr : endsType r.kind) :
    Gives (typeOrName type?) p (fun x => x.1.erase = t.erase ∧ x.2.map Ident.erase =
      if w.kind = .identifier then t.bareIdent?.map Ident.erase else none) (r :: rs) := by
  refine (gives_peekIs hp.holds .identifier).bind ?_
  rintro _ q₁ rfl h₁
  refine (h.required (hp.of_reaches h₁) hr).bind fun t' q₂ ht' h₂ => .pure h₂.holds ⟨ht', ?_⟩
  have hident : t'.bareIdent?.map Ident.erase = t.bareIdent?.map Ident.erase := by
    rw [← TypeRef.bareIdent_erase, ht', TypeRef.bareIdent_erase]
  by_cases hk : w.kind = .identifier
  · rw [if_pos hk, if_pos (by simpa using hk), hident]
  · rw [if_neg hk, if_neg (by simpa using hk), Option.map_none]

/-- A name is first read as a type. -/
theorem gives_loneIdent {name : Ident} {type? : Parse (Option TypeRef)} {p : Parser} {r : Word}
    {rs : List Word} (hs : 1 ≤ s) (hp : Poised s type? p (.identifier name.name :: r :: rs))
    (hr : r.kind ≠ .delimiter .dot) :
    Gives (typeOrName type?) p (fun x => x.2.map Ident.erase = some name.erase)
      (r :: rs) := by
  obtain ⟨s, rfl⟩ : ∃ n, s = n + 1 := ⟨s - 1, by omega⟩
  refine (gives_peekIs hp.holds .identifier).bind ?_
  rintro _ q₁ rfl h₁
  obtain ⟨room, hready, htype⟩ := (hp.of_reaches h₁).ready
  have htype' := Gives.congr htype (gives_named (n := ⟨none, name⟩) hready hr)
  refine (gives_required htype').bind fun t' q₂ ht' h₂ => .pure h₂.holds ?_
  rw [if_pos (by simp), ← TypeRef.bareIdent_erase, ht']
  rfl

def Entry.erase : Entry → Entry
  | variadic type => variadic type.erase
  | plain type => plain type.erase
  | bare type => bare type.erase
  | named name v type => named name.erase v type.erase

/-- The entry is read from the words. -/
structure EntryGives (s : Nat) (e : Entry) (w : Word) (ws : List Word) : Prop where
  opens : w.kind ≠ .delimiter .rparen
  gives : ∀ type? p r rs, Poised s type? p (w :: ws ++ r :: rs) →
    r.kind ∈ [Kind.delimiter .comma, .delimiter .rparen] →
      Gives (entry type?) p (fun e' => e'.erase = e.erase) (r :: rs)

theorem Entry.lone_of_erase {e : Entry} {name : Ident} (h : e.erase = .lone name) :
    ∃ name', e = .lone name' ∧ name'.erase = name := by
  cases e with
  | bare type =>
    have hname := TypeRef.bareIdent_erase type
    rw [Entry.bare.inj h] at hname
    obtain ⟨name', hbare, rfl⟩ := Option.map_eq_some_iff.1 hname.symm
    exact ⟨name', by rw [TypeRef.eq_of_bareIdent hbare], rfl⟩
  | _ => cases h

theorem EntryGives.mono {e : Entry} (h : EntryGives s e w ws) (hle : s ≤ s') :
    EntryGives s' e w ws :=
  ⟨h.opens, fun type? p r rs hp => h.gives type? p r rs (hp.mono hle)⟩

theorem endsType_of_entry {kind : Kind} (h : kind ∈ [Kind.delimiter .comma, .delimiter .rparen]) :
    endsType kind := by
  simp only [List.mem_cons, List.not_mem_nil, or_false] at h
  rcases h with rfl | rfl <;> exact ⟨by simp, rfl⟩

theorem gives_bareEntry (name : Ident) (hs : 1 ≤ s) :
    EntryGives s (.lone name) (.identifier name.name) [] where
  opens := by simp
  gives type? p r rs hp hr := by
    rw [entry_eq]
    refine (gives_consumeIf_false hp.holds (by simp)).bind ?_
    rintro _ q₁ rfl h₁
    refine (gives_loneIdent hs (hp.of_reaches h₁) (endsType_of_entry hr).1).bind ?_
    rintro ⟨type, ident?⟩ q₂ hi h₂
    obtain ⟨i, rfl, hname⟩ := Option.map_eq_some_iff.1 hi
    refine (gives_peek h₂.holds).bind fun t q₃ ht h₃ => ?_
    have hk : t.kind = r.kind := by rw [← ht, kind_word]
    rw [if_pos (by simpa [hk] using hr)]
    exact .pure h₃.holds (congrArg Entry.lone hname)

theorem gives_variadicEntry (h : TypeGives s t w ws) :
    EntryGives s (.variadic t) (.operator .ellipsis) (w :: ws) where
  opens := by simp
  gives type? p r rs hp hr := by
    rw [entry_eq]
    refine (gives_consumeIf_true hp.holds (by simp) rfl).bind ?_
    rintro _ q₁ rfl h₁
    refine (h.required (hp.of_reaches h₁) (endsType_of_entry hr)).bind fun t' q₂ ht' h₂ => ?_
    exact .pure h₂.holds (by simp [Entry.erase, ht'])

theorem gives_plainEntry (h : TypeGives s t w ws)
    (ht : w.kind = .identifier → t.bareIdent? = none) : EntryGives s (.plain t) w ws where
  opens := h.kind_ne rfl
  gives type? p r rs hp hr := by
    rw [entry_eq]
    refine (gives_consumeIf_false hp.holds (h.kind_ne rfl)).bind ?_
    rintro _ q₁ rfl h₁
    refine (h.typeOrName (hp.of_reaches h₁) (endsType_of_entry hr)).bind ?_
    rintro ⟨t', ident?⟩ q₂ ⟨ht', hi⟩ h₂
    have hnone : ident? = none := by
      rw [← Option.map_eq_none_iff (f := Ident.erase), hi]
      split
      · rename_i hk
        rw [ht hk, Option.map_none]
      · rfl
    subst hnone
    exact .pure h₂.holds (by simpa [Entry.erase] using ht')

theorem gives_namedEntry (name : Ident) (variadic : Bool) (h : TypeGives s t w ws) :
    EntryGives s (.named name variadic t) (.identifier name.name)
      ((if variadic then [.operator .ellipsis] else []) ++ w :: ws) where
  opens := by simp
  gives type? p r rs hp hr := by
    have hends := endsType_of_entry hr
    -- The word behind the name is none that ends the entry.
    obtain ⟨v, vs, hwords, hdot, hcomma, hclose⟩ : ∃ v vs,
        (if variadic then [.operator .ellipsis] else []) ++ w :: ws ++ r :: rs = v :: vs ∧
          v.kind ≠ .delimiter .dot ∧ v.kind ≠ .delimiter .comma ∧ v.kind ≠ .delimiter .rparen := by
      cases variadic with
      | true => exact ⟨_, _, rfl, by simp, by simp, by simp⟩
      | false => exact ⟨w, _, rfl, h.kind_ne rfl, h.kind_ne rfl, h.kind_ne rfl⟩
    have hmark : ∀ q, Reaches p q (v :: vs) → Gives (consumeIf (.operator .ellipsis)) q
        (fun b => b = variadic) (w :: ws ++ r :: rs) := by
      intro q hq
      have hholds := hq.holds
      rw [← hwords] at hholds
      cases variadic with
      | true => exact gives_consumeIf_true hholds (by simp) rfl
      | false => exact gives_consumeIf_false hholds (h.kind_ne rfl)
    rw [List.cons_append, hwords] at hp
    rw [entry_eq]
    refine (gives_consumeIf_false hp.holds (by simp)).bind ?_
    rintro _ q₁ rfl h₁
    refine (gives_loneIdent h.pos (hp.of_reaches h₁) hdot).bind ?_
    rintro ⟨type, ident?⟩ q₂ hi h₂
    obtain ⟨i, rfl, hname⟩ := Option.map_eq_some_iff.1 hi
    refine (gives_peek h₂.holds).bind fun t' q₃ ht' h₃ => ?_
    have hk : t'.kind = v.kind := by rw [← ht', kind_word]
    rw [if_neg (by simp [hk, hcomma, hclose])]
    have hq₃ := (h₁.trans h₂).trans h₃
    refine (hmark q₃ hq₃).bind ?_
    rintro _ q₄ rfl h₄
    refine (h.required (hp.of_reaches (hq₃.trans h₄)) hends).bind fun t'' q₅ ht'' h₅ => ?_
    exact .pure h₅.holds (by simp [Entry.erase, hname, ht''])

end Entries

namespace Entry

variable {es es₀ : List Entry}

@[simp] theorem isVariadic_erase (e : Entry) : e.erase.isVariadic = e.isVariadic := by
  cases e <;> rfl

@[simp] theorem isNamed_erase (e : Entry) : e.erase.isNamed = e.isNamed := by
  cases e <;> rfl

theorem unnamed_erase (e : Entry) : e.erase.unnamed = e.unnamed.erase := by
  cases e <;> rfl

theorem earlyVariadic?_erase (es : List Entry) :
    earlyVariadic? (es.map erase) = (earlyVariadic? es).map erase := by
  fun_induction earlyVariadic? es with
  | case1 => rfl
  | case2 => rfl
  | case3 e es hne hv =>
    cases es with
    | nil => exact absurd rfl hne
    | cons d es => simp [earlyVariadic?, hv]
  | case4 e es hne hv ih =>
    cases es with
    | nil => exact absurd rfl hne
    | cons d es => simpa [earlyVariadic?, hv] using ih

theorem earlyVariadic?_congr (he : es.map erase = es₀.map erase) (h : VariadicLast es₀) :
    earlyVariadic? es = none := by
  rw [← Option.map_eq_none_iff, ← earlyVariadic?_erase, he, earlyVariadic?_erase,
    variadicLast_iff.1 h, Option.map_none]

theorem any_isNamed_congr (he : es.map erase = es₀.map erase) :
    es.any isNamed = es₀.any isNamed := by
  have herase : ∀ l : List Entry, (l.map erase).any isNamed = l.any isNamed := by
    intro l
    rw [List.any_map, show isNamed ∘ erase = isNamed from funext isNamed_erase]
  rw [← herase es, he, herase]

theorem unnamed_congr (he : es.map erase = es₀.map erase) :
    (es.map unnamed).map Param.erase = (es₀.map unnamed).map Param.erase := by
  calc (es.map unnamed).map Param.erase
      = (es.map erase).map unnamed := by simp [unnamed_erase, Function.comp_def]
    _ = (es₀.map unnamed).map Param.erase := by
      rw [he]
      simp [unnamed_erase, Function.comp_def]

end Entry

section Lists

open Entry

variable {es es₀ : List Entry} {ps : List Param} {c : Option TypeRef} {p : Parser} {r : Word}
  {rs : List Word} {namesRequired : Bool}

/-- Positions make no difference to what entries come to. -/
theorem gives_resolve (h : Resolves es₀ ps c) (he : es.map Entry.erase = es₀.map Entry.erase)
    (hp : p.Holds ws) : Gives (resolve es) p (fun x => x.1.map Param.erase = ps.map Param.erase ∧
      x.2.map TypeRef.erase = c.map TypeRef.erase) ws := by
  induction h generalizing es with
  | nil =>
    obtain rfl := List.map_eq_nil_iff.1 he
    exact .pure hp ⟨rfl, rfl⟩
  | named name v type _ ih =>
    obtain ⟨e, es, rfl, hhead, htail⟩ := List.map_eq_cons_iff.1 he
    refine (ih htail).bind ?_
    rintro ⟨ps', c'⟩ q ⟨hps, -⟩ hq
    cases e with
    | named name' v' type' =>
      simp only [Entry.erase, Entry.named.injEq] at hhead
      obtain ⟨hname, rfl, htype⟩ := hhead
      refine .pure hq.holds ⟨?_, congrArg some htype⟩
      simpa [Param.erase, hname, htype] using hps
    | _ => cases hhead
  | bare name _ ih =>
    obtain ⟨e, es, rfl, hhead, htail⟩ := List.map_eq_cons_iff.1 he
    refine (ih htail).bind ?_
    rintro ⟨ps', c'⟩ q ⟨hps, hc⟩ hq
    obtain ⟨name', rfl, hname⟩ := Entry.lone_of_erase hhead
    obtain ⟨type', rfl, htype⟩ := Option.map_eq_some_iff.1 hc
    refine (gives_note hq.holds _).bind fun _ q₁ _ h₁ => .pure h₁.holds ⟨?_, hc⟩
    simpa [Param.erase, hname, htype] using hps

theorem gives_params {start : Position} (h : Settles namesRequired es₀ ps)
    (he : es.map Entry.erase = es₀.map Entry.erase) (hp : p.Holds ws) :
    Gives (params start namesRequired es) p (fun ps' => ps'.map Param.erase = ps.map Param.erase)
      ws := by
  cases h with
  | types hv hn hr =>
    have hnamed : es₀.any isNamed = false := Bool.eq_false_iff.2 fun h => hn (any_isNamed_iff.1 h)
    have hempty : (namesRequired && !es.isEmpty) = false := by
      cases namesRequired with
      | false => rfl
      | true =>
        obtain rfl := hr rfl
        obtain rfl := List.map_eq_nil_iff.1 he
        rfl
    rw [params_of_unnamed start namesRequired (earlyVariadic?_congr he hv)
      ((any_isNamed_congr he).trans hnamed), hempty]
    exact .pure hp (unnamed_congr he)
  | names hv hn hres =>
    rw [params_of_named start namesRequired (earlyVariadic?_congr he hv)
      ((any_isNamed_congr he).trans (any_isNamed_iff.2 hn))]
    exact (gives_resolve hres he hp).map fun x hx => hx.1

/-- The list is read from the words, behind the parenthesis that it opens with. -/
structure ListGives (s : Nat) (namesRequired : Bool) (l : ParamList) (ws : List Word) : Prop where
  pos : 1 ≤ s
  gives : ∀ type? p r rs, Poised s type? p (.delimiter .lparen :: ws ++ r :: rs) →
    Gives (paramList type? namesRequired) p (fun l' => l'.erase = l.erase) (r :: rs)

theorem ListGives.mono {l : ParamList} (h : ListGives s namesRequired l ws) (hle : s ≤ s') :
    ListGives s' namesRequired l ws :=
  ⟨Nat.le_trans h.pos hle, fun type? p r rs hp => h.gives type? p r rs (hp.mono hle)⟩

theorem gives_paramList {start stop : Position} {pairs : List (Entry × List Word)}
    {us : List Word} (h : ∀ i ∈ pairs, ∃ w ws, i.2 = w :: ws ∧ EntryGives s i.1 w ws)
    (hs : Separated (.delimiter .comma) (pairs.map Prod.snd) us)
    (hps : Settles namesRequired (pairs.map Prod.fst) ps) :
    ListGives (s + 1) namesRequired ⟨start, ps, stop⟩ (us ++ [.delimiter .rparen]) where
  pos := Nat.le_add_left 1 s
  gives type? p r rs hp := by
    refine .nested (Nat.le_trans (Nat.le_add_left 1 s) hp.deep) ?_
    have hin := hp.inside
    refine (gives_require _ hin.holds (by simp) (by simp)).bind fun opening q₁ _ h₁ => ?_
    have hentries : Gives (commaList (.delimiter .rparen) (entry type?)) q₁
        (fun es => es.map Entry.erase = (pairs.map fun i => (i.2, i.1.erase)).map Prod.snd)
        (.delimiter .rparen :: r :: rs) := by
      refine Gives.commaList (by simpa [Function.comp_def] using hs) (by simpa using h₁.holds) rfl
        (by simp) ?_
      intro i hi
      obtain ⟨j, hj, rfl⟩ := List.mem_map.1 hi
      obtain ⟨v, vs, hv, hgives⟩ := h j hj
      exact ⟨v, vs, hv, hgives.opens, fun q r' rs' hq hr' =>
        hgives.gives type? q r' rs' (hin.of_reaches (h₁.trans hq)) hr'⟩
    refine hentries.bind fun es q₂ hes h₂ => ?_
    refine (gives_require _ h₂.holds (by simp) (by simp)).bind fun closing q₃ _ h₃ => ?_
    have he : es.map Entry.erase = (pairs.map Prod.fst).map Entry.erase := by
      simpa [Function.comp_def] using hes
    refine (gives_params hps he h₃.holds).bind fun ps' q₄ hps' h₄ => .pure h₄.holds ?_
    simp only [ParamList.erase, Param.eraseAll_eq_map, hps']

end Lists

section Signatures

variable {l : ParamList} {namesRequired : Bool}

/-- The results are read from the words. -/
structure ResultGives (s : Nat) (l : ParamList) (w : Word) (ws : List Word) : Prop where
  gives : ∀ type? p r rs, Poised s type? p (w :: ws ++ r :: rs) → endsType r.kind →
    Gives (results type?) p (fun o => o.map ParamList.erase = some l.erase) (r :: rs)

theorem ResultGives.mono (h : ResultGives s l w ws) (hle : s ≤ s') : ResultGives s' l w ws :=
  ⟨fun type? p r rs hp => h.gives type? p r rs (hp.mono hle)⟩

theorem gives_bareResult {start stop : Position} (h : TypeGives s t w ws)
    (hw : w.kind ≠ .delimiter .lparen) :
    ResultGives s ⟨start, [⟨none, false, false, t⟩], stop⟩ w ws where
  gives type? p r rs hp hr := by
    refine (gives_peekIs hp.holds (.delimiter .lparen)).bind ?_
    rintro _ q₁ rfl h₁
    rw [if_neg (by simpa using hw)]
    refine (h.found (hp.of_reaches h₁) hr).bind fun o q₂ ho h₂ => ?_
    obtain ⟨t', rfl, ht'⟩ := Option.map_eq_some_iff.1 ho
    exact .pure h₂.holds (by simp [ParamList.erase, Param.erase, ht'])

theorem gives_listResult (h : ListGives s false l ws) :
    ResultGives s l (.delimiter .lparen) ws where
  gives type? p r rs hp hr := by
    refine (gives_peekIs hp.holds (.delimiter .lparen)).bind ?_
    rintro _ q₁ rfl h₁
    rw [if_pos (by simp)]
    exact (h.gives type? q₁ r rs (hp.of_reaches h₁)).map fun l' hl' => by simp [hl']

/-- There is no type where a token opens none. -/
theorem gives_noType {type? : Parse (Option TypeRef)} {p : Parser} {r : Word} {rs : List Word}
    (hs : 1 ≤ s) (hp : Poised s type? p (r :: rs)) (hr : opensType r.kind = false) :
    Gives type? p (fun o => o = none) (r :: rs) := by
  obtain ⟨s, rfl⟩ : ∃ n, s = n + 1 := ⟨s - 1, by omega⟩
  obtain ⟨room, hready, htype⟩ := hp.ready
  refine .congr htype (gives_typeRule hready fun room q hq => ?_)
  refine (gives_peek hq.holds).bind fun t' q₁ ht' h₁ => ?_
  have hk : opensType t'.kind = false := by rw [← kind_word, ht', hr]
  split
  any_goals
    rename_i hk'
    rw [hk'] at hk
    cases hk
  exact .pure h₁.holds rfl

theorem gives_noResult {type? : Parse (Option TypeRef)} {p : Parser} {r : Word} {rs : List Word}
    (hs : 1 ≤ s) (hp : Poised s type? p (r :: rs)) (hr : endsType r.kind) :
    Gives (results type?) p (fun o => o = none) (r :: rs) := by
  refine (gives_peekIs hp.holds (.delimiter .lparen)).bind ?_
  rintro _ q₁ rfl h₁
  have hparen : r.kind ≠ .delimiter .lparen := by
    intro hk
    have hopens := hr.2
    rw [hk] at hopens
    cases hopens
  rw [if_neg (by simpa using hparen)]
  refine (gives_noType hs (hp.of_reaches h₁) hr.2).bind ?_
  rintro _ q₂ rfl h₂
  exact .pure h₂.holds rfl

/-- The signature is read from the words, behind the parenthesis that it opens with. -/
structure SignatureGives (s : Nat) (namesRequired : Bool) (x : Signature) (ws : List Word) :
    Prop where
  gives : ∀ type? p r rs, Poised s type? p (.delimiter .lparen :: ws ++ r :: rs) →
    endsType r.kind →
      Gives (signature type? namesRequired) p (fun x' => x'.erase = x.erase) (r :: rs)

theorem SignatureGives.mono {x : Signature} (h : SignatureGives s namesRequired x ws)
    (hle : s ≤ s') : SignatureGives s' namesRequired x ws :=
  ⟨fun type? p r rs hp => h.gives type? p r rs (hp.mono hle)⟩

theorem gives_signature (h : ListGives s namesRequired l ws) :
    SignatureGives (s + 1) namesRequired ⟨l, none⟩ ws where
  gives type? p r rs hp hr := by
    refine .nested (Nat.le_trans (Nat.le_add_left 1 s) hp.deep) ?_
    refine (h.gives type? _ r rs hp.inside).bind fun args q₁ hargs h₁ => ?_
    refine (gives_noResult h.pos (hp.inside.of_reaches h₁) hr).bind ?_
    rintro _ q₂ rfl h₂
    exact .pure h₂.holds (by simp [Signature.erase, hargs])

theorem gives_signature_results {l' : ParamList} (h : ListGives s namesRequired l ws)
    (h' : ResultGives s l' v vs) :
    SignatureGives (s + 1) namesRequired ⟨l, some l'⟩ (ws ++ v :: vs) where
  gives type? p r rs hp hr := by
    refine .nested (Nat.le_trans (Nat.le_add_left 1 s) hp.deep) ?_
    have hin := hp.inside
    rw [← List.cons_append, List.append_assoc] at hin
    refine (h.gives type? _ v (vs ++ r :: rs) hin).bind fun args q₁ hargs h₁ => ?_
    refine (h'.gives type? q₁ r rs (hin.of_reaches h₁) hr).bind fun o q₂ ho h₂ => ?_
    obtain ⟨results, rfl, hresults⟩ := Option.map_eq_some_iff.1 ho
    exact .pure h₂.holds (by simp [Signature.erase, hargs, hresults])

end Signatures

end Parse
end GoSyntax
