import GoSyntax.Proofs.Grammar.TypeGives
import GoSyntax.Proofs.Grammar.TypeTakes

/-! The rules for types accept exactly the grammar of types, which is unambiguous. -/
namespace GoSyntax
namespace Parse

open GoSyntax.Parser Entry

variable {s s' : Nat} {t : TypeRef} {w : Word} {ws : List Word} {phrase : Phrase}

/-- What reading comes to for each phrase. A type can stand as a result as well. -/
def Readable (s : Nat) : Phrase → List Word → Prop
  | .type t, ws => ∃ w vs, ws = w :: vs ∧ TypeGives s t w vs ∧
    ∀ start stop, ResultGives s ⟨start, [⟨none, false, false, t⟩], stop⟩ w vs
  | .field f, ws => ∃ w vs, ws = w :: vs ∧ FieldGives s f w vs
  | .elem e, ws => ∃ w vs, ws = w :: vs ∧ ElemGives s e w vs
  | .entry e, ws => ∃ w vs, ws = w :: vs ∧ EntryGives s e w vs
  | .params l, ws => ∃ vs, ws = .delimiter .lparen :: vs ∧ ListGives s false l vs
  | .results none, ws => ws = []
  | .results (some l), ws => ∃ w vs, ws = w :: vs ∧ ResultGives s l w vs
  | .signature x, ws => ∃ vs, ws = .delimiter .lparen :: vs ∧ SignatureGives s false x vs

theorem Readable.mono (h : Readable s phrase ws) (hle : s ≤ s') : Readable s' phrase ws := by
  cases phrase with
  | type t =>
    obtain ⟨w, vs, hw, ht, hr⟩ := h
    exact ⟨w, vs, hw, ht.mono hle, fun start stop => (hr start stop).mono hle⟩
  | field f =>
    obtain ⟨w, vs, hw, hf⟩ := h
    exact ⟨w, vs, hw, hf.mono hle⟩
  | elem e =>
    obtain ⟨w, vs, hw, he⟩ := h
    exact ⟨w, vs, hw, he.mono hle⟩
  | entry e =>
    obtain ⟨w, vs, hw, he⟩ := h
    exact ⟨w, vs, hw, he.mono hle⟩
  | params l =>
    obtain ⟨vs, hw, hl⟩ := h
    exact ⟨vs, hw, hl.mono hle⟩
  | results o =>
    cases o with
    | none => exact h
    | some l =>
      obtain ⟨w, vs, hw, hl⟩ := h
      exact ⟨w, vs, hw, hl.mono hle⟩
  | signature x =>
    obtain ⟨vs, hw, hx⟩ := h
    exact ⟨vs, hw, hx.mono hle⟩

theorem readable_type (h : TypeGives s t w ws) (hw : w.kind ≠ .delimiter .lparen) :
    Readable s (.type t) (w :: ws) :=
  ⟨w, ws, rfl, h, fun _ _ => gives_bareResult h hw⟩

/-- A type that is no lone identifier, though it may open with one. -/
theorem bareIdent_of_ne (h : Derives (.type t) (w :: ws))
    (hne : ∀ name, w :: ws ≠ [.identifier name]) (hk : w.kind = .identifier) :
    t.bareIdent? = none := by
  obtain ⟨⟨package, name⟩, rfl, hwords⟩ := h.of_identifier hk
  cases package with
  | none => exact absurd hwords (hne name.name)
  | some package => rfl

/-- A type that stands alone in parentheses is read as a list of one entry. -/
theorem gives_parenResult {start stop : Position} (h : Derives (.type t) (w :: ws))
    (ht : TypeGives s t w ws) :
    ResultGives (s + 1) ⟨start, [⟨none, false, false, t⟩], stop⟩ (.delimiter .lparen)
      (w :: ws ++ [.delimiter .rparen]) := by
  obtain ⟨e, he, hnamed, hunnamed⟩ : ∃ e, EntryGives s e w ws ∧ ¬HasNamed [e] ∧
      e.unnamed = ⟨none, false, false, t⟩ := by
    by_cases hname : ∃ name, w :: ws = [.identifier name]
    · obtain ⟨name, hname⟩ := hname
      cases hname
      obtain ⟨⟨package, i⟩, rfl, hwords⟩ := h.of_identifier rfl
      cases package with
      | none =>
        cases hwords
        exact ⟨.lone i, gives_bareEntry i ht.pos, by simp [HasNamed, isNamed], rfl⟩
      | some package => simp [nameWords] at hwords
    · have hne : ∀ name, w :: ws ≠ [.identifier name] := fun name hw => hname ⟨name, hw⟩
      refine ⟨.plain t, gives_plainEntry ht (bareIdent_of_ne h hne), ?_, rfl⟩
      simp [HasNamed, isNamed]
  have hsettles : Settles false [e] [e.unnamed] := .types (variadicLast_iff.2 rfl) hnamed (by simp)
  rw [hunnamed] at hsettles
  have hentry : ∀ i ∈ [(e, w :: ws)], ∃ v vs, i.2 = v :: vs ∧ EntryGives s i.1 v vs := by
    intro i hi
    obtain rfl := List.mem_singleton.1 hi
    exact ⟨w, ws, rfl, he⟩
  exact gives_listResult (gives_paramList hentry (.last _) hsettles)

/-- Every phrase is read from the words that derive it, where there are levels enough. -/
theorem readable_of_derives (h : Derives phrase ws) : ∃ s, Readable s phrase ws := by
  induction h with
  | named n =>
    obtain ⟨w, vs, hw, hk⟩ := nameWords_eq n
    rw [hw]
    exact ⟨1, readable_type (gives_name hw) (by simp [hk])⟩
  | paren h ih =>
    -- As a result, the same words are read as a list in parentheses.
    obtain ⟨s, w, vs, rfl, ht, -⟩ := ih
    exact ⟨s + 1, _, _, rfl, gives_parenType ht, fun _ _ => gives_parenResult h ht⟩
  | slice start _ ih =>
    obtain ⟨s, w, vs, rfl, ht, -⟩ := ih
    exact ⟨s + 1, readable_type (gives_slice ht) (by simp)⟩
  | ellipsisArray start _ ih =>
    obtain ⟨s, w, vs, rfl, ht, -⟩ := ih
    exact ⟨s + 1, readable_type (gives_ellipsisArray ht) (by simp)⟩
  | array start hl hy _ ih =>
    obtain ⟨s₁, hfits⟩ := Expr.canonical_iff_fits.1 hl
    obtain ⟨s₂, hs₂⟩ := ih
    obtain ⟨w, vs, rfl, ht, -⟩ := hs₂.mono (Nat.le_max_right s₁ s₂)
    obtain ⟨v, us, rfl, hlength⟩ := Expr.gives_of_fits (hfits.mono (Nat.le_max_left s₁ s₂)) hy
    exact ⟨max s₁ s₂ + 1, readable_type (gives_array hlength ht) (by simp)⟩
  | pointer start _ ih =>
    obtain ⟨s, w, vs, rfl, ht, -⟩ := ih
    exact ⟨s + 1, readable_type (gives_pointer ht) (by simp)⟩
  | map start _ _ ihk ih =>
    obtain ⟨s₁, hs₁⟩ := ihk
    obtain ⟨s₂, hs₂⟩ := ih
    obtain ⟨v, us, rfl, hkey, -⟩ := hs₁.mono (Nat.le_max_left s₁ s₂)
    obtain ⟨w, vs, rfl, ht, -⟩ := hs₂.mono (Nat.le_max_right s₁ s₂)
    exact ⟨max s₁ s₂ + 1, readable_type (gives_map hkey ht) (by simp)⟩
  | func start _ ih =>
    obtain ⟨s, vs, rfl, hx⟩ := ih
    exact ⟨s + 1, readable_type (gives_func hx) (by simp)⟩
  | chanSend start _ ih =>
    obtain ⟨s, w, vs, rfl, ht, -⟩ := ih
    exact ⟨s + 1, readable_type (gives_chan_send ht) (by simp)⟩
  | chanBoth start _ hw ih =>
    obtain ⟨s, w, vs, rfl, ht, -⟩ := ih
    exact ⟨s + 1, readable_type (gives_chan_both ht (hw w rfl)) (by simp)⟩
  | chanRecv start _ ih =>
    obtain ⟨s, w, vs, rfl, ht, -⟩ := ih
    exact ⟨s + 1, readable_type (gives_chan_recv ht) (by simp)⟩
  | struct start stop _ hsep ih =>
    obtain ⟨s, hs⟩ := exists_common ih fun _ _ _ hle h => Readable.mono h hle
    exact ⟨s + 2, readable_type (gives_struct hs hsep) (by simp)⟩
  | interface start stop _ hsep ih =>
    obtain ⟨s, hs⟩ := exists_common ih fun _ _ _ hle h => Readable.mono h hle
    exact ⟨s + 2, readable_type (gives_interface hs hsep) (by simp)⟩
  | namedField name names _ htag ih =>
    obtain ⟨s, w, vs, rfl, ht, -⟩ := ih
    exact ⟨s, _, _, rfl, gives_namedField name names ht htag⟩
  | embeddedField _ htag ih =>
    obtain ⟨s, w, vs, rfl, ht, -⟩ := ih
    exact ⟨s, _, _, rfl, gives_embeddedField ht htag⟩
  | method name _ ih =>
    obtain ⟨s, vs, rfl, hx⟩ := ih
    exact ⟨s, _, _, rfl, gives_method name hx⟩
  | embeddedElem n =>
    obtain ⟨w, vs, hw, -⟩ := nameWords_eq n
    exact ⟨0, w, vs, hw, gives_embeddedElem hw⟩
  | variadic _ ih =>
    obtain ⟨s, w, vs, rfl, ht, -⟩ := ih
    exact ⟨s, _, _, rfl, gives_variadicEntry ht⟩
  | plain h hne ih =>
    obtain ⟨s, w, vs, rfl, ht, -⟩ := ih
    exact ⟨s, w, vs, rfl, gives_plainEntry ht (bareIdent_of_ne h hne)⟩
  | bare name => exact ⟨1, _, _, rfl, gives_bareEntry name (Nat.le_refl 1)⟩
  | namedEntry name _ ih =>
    obtain ⟨s, w, vs, rfl, ht, -⟩ := ih
    exact ⟨s, _, _, rfl, gives_namedEntry name false ht⟩
  | namedVariadic name _ ih =>
    obtain ⟨s, w, vs, rfl, ht, -⟩ := ih
    exact ⟨s, _, _, rfl, gives_namedEntry name true ht⟩
  | params start stop _ hsep hsettles ih =>
    obtain ⟨s, hs⟩ := exists_common ih fun _ _ _ hle h => Readable.mono h hle
    exact ⟨s + 1, _, rfl, gives_paramList hs hsep hsettles⟩
  | noResult => exact ⟨0, rfl⟩
  | listResult _ ih =>
    obtain ⟨s, vs, rfl, hl⟩ := ih
    exact ⟨s, _, _, rfl, gives_listResult hl⟩
  | bareResult start stop _ ih =>
    obtain ⟨s, w, vs, rfl, -, hr⟩ := ih
    exact ⟨s, w, vs, rfl, hr start stop⟩
  | @signature args results _ _ _ _ iha ihr =>
    obtain ⟨s₁, hs₁⟩ := iha
    obtain ⟨s₂, hs₂⟩ := ihr
    obtain ⟨us, rfl, hargs⟩ := hs₁.mono (Nat.le_max_left s₁ s₂)
    cases results with
    | none =>
      obtain rfl : _ = [] := hs₂
      exact ⟨_, us, List.append_nil _, gives_signature hargs⟩
    | some l =>
      obtain ⟨w, vs, rfl, hl⟩ := hs₂.mono (Nat.le_max_right s₁ s₂)
      exact ⟨_, _, rfl, gives_signature_results hargs hl⟩

/-- A type is read up to a token that no type goes on with. -/
theorem gives_type {p : Parser} {r : Word} {rs : List Word} (h : Readable s (.type t) ws)
    (hs : s ≤ p.room) (hp : p.Holds (ws ++ r :: rs)) (hr : endsType r.kind) :
    Gives type p (fun t' => t'.erase = t.erase) (r :: rs) := by
  obtain ⟨w, vs, rfl, ht, -⟩ := h
  exact ht.required (poised_type hs hp) hr

end Parse

open Parse

/-- The kinds of tokens that may follow a type. -/
def Kind.followsType (kind : Kind) : Bool :=
  kind.isString || [.endOfFile, .delimiter .comma, .delimiter .rparen, .delimiter .rbracket,
    .delimiter .rbrace, .delimiter .semicolon, .delimiter .lbrace].contains kind

theorem endsType_of_followsType {kind : Kind} (h : kind.followsType = true) : endsType kind := by
  simp only [Kind.followsType, Bool.or_eq_true, List.contains_iff_mem, List.mem_cons,
    List.not_mem_nil, or_false] at h
  rcases h with h | rfl | rfl | rfl | rfl | rfl | rfl | rfl
  · cases kind with
    | literal form => exact ⟨by simp, rfl⟩
    | _ => cases h
  all_goals exact ⟨by simp, rfl⟩

/-- A parser with just these tokens ahead. -/
def Parser.ofTokens (limit : Nat) (w : List Token) (r : Token) : Parser :=
  match w with
  | [] => ⟨[], r, true, 0, limit, 0, []⟩
  | t :: w => ⟨(w ++ [r]).map fun u => ⟨[], .ok u, true⟩, t, true, 0, limit, 0, []⟩

theorem Parser.stream_ofTokens (limit : Nat) (w : List Token) (r : Token) :
    (ofTokens limit w r).stream = (w ++ [r]).map .ok := by
  cases w with
  | nil => rfl
  | cons t w => simp [ofTokens, stream, Function.comp_def]

theorem Parser.room_ofTokens (limit : Nat) (w : List Token) (r : Token) :
    (ofTokens limit w r).room = limit := by
  cases w <;> rfl

/-- What was derived is what is read, so no words derive two types. -/
theorem derives_unique {w : List Token} {u u' : TypeRef}
    (h : Derives (.type u) (w.map Token.word)) (h' : Derives (.type u') (w.map Token.word)) :
    u.erase = u'.erase := by
  obtain ⟨s, hs⟩ := readable_of_derives h
  obtain ⟨s', hs'⟩ := readable_of_derives h'
  let last : Token := .emptyAt (.origin "") .endOfFile
  let p : Parser := .ofTokens (max s s') w last
  have hholds : p.Holds (w.map Token.word ++ [last.word]) := by
    have hstream := Parser.stream_ofTokens (max s s') w last
    simpa using (Parser.holds_of_stream (hstream.trans (List.append_nil _).symm) (by simp) rfl).1
  have hroom : p.room = max s s' := Parser.room_ofTokens _ _ _
  have hends : endsType last.word.kind := ⟨by decide, by decide⟩
  have hle : s ≤ p.room := by rw [hroom]; exact Nat.le_max_left s s'
  have hle' : s' ≤ p.room := by rw [hroom]; exact Nat.le_max_right s s'
  obtain ⟨t, q, ht, htu, -⟩ := gives_type hs hle hholds hends
  obtain ⟨t', q', ht', htu', -⟩ := gives_type hs' hle' hholds hends
  rw [ht] at ht'
  cases ht'
  exact htu.symm.trans htu'

section Streams

variable {p q : Parser} {w : List Token} {r : Token} {rest : List (Except Error Token)}

/-- Tokens come before the first flaw. -/
theorem exists_tokens (l : List (Except Error Token)) : ∃ (ts : List Token) (flawed : List _),
    l = ts.map .ok ++ flawed ∧ flawed.dropWhile Except.isOk = flawed := by
  induction l with
  | nil => exact ⟨[], [], rfl, rfl⟩
  | cons x l ih =>
    cases x with
    | error e => exact ⟨[], .error e :: l, rfl, rfl⟩
    | ok t =>
      obtain ⟨ts, flawed, rfl, hflawed⟩ := ih
      exact ⟨t :: ts, flawed, rfl, hflawed⟩

/-- What is taken in front of the rest derives what is given. -/
theorem derives_of_type {t : TypeRef} (hp : p.Good) (hs : p.stream = w.map .ok ++ rest)
    (h : Parse.type p = .ok t q) (hq : q.stream = rest) : Derives (.type t) (w.map Token.word) := by
  obtain ⟨_, ⟨ts, hts, rfl⟩, hderives⟩ := takes_type hp t q h
  rw [hs, hq] at hts
  have hmap := List.append_cancel_right hts
  rwa [(List.map_inj_right fun _ _ => Except.ok.inj).1 hmap]

/-- Words that derive a type are read as that type, up to what follows them. -/
theorem type_of_derives {s : Nat} {t : TypeRef} (h : Readable s (.type t) (w.map Token.word))
    (hp : p.Good) (hs : p.stream = w.map .ok ++ .ok r :: rest) (hr : endsType r.kind)
    (hroom : s ≤ p.room) :
    ∃ t' q, Parse.type p = .ok t' q ∧ t'.erase = t.erase ∧ q.stream = .ok r :: rest := by
  obtain ⟨us, flawed, rfl, hflawed⟩ := exists_tokens rest
  have hstream : p.stream = (w ++ r :: us).map .ok ++ flawed := by simpa using hs
  obtain ⟨hholds, hbeyond⟩ := Parser.holds_of_stream hstream (by simp) hflawed
  rw [List.map_append, List.map_cons] at hholds
  obtain ⟨t', q, htype, herase, hq⟩ := gives_type h hroom hholds (by rwa [Parser.kind_word])
  refine ⟨t', q, htype, herase, ?_⟩
  obtain ⟨_, htaken, -⟩ := takes_type hp t' q htype
  refine htaken.stream_eq hs ?_
  have hlen := hq.holds.length
  rw [hq.beyond, hbeyond] at hlen
  simpa [Parser.stream, Nat.add_right_comm] using hlen

end Streams

/-- Before a token that may follow a type, just the trees that the tokens derive are read from them,
up to positions, if enough levels can be opened. No tokens derive two trees. -/
theorem types_exact :
    (∀ (p : Parser) (w : List Token) (r : Token) (rest : List (Except Error Token)), p.Good →
      p.stream = w.map .ok ++ .ok r :: rest → r.kind.followsType = true →
      ∃ n, ∀ limit, n ≤ limit → ∀ t : TypeRef,
        (∃ t' q, Parse.type { p with limit } = .ok t' q ∧ t'.erase = t.erase ∧
          q.stream = .ok r :: rest) ↔
        ∃ t', t'.erase = t.erase ∧ Derives (.type t') (w.map Token.word)) ∧
    ∀ (w : List Token) (t t' : TypeRef), Derives (.type t) (w.map Token.word) →
      Derives (.type t') (w.map Token.word) → t.erase = t'.erase := by
  refine ⟨fun p w r rest hp hs hr => ?_, fun w t t' => derives_unique⟩
  have hgood : ∀ limit, { p with limit }.Good := fun limit => ⟨hp.peek, hp.ahead, hp.final⟩
  have hsound : ∀ limit (t : TypeRef), (∃ t' q, Parse.type { p with limit } = .ok t' q ∧
      t'.erase = t.erase ∧ q.stream = .ok r :: rest) →
        ∃ t', t'.erase = t.erase ∧ Derives (.type t') (w.map Token.word) := by
    rintro limit t ⟨t', q, htype, herase, hq⟩
    exact ⟨t', herase, derives_of_type (hgood limit) hs htype hq⟩
  -- The levels that one derivation asks for are enough, as there is no other tree.
  by_cases hder : ∃ u, Derives (.type u) (w.map Token.word)
  · obtain ⟨u, hu⟩ := hder
    obtain ⟨s, hread⟩ := readable_of_derives hu
    refine ⟨s + p.depth, fun limit hle t => ⟨hsound limit t, ?_⟩⟩
    rintro ⟨t', herase, ht'⟩
    have hroom : s ≤ { p with limit }.room := by
      simp only [Parser.room]
      omega
    obtain ⟨t'', q, htype, herase', hq⟩ :=
      type_of_derives hread (hgood limit) hs (endsType_of_followsType hr) hroom
    exact ⟨t'', q, htype, herase'.trans ((derives_unique hu ht').trans herase), hq⟩
  · refine ⟨0, fun limit _ t => ⟨hsound limit t, ?_⟩⟩
    rintro ⟨t', -, ht'⟩
    exact absurd ⟨t', ht'⟩ hder

/-- The name of a type that is one letter. -/
def letterType (c : Char) : TypeRef := .named ⟨none, [c], .nowhere⟩

/-- A function of two parameters, the first without a type of its own, with a result. -/
def pairFunc : TypeRef :=
  .func .nowhere ⟨⟨.nowhere, [⟨some ⟨['a'], .nowhere⟩, true, false, letterType 'T'⟩,
    ⟨some ⟨['b'], .nowhere⟩, false, false, letterType 'T'⟩], .nowhere⟩,
    some ⟨.nowhere, [⟨none, false, false, letterType 'T'⟩], .nowhere⟩⟩

/-- The words of `func(a, b T) (T)`. -/
def pairFuncWords : List Word :=
  [.keyword .funcKw, .delimiter .lparen, .identifier ['a'], .delimiter .comma, .identifier ['b'],
    .identifier ['T'], .delimiter .rparen, .delimiter .lparen, .identifier ['T'],
    .delimiter .rparen]

theorem derives_pairFunc : Derives (.type pairFunc) pairFuncWords := by
  have htype : Derives (.type (letterType 'T')) [.identifier ['T']] := .named _
  have hentries : ∀ i ∈ [(Entry.lone ⟨['a'], .nowhere⟩, [Word.identifier ['a']]),
      (Entry.named ⟨['b'], .nowhere⟩ false (letterType 'T'),
        [Word.identifier ['b'], .identifier ['T']])], Derives (.entry i.1) i.2 := by
    simpa using ⟨.bare _, .namedEntry _ htype⟩
  have hnamed := Entry.any_isNamed_iff.1 (rfl : [Entry.lone ⟨['a'], .nowhere⟩,
    .named ⟨['b'], .nowhere⟩ false (letterType 'T')].any Entry.isNamed = true)
  have hparams := Derives.params .nowhere .nowhere hentries (.cons _ (.last _))
    (.names (Entry.variadicLast_iff.2 rfl) hnamed (.bare _ (.named _ _ _ .nil)))
  exact .func .nowhere (.signature hparams (.bareResult .nowhere .nowhere htype.paren))

theorem spells_pairFunc : Spells false "func(a, b T) (T)".toList pairFuncWords true [] := by
  have hT : (Word.identifier ['T']).Stands := Word.stands_letter (by decide) rfl
  have hresult := (spelled_identifier hT false [')'] (by simp; decide)).trans
    (.close (d := .rparen) rfl rfl rfl [])
  have hclose : Spells true (')' :: ' ' :: '(' :: _) _ true [] :=
    .mark (d := .rparen) rfl rfl (.blank (.mark (d := .lparen) rfl rfl hresult))
  have htype := (spelled_identifier hT true _ (by simp; decide)).trans hclose
  have hsecond := (spelled_identifier (Word.stands_letter (c := 'b') (by decide) rfl) false _
    (by simp; decide)).trans htype.blank
  have hcomma : Spells true (',' :: ' ' :: _) _ true [] :=
    .mark (d := .comma) rfl rfl hsecond.blank
  have hfirst := (spelled_identifier (Word.stands_letter (c := 'a') (by decide) rfl) false _
    (by simp; decide)).trans hcomma
  have hopen : Spells false ('(' :: _) _ true [] := .mark (d := .lparen) rfl rfl hfirst
  exact .keyword (k := .funcKw) (by simp; decide) hopen

theorem types_exact_pair : ∃ (p : Parser) (w : List Token) (r : Token) (rest : List _),
    Parser.ofText 0 "a.go" "func(a, b T) (T)".toList = .ok p ∧ p.Good ∧
      p.stream = w.map .ok ++ .ok r :: rest ∧ r.kind.followsType = true ∧
      ∃ limit t q, Parse.type { p with limit } = .ok t q ∧ t.erase = pairFunc.erase ∧
        q.stream = .ok r :: rest := by
  obtain ⟨p, us, ts, hp, hstream, hwords, hend, -⟩ := spells_pairFunc.stream 0 "a.go"
  obtain ⟨t, u, rfl, hk, -⟩ := hend
  have hgood := (Parser.good_of_ofFeed hp).1
  have hs : p.stream = us.map .ok ++ .ok t :: [.ok u] := by simpa using hstream
  have hfollows : t.kind.followsType = true := by rw [hk]; rfl
  obtain ⟨n, hn⟩ := types_exact.1 p us t [.ok u] hgood hs hfollows
  refine ⟨p, us, t, [.ok u], hp, hgood, hs, hfollows, n, (hn n (Nat.le_refl n) pairFunc).2 ?_⟩
  exact ⟨pairFunc, rfl, by rw [hwords]; exact derives_pairFunc⟩

end GoSyntax
