import GoSyntax.Proofs.Grammar.FileTakes
import GoSyntax.Proofs.Tiling
import GoSyntax.Proofs.TypeGrammar

/-! The rule for files accepts exactly the grammar of files. -/
namespace GoSyntax

theorem Braced.mono {room room' opened : Nat} {ts : List Token} (h : Braced room opened ts)
    (hle : room ≤ room') : Braced room' opened ts := by
  induction ts generalizing opened with
  | nil => exact h
  | cons t ts ih =>
    unfold Braced at h ⊢
    split
    · rename_i hk
      rw [if_pos hk] at h
      exact ⟨Nat.lt_of_lt_of_le h.1 hle, ih h.2⟩
    · rename_i hopen
      rw [if_neg hopen] at h
      split
      · rename_i hclose
        rw [if_pos hclose] at h
        exact ⟨h.1, ih h.2⟩
      · rename_i hclose
        rw [if_neg hclose] at h
        exact ih h

namespace Parse

open GoSyntax.Parser Entry

variable {s s' : Nat} {ws : List Word}

/-- Lists of parameters are read from the words that derive them, where there are levels enough. -/
theorem gives_of_listDerives {namesRequired : Bool} {entries : List (Entry × List Word)}
    {l : ParamList} (h : ListDerives namesRequired entries l ws) :
    ∃ s vs, ws = .delimiter .lparen :: vs ∧ ListGives s namesRequired l vs := by
  obtain ⟨s, hs⟩ := exists_common (fun i hi => readable_of_derives (h.derived i hi))
    fun _ _ _ hle h => Readable.mono h hle
  obtain ⟨vs, hsep, rfl⟩ := h.words
  obtain ⟨start, ps, stop⟩ := l
  exact ⟨s + 1, _, rfl, gives_paramList hs hsep h.settles⟩

theorem ReceiverGives.mono {o : Option ParamList} (h : ReceiverGives s o ws) (hle : s ≤ s') :
    ReceiverGives s' o ws :=
  fun p name rs hs => h p name rs (Nat.le_trans hle hs)

theorem gives_of_receiverDerives {o : Option ParamList} (h : ReceiverDerives o ws) :
    ∃ s, ReceiverGives s o ws := by
  cases h with
  | absent => exact ⟨0, gives_noReceiver⟩
  | list h =>
    obtain ⟨s, vs, rfl, hl⟩ := gives_of_listDerives h
    exact ⟨s, gives_receiver hl h.settles.length⟩

/-- Arguments whose names are required, and results. -/
theorem gives_of_signature {entries : List (Entry × List Word)} {args : ParamList}
    {results : Option ParamList} {vs : List Word} (ha : ListDerives true entries args ws)
    (hr : Derives (.results results) vs) :
    ∃ s us, ws ++ vs = .delimiter .lparen :: us ∧ SignatureGives s true ⟨args, results⟩ us := by
  obtain ⟨s₁, us, rfl, hargs⟩ := gives_of_listDerives ha
  obtain ⟨s₂, hs₂⟩ := readable_of_derives hr
  replace hargs := hargs.mono (Nat.le_max_left s₁ s₂)
  cases results with
  | none =>
    obtain rfl : vs = [] := hs₂
    exact ⟨_, us, List.append_nil _, gives_signature hargs⟩
  | some l =>
    obtain ⟨w, vs, rfl, hl⟩ := hs₂.mono (Nat.le_max_right s₁ s₂)
    exact ⟨_, _, rfl, gives_signature_results hargs hl⟩

theorem FuncGives.mono {f : FuncDecl} (h : FuncGives s f ws) (hle : s ≤ s') : FuncGives s' f ws :=
  fun p r rs hs => h p r rs (Nat.le_trans hle hs)

theorem braced_of_bodyDerives {o : Option Block} (h : BodyDerives o ws) :
    ws = (o.map blockWords).getD [] ∧ ∃ room, ∀ b, o = some b →
      (∀ t ∈ b.tokens, t.kind ≠ .endOfFile) ∧ Braced room 0 b.tokens := by
  cases h with
  | absent => exact ⟨rfl, 0, by simp⟩
  | @block b room hb he =>
    refine ⟨rfl, room, ?_⟩
    rintro _ ⟨⟩
    exact ⟨he, hb⟩

theorem gives_of_funcDerives {f : FuncDecl} (h : FuncDerives f ws) :
    ∃ s vs, ws = .keyword .funcKw :: vs ∧ FuncGives s f ws := by
  cases h with
  | @mk receiver args results body entries us vs ws xs start name hr ha ho hb =>
    obtain ⟨s₁, hreceiver⟩ := gives_of_receiverDerives hr
    obtain ⟨s₂, sws, hsws, hsig⟩ := gives_of_signature ha ho
    obtain ⟨rfl, s₃, hbody⟩ := braced_of_bodyDerives hb
    have hle₁ : s₁ ≤ max s₁ (max s₂ s₃) := by omega
    have hle₂ : s₂ ≤ max s₁ (max s₂ s₃) := by omega
    have hle₃ : s₃ ≤ max s₁ (max s₂ s₃) := by omega
    refine ⟨max s₁ (max s₂ s₃), _, rfl, ?_⟩
    rw [← List.append_assoc vs ws, hsws]
    exact gives_funcDecl (f := ⟨start, receiver, name, ⟨args, results⟩, body⟩)
      (hreceiver.mono hle₁) (hsig.mono hle₂) fun b hb => ⟨(hbody b hb).1, (hbody b hb).2.mono hle₃⟩

theorem DeclsGive.mono {ds : List Decl} (h : DeclsGive s ds ws) (hle : s ≤ s') :
    DeclsGive s' ds ws := by
  induction h with
  | nil => exact .nil
  | stray _ ih => exact .stray ih
  | func hf _ ih => exact .func (hf.mono hle) ih

theorem gives_of_declsDerive {ds : List Decl} (h : DeclsDerive ds ws) :
    ∃ s, DeclsGive s ds ws := by
  induction h with
  | nil => exact ⟨0, .nil⟩
  | stray _ ih =>
    obtain ⟨s, hs⟩ := ih
    exact ⟨s, .stray hs⟩
  | func hf _ ih =>
    obtain ⟨s₁, vs, rfl, hf⟩ := gives_of_funcDerives hf
    obtain ⟨s₂, hs⟩ := ih
    exact ⟨max s₁ s₂, .func (hf.mono (Nat.le_max_left s₁ s₂)) (hs.mono (Nat.le_max_right s₁ s₂))⟩

/-- Imports in parentheses, with semicolons between them. -/
theorem gives_group {specs : List (Import × List Word)} (h : ∀ i ∈ specs, SpecDerives i.1 i.2)
    (hs : Separated (.delimiter .semicolon) (specs.map Prod.snd) ws) :
    GroupGives (specs.map Prod.fst)
      (.delimiter .lparen :: (ws ++ [.delimiter .rparen, .delimiter .semicolon])) where
  opens := ⟨_, _, rfl, by simp⟩
  gives p r rs hp := by
    refine (gives_consumeIf_true hp (by simp) rfl).bind ?_
    rintro _ q₁ rfl h₁
    have hmeets : ∀ i ∈ specs.map fun i => (i.2, i.1.erase), Meets importSpec Import.erase q₁
        (.delimiter .rparen) [.delimiter .semicolon, .delimiter .rparen] i := by
      intro i hi
      obtain ⟨⟨j, us⟩, hj, rfl⟩ := List.mem_map.1 hi
      have hspec : SpecDerives j us := h _ hj
      obtain ⟨hform, hname⟩ := hspec
      obtain ⟨v, vs, hv, hk⟩ := importWords_opens _ j
      refine ⟨v, vs, hv, fun he => hk (by simp [he]), fun q r rs hq _ => ?_⟩
      exact gives_importSpec hname hform (by rw [hv]; exact hq.holds)
    have hlist : Gives (termList (.delimiter .rparen) .importSpecEnd importSpec) q₁
        (fun l => l.map Import.erase = (specs.map fun i => (i.2, i.1.erase)).map Prod.snd)
        (.delimiter .rparen :: .delimiter .semicolon :: r :: rs) :=
      Gives.termList (by simpa [Function.comp_def] using hs) (by simpa using h₁.holds) rfl
        (.inl rfl) hmeets
    refine hlist.bind fun l q₂ hl h₂ => ?_
    refine (gives_require _ h₂.holds (by simp) (by simp)).bind fun _ q₃ _ h₃ => ?_
    refine (gives_require _ h₃.holds (by simp) (by simp)).bind fun _ q₄ _ h₄ => ?_
    exact .pure h₄.holds (by simpa [Function.comp_def] using hl)

theorem gives_of_importDerives {l : List Import} (h : ImportDerives l ws) : GroupGives l ws := by
  cases h with
  | single h =>
    obtain ⟨hform, hname⟩ := h
    exact gives_single hname hform
  | group h hs => exact gives_group h hs

/-- Every file is read from the words that derive it, where there are levels enough. -/
theorem gives_of_fileDerives {f : File} (h : FileDerives f ws) : ∃ s, ∀ p : Parser, s ≤ p.room →
    p.Holds ws → Gives file p (fun f' => f'.erase = f.erase) [.endOfFile] := by
  obtain ⟨start, package, hgroups, hdecls⟩ := h
  obtain ⟨s, hs⟩ := gives_of_declsDerive hdecls
  exact ⟨s, fun p hroom hp => gives_file start package
    (fun g hg => gives_of_importDerives (hgroups g hg)) hs hroom hp⟩

end Parse

/-- The words of the tokens that the grammar sees. -/
def visibleWords (ts : List Token) : List Word := (ts.filterMap Token.visible?).map Token.word

section Sources

variable {x : Lexer} {i : Nat} {t v : Token} {ts : List Token}

theorem Token.visible?_ne_endOfFile (h : t.visible? = some v) (hk : t.kind ≠ .endOfFile) :
    v.kind ≠ .endOfFile := by
  unfold visible? at h
  split at h
  · cases h
  · cases h
  · cases h
    simp [withKind]
  · cases h
    exact hk

/-- The end of the source has no text. -/
theorem Lexer.Tidy.word_of_end (h : Tidy i x) (ht : x.next.outcome = .ok t)
    (hk : t.kind = .endOfFile) : t.word = .endOfFile := by
  have hm := next_move x
  generalize x.next = s at hm ht
  cases hm with
  | queued hq =>
    cases ht
    exact absurd hk (h.queued t hq).2.1
  | blankFault => cases ht
  | lexemeFault => cases ht
  | flaw => cases ht
  | @lexeme meaning hq hc hr =>
    cases meaning with
    | twoDots =>
      cases ht
      cases hk
    | token kind v =>
      cases ht
      obtain rfl : kind = .endOfFile := hk
      have ha := ahead_of_end hr
      have hv : v = none := by
        simp only [reading, ha, Lexeme.read, Lexeme.Reading.done, Except.ok.injEq,
          Lexeme.Meaning.token.injEq] at hr
        exact hr.2.symm
      rw [Token.word_of_ne (by simp), hv]
      simp [lexeme, ha, Word.endOfFile]

/-- The end of the source is what is visible last, and nowhere else. -/
theorem Lexer.Yields.visible_end (hy : Yields x ts) (h : Tidy i x) :
    ∃ us e, ts.filterMap Token.visible? = us ++ [e] ∧ (∀ u ∈ us, u.kind ≠ .endOfFile) ∧
      e.word = .endOfFile := by
  induction hy generalizing i with
  | @last x t ht hk =>
    refine ⟨[], t, ?_, by simp, h.word_of_end ht hk⟩
    rw [List.filterMap_cons_some (Token.visible?_endOfFile hk)]
    rfl
  | @more x t ts ht hk _ ih =>
    obtain ⟨us, e, hus, hne, he⟩ := ih (lays_next h ht).tidy
    cases hv : t.visible? with
    | none => exact ⟨us, e, by rw [List.filterMap_cons_none hv, hus], hne, he⟩
    | some v =>
      refine ⟨v :: us, e, by rw [List.filterMap_cons_some hv, hus]; rfl, ?_, he⟩
      exact List.forall_mem_cons.2 ⟨Token.visible?_ne_endOfFile hv hk, hne⟩

/-- Tokens up to the end of the source are all tokens. -/
theorem eq_of_endOfFile {us vs rest : List Token} {e : Token} (h : us ++ [e] = vs ++ v :: rest)
    (hus : ∀ u ∈ us, u.kind ≠ .endOfFile) (hv : v.kind = .endOfFile) : us = vs := by
  rcases List.eq_nil_or_concat rest with rfl | ⟨rest, z, rfl⟩
  · exact (List.append_inj' h rfl).1
  · rw [List.concat_eq_append, ← List.cons_append, ← List.append_assoc] at h
    have hmem : v ∈ us := by
      rw [(List.append_inj' h rfl).1]
      simp
    exact absurd hv (hus v hmem)

end Sources

section Exact

variable {file : String} {feed : Feed} {x : Lexer} {ts : List Token}

/-- A file is read up to the end of the source, and the words derive it. -/
theorem derives_of_file {limit : Nat} {p q : Parser} {f : File}
    (hx : Lexer.ofFeed file feed = .ok x) (ht : x.tokens = .ok ts)
    (hp : Parser.ofFeed limit file feed = .ok p) (h : Parse.file p = .ok f q) :
    FileDerives f (visibleWords ts) ∧ q.peek.kind = .endOfFile := by
  obtain ⟨hfresh, hmark, -⟩ := Lexer.fresh_of_ofFeed hx
  have htidy := hfresh.tidy (by rw [Cursor.offset, hmark]; rfl)
  obtain ⟨us, e, hvisible, hus, he⟩ := (hfresh.yields ht).visible_end htidy
  obtain ⟨p', hp', hstream, -⟩ := Parser.exists_ofFeed hx ht limit
  obtain rfl := Except.ok.inj (hp.symm.trans hp')
  obtain ⟨_, ⟨vs, hvs, rfl⟩, hderives, hend⟩ :=
    Parse.takes_file (Parser.good_of_ofFeed hp).1 f q h
  refine ⟨?_, hend⟩
  have heq : us = vs := by
    rw [hstream, hvisible] at hvs
    obtain ⟨l₁, l₂, hall, h₁, h₂⟩ := List.map_eq_append_iff.1 hvs
    obtain ⟨v, rest, rfl, hv, -⟩ := List.map_eq_cons_iff.1 h₂
    obtain rfl : v = q.peek := Except.ok.inj hv
    rw [← (List.map_inj_right fun _ _ => Except.ok.inj).1 h₁]
    exact eq_of_endOfFile hall hus hend
  rw [visibleWords, hvisible, heq, List.map_append, List.map_singleton, he]
  exact hderives

/-- The words that derive a file are read as that file, with as many levels as it takes. -/
theorem file_of_derives {f : File} (hx : Lexer.ofFeed file feed = .ok x) (ht : x.tokens = .ok ts)
    (h : FileDerives f (visibleWords ts)) : ∃ n, ∀ limit, n ≤ limit → ∀ p,
      Parser.ofFeed limit file feed = .ok p → ∃ f' q, Parse.file p = .ok f' q ∧
        f'.erase = f.erase := by
  obtain ⟨n, hn⟩ := Parse.gives_of_fileDerives h
  refine ⟨n, fun limit hle p hp => ?_⟩
  obtain ⟨p', hp', hstream, hdepth, hlimit⟩ := Parser.exists_ofFeed hx ht limit
  obtain rfl := Except.ok.inj (hp.symm.trans hp')
  have hne : ts.filterMap Token.visible? ≠ [] := by
    intro hnil
    rw [hnil] at hstream
    cases hstream
  have hholds := (Parser.holds_of_stream (hstream.trans (List.append_nil _).symm) hne rfl).1
  have hroom : n ≤ p.room := by
    rw [Parser.room, hdepth, hlimit]
    omega
  obtain ⟨f', q, hfile, herase, -⟩ := hn p hroom hholds
  exact ⟨f', q, hfile, herase⟩

/-- What was derived is what is read, so no source has two trees. -/
theorem fileDerives_unique {f f' : File} (hx : Lexer.ofFeed file feed = .ok x)
    (ht : x.tokens = .ok ts) (h : FileDerives f (visibleWords ts))
    (h' : FileDerives f' (visibleWords ts)) : f.erase = f'.erase := by
  obtain ⟨n, hn⟩ := file_of_derives hx ht h
  obtain ⟨n', hn'⟩ := file_of_derives hx ht h'
  obtain ⟨p, hp, -⟩ := Parser.exists_ofFeed hx ht (max n n')
  obtain ⟨g, q, hg, herase⟩ := hn _ (Nat.le_max_left n n') p hp
  obtain ⟨g', q', hg', herase'⟩ := hn' _ (Nat.le_max_right n n') p hp
  rw [hg] at hg'
  cases hg'
  exact herase.symm.trans herase'

/-- The rule for files succeeds on a source without lexical errors just if the words of its visible
tokens derive a file, and gives that file up to positions, if enough levels can be opened. It stops
at the end of the source; and every receiver is one parameter, with a name and a type of its own. -/
theorem files_exact (hx : Lexer.ofFeed file feed = .ok x) (ht : x.tokens = .ok ts) :
    (∀ limit p f q, Parser.ofFeed limit file feed = .ok p → Parse.file p = .ok f q →
      FileDerives f (visibleWords ts) ∧ q.peek.kind = .endOfFile ∧
        ∀ g ∈ f.funcs, ∀ l, g.receiver = some l →
          ∃ d name, l.params = [d] ∧ d.name = some name ∧ d.inferred = false) ∧
    ∃ n, ∀ limit, n ≤ limit → ∃ p, Parser.ofFeed limit file feed = .ok p ∧
      ∀ f : File, (∃ f' q, Parse.file p = .ok f' q ∧ f'.erase = f.erase) ↔
        ∃ f', f'.erase = f.erase ∧ FileDerives f' (visibleWords ts) := by
  have hsound : ∀ limit p f q, Parser.ofFeed limit file feed = .ok p → Parse.file p = .ok f q →
      FileDerives f (visibleWords ts) ∧ q.peek.kind = .endOfFile :=
    fun limit p f q hp h => derives_of_file hx ht hp h
  have hparser := Parser.exists_ofFeed hx ht
  refine ⟨fun limit p f q hp h => ?_, ?_⟩
  · obtain ⟨hderives, hend⟩ := hsound limit p f q hp h
    exact ⟨hderives, hend, fun g hg l hl => hderives.receiver hg hl⟩
  -- The levels that one derivation asks for are enough, as there is no other file.
  by_cases hder : ∃ f, FileDerives f (visibleWords ts)
  · obtain ⟨f, hf⟩ := hder
    obtain ⟨n, hn⟩ := file_of_derives hx ht hf
    refine ⟨n, fun limit hle => ?_⟩
    obtain ⟨p, hp, -⟩ := hparser limit
    refine ⟨p, hp, fun g => ⟨?_, ?_⟩⟩
    · rintro ⟨f', q, hfile, herase⟩
      exact ⟨f', herase, (hsound limit p f' q hp hfile).1⟩
    · rintro ⟨g', herase, hg'⟩
      obtain ⟨f', q, hfile, herase'⟩ := hn limit hle p hp
      exact ⟨f', q, hfile, herase'.trans ((fileDerives_unique hx ht hf hg').trans herase)⟩
  · refine ⟨0, fun limit _ => ?_⟩
    obtain ⟨p, hp, -⟩ := hparser limit
    refine ⟨p, hp, fun g => ⟨?_, ?_⟩⟩
    · rintro ⟨f', q, hfile, herase⟩
      exact ⟨f', herase, (hsound limit p f' q hp hfile).1⟩
    · rintro ⟨g', -, hg'⟩
      exact absurd ⟨g', hg'⟩ hder

end Exact

open Parse (Entry)

/-- The tokens of a spelled text: its words, and those at the end of the source. -/
theorem Spells.tokens {elides : Bool} {s : Text} {ws : List Word} (h : Spells false s ws elides [])
    (file : String) : ∃ x ts, Lexer.ofText file s = .ok x ∧ x.tokens = .ok ts ∧
      visibleWords ts = ws ++ endWords elides := by
  obtain ⟨us, ts, hyields, hwords, hend⟩ :=
    h.yields (Lexer.at_start file s) fun y hy => hy.yields_end
  have hfresh : Lexer.Fresh ⟨⟨s, [], .origin file⟩, false, none, [], 0, false⟩ := ⟨rfl, rfl, rfl, rfl⟩
  refine ⟨_, us ++ ts, Lexer.ofText_clean file (h.clean (by simp)), hfresh.tokens hyields, ?_⟩
  rw [visibleWords, List.filterMap_append, List.map_append, hwords, hend.words]

/-- A file of one method. -/
def methodFile : File :=
  ⟨.nowhere, ⟨['p'], .nowhere⟩, [], [.func ⟨.nowhere,
    some ⟨.nowhere, [⟨some ⟨['r'], .nowhere⟩, false, false, letterType 'T'⟩], .nowhere⟩,
    ⟨['f'], .nowhere⟩, ⟨⟨.nowhere, [], .nowhere⟩, none⟩, none⟩]⟩

/-- The words of `package p` and, on a line of its own, `func (r T) f()`. -/
def methodWords : List Word :=
  [.keyword .packageKw, .identifier ['p'], .delimiter .semicolon, .keyword .funcKw,
    .delimiter .lparen, .identifier ['r'], .identifier ['T'], .delimiter .rparen, .identifier ['f'],
    .delimiter .lparen, .delimiter .rparen, .delimiter .semicolon]

theorem derives_methodFile : FileDerives methodFile (methodWords ++ [.endOfFile]) := by
  have htype : Derives (.type (letterType 'T')) [.identifier ['T']] := .named _
  have hnamed := Entry.any_isNamed_iff.1 (rfl : [Entry.named ⟨['r'], .nowhere⟩ false
    (letterType 'T')].any Entry.isNamed = true)
  have hentry : Derives (.entry (.named ⟨['r'], .nowhere⟩ false (letterType 'T')))
      [.identifier ['r'], .identifier ['T']] := .namedEntry _ htype
  have hreceiver : ReceiverDerives (some ⟨.nowhere,
      [⟨some ⟨['r'], .nowhere⟩, false, false, letterType 'T'⟩], .nowhere⟩) _ :=
    .list (e := (_, _)) ⟨by simpa using hentry, .names (Entry.variadicLast_iff.2 rfl) hnamed
      (.named _ _ _ .nil), _, .last _, rfl⟩
  have hargs : ListDerives true [] ⟨.nowhere, [], .nowhere⟩ _ :=
    ⟨by simp, .types (Entry.variadicLast_iff.2 rfl) (by simp [Entry.HasNamed]) (fun _ => rfl), _,
      .nil, rfl⟩
  have hgroups : ∀ g ∈ ([] : List (List Import × List Word)), ImportDerives g.1 g.2 := by simp
  exact .mk .nowhere ⟨['p'], .nowhere⟩ hgroups
    (.func (.mk .nowhere ⟨['f'], .nowhere⟩ hreceiver hargs .noResult .absent) .nil)

theorem spells_methodFile :
    Spells false "package p\nfunc (r T) f()\n".toList methodWords false [] := by
  have hargs : Spells true "()\n".toList _ false [] :=
    .mark (d := .lparen) rfl rfl (.mark (d := .rparen) rfl rfl (Spells.nil.endLine))
  have hname := (spelled_identifier (Word.stands_letter (c := 'f') (by decide) rfl) true _
    (by simp; decide)).trans hargs
  have hclose : Spells true (')' :: ' ' :: _) _ false [] :=
    .mark (d := .rparen) rfl rfl hname.blank
  have htype := (spelled_identifier (Word.stands_letter (c := 'T') (by decide) rfl) true _
    (by simp; decide)).trans hclose
  have hreceiver := (spelled_identifier (Word.stands_letter (c := 'r') (by decide) rfl) false _
    (by simp; decide)).trans htype.blank
  have hopen : Spells false ('(' :: _) _ false [] := .mark (d := .lparen) rfl rfl hreceiver
  have hfunc : Spells false (Keyword.funcKw.spelling.toList ++ ' ' :: '(' :: _) _ false [] :=
    .keyword (by simp; decide) hopen.blank
  have hpackage := (spelled_identifier (Word.stands_letter (c := 'p') (by decide) rfl) false
    ('\n' :: _) (by simp; decide)).trans hfunc.endLine
  exact .keyword (k := .packageKw) (by simp; decide) hpackage.blank

theorem files_exact_method : ∃ (x : Lexer) (ts : List Token) (limit : Nat) (p q : Parser) (f : File),
    Lexer.ofText "a.go" "package p\nfunc (r T) f()\n".toList = .ok x ∧ x.tokens = .ok ts ∧
      Parser.ofText limit "a.go" "package p\nfunc (r T) f()\n".toList = .ok p ∧
      Parse.file p = .ok f q ∧ f.erase = methodFile.erase ∧ q.peek.kind = .endOfFile := by
  obtain ⟨x, ts, hx, hts, hwords⟩ := spells_methodFile.tokens "a.go"
  obtain ⟨hsound, n, hn⟩ := files_exact hx hts
  obtain ⟨p, hp, hiff⟩ := hn n (Nat.le_refl n)
  obtain ⟨f, q, hf, herase⟩ := (hiff methodFile).2 ⟨methodFile, rfl, by
    rw [hwords]
    exact derives_methodFile⟩
  exact ⟨x, ts, n, p, q, f, hx, hts, hp, hf, herase, (hsound n p f q hp hf).2.1⟩

end GoSyntax
