import GoSyntax.Proofs.Grammar.FileSound
import GoSyntax.Proofs.Grammar.TypeComplete

/-! Every body, declaration and file of the grammar reads back from its print. -/
namespace GoSyntax

theorem Token.erase_of_word {t t' : Token} (h : t'.word = t.word) : t'.erase = t.erase := by
  have hk : t'.kind = t.kind := by rw [← Parser.kind_word, h, Parser.kind_word]
  by_cases hsemi : t.kind = .delimiter .semicolon
  · rw [erase, erase, if_pos hsemi, if_pos (hk.trans hsemi), hk]
  · simp only [word, hk, if_neg hsemi, Word.mk.injEq, true_and] at h
    rw [erase, erase, if_neg hsemi, if_neg (by rwa [hk]), hk, h.1, h.2]

namespace Parse

open GoSyntax.Parser

variable {s : Nat} {p : Parser} {r : Word} {rs : List Word}

section Bodies

theorem stands_of_inBody {t : Token} (h : t.InBody) : t.word.Stands := by
  unfold Token.word
  split
  · exact Word.stands_delimiter rfl
  · rename_i hk
    exact h.2.resolve_left fun hsemi => hk hsemi.2

/-- Tokens of a body, each behind a blank, before another blank. -/
theorem spells_tokens {ts : List Token} (h : ∀ t ∈ ts, t.InBody) (elides : Bool) (rest : Text) :
    ∃ elides', Spells elides (ts.flatMap (fun t =>
      if t.kind = .delimiter .semicolon then [' ', ';'] else ' ' :: t.text) ++ ' ' :: rest)
      (ts.map Token.word) elides' (' ' :: rest) := by
  induction ts generalizing elides with
  | nil => exact ⟨elides, .nil⟩
  | cons t ts ih =>
    have hstands := stands_of_inBody (h t List.mem_cons_self)
    obtain ⟨elides', htail⟩ := ih (fun t' ht' => h t' (List.mem_cons_of_mem _ ht'))
      t.word.kind.elidesSemicolon
    have htext : (if t.kind = .delimiter .semicolon then [' ', ';'] else ' ' :: t.text) =
        ' ' :: t.word.text := by
      unfold Token.word
      split <;> rfl
    have hhead : ∀ c ∈ (ts.flatMap (fun t =>
        if t.kind = .delimiter .semicolon then [' ', ';'] else ' ' :: t.text) ++
          ' ' :: rest).head?, c = ' ' := by
      cases ts with
      | nil =>
        rintro _ ⟨⟩
        rfl
      | cons t' ts =>
        rw [List.flatMap_cons]
        split <;> (rintro _ ⟨⟩; rfl)
    refine ⟨elides', ?_⟩
    rw [List.flatMap_cons, htext, List.append_assoc, List.cons_append, List.map_cons]
    refine .blank (.word hstands ?_ (fun c hc => ?_) htail)
    · intro hk
      unfold Token.word at hk ⊢
      split <;> rename_i hsemi
      · rfl
      · rw [if_neg hsemi] at hk
        exact absurd hk hsemi
    · rw [hhead c hc]
      exact hstands.endsBefore_blank

/-- The words of a body. -/
def blockWords (b : Block) : List Word :=
  .delimiter .lbrace :: (b.tokens.map Token.word ++ [.delimiter .rbrace])

theorem spells_block {b : Block} (h : b.Fits s) (elides : Bool) (rest : Text) :
    Spells elides (b.print ++ rest) (blockWords b) true rest := by
  obtain ⟨elides', htokens⟩ := spells_tokens h.tokens false ('\x7d' :: rest)
  have hbody := htokens.trans (Spells.close (d := .rbrace) rfl rfl rfl rest).blank
  have hall : Spells elides _ (blockWords b) true rest :=
    .mark (d := .lbrace) (m := '\x7b') rfl rfl hbody
  simpa [Block.print] using hall

/-- The braces of the body match, so it is the last one that ends it. -/
theorem gives_blockTokensFor (start : Position) {ts : List Token} {opened n : Nat}
    (hn : ts.length < n) (hb : Braced s opened ts) (hts : ∀ t ∈ ts, t.kind ≠ .endOfFile)
    (hs : s ≤ p.room) (hp : p.Holds (ts.map Token.word ++ .delimiter .rbrace :: r :: rs)) :
    Gives (blockTokensFor start opened n) p (fun l => l.map Token.erase = ts.map Token.erase)
      (.delimiter .rbrace :: r :: rs) := by
  induction ts generalizing opened n p with
  | nil =>
    obtain ⟨n, rfl⟩ : ∃ m, n = m + 1 := ⟨n - 1, by omega⟩
    obtain rfl : opened = 0 := hb
    have hk : p.peek.kind = .delimiter .rbrace := hp.kind
    have hdone : blockTokensFor start 0 (n + 1) p = (pure [] : Parse (List Token)) p := by
      simp only [blockTokensFor, hk]
      rfl
    exact .congr hdone (.pure hp rfl)
  | cons t ts ih =>
    obtain ⟨n, rfl⟩ : ∃ m, n = m + 1 := ⟨n - 1, by omega⟩
    have hk : p.peek.kind = t.kind := by rw [hp.kind, kind_word]
    have hstep : ∀ opened', Braced s opened' ts →
        Gives (do return (← advance) :: (← blockTokensFor start opened' n)) p
          (fun l => l.map Token.erase = (t :: ts).map Token.erase) (.delimiter .rbrace :: r :: rs) := by
      intro opened' hb'
      refine (gives_advance hp (by simp)).bind fun t' q₁ ht' h₁ => ?_
      have hrest := ih (by simpa using hn) hb' (fun t' ht' => hts t' (List.mem_cons_of_mem _ ht'))
        (by rwa [h₁.room]) h₁.holds
      refine hrest.bind fun l q₂ hl h₂ => .pure h₂.holds ?_
      rw [List.map_cons, List.map_cons, Token.erase_of_word ht', hl]
    have heof := hts t List.mem_cons_self
    by_cases hopen : t.kind = .delimiter .lbrace
    · rw [Braced, if_pos hopen] at hb
      refine .congr ?_ (hstep (opened + 1) hb.2)
      have hroom : ¬p.limit ≤ p.depth + opened := by
        have hlt := hb.1
        simp only [Parser.room] at hs
        omega
      simp only [blockTokensFor, hk, hopen, if_neg hroom]
    by_cases hclose : t.kind = .delimiter .rbrace
    · rw [Braced, if_neg hopen, if_pos hclose] at hb
      obtain ⟨k, rfl⟩ : ∃ k, opened = k + 1 := ⟨opened - 1, by omega⟩
      refine .congr ?_ (hstep k hb.2)
      simp only [blockTokensFor, hk, hclose]
    · rw [Braced, if_neg hopen, if_neg hclose] at hb
      refine .congr ?_ (hstep opened hb)
      simp only [blockTokensFor, hk]

theorem gives_block {b : Block} (hts : ∀ t ∈ b.tokens, t.kind ≠ .endOfFile)
    (hb : Braced s 0 b.tokens) (hs : s ≤ p.room) (hp : p.Holds (blockWords b ++ r :: rs)) :
    Gives block p (fun b' => b'.erase = b.erase) (r :: rs) := by
  refine (gives_require _ hp (by simp) (by simp)).bind fun opening q₁ _ h₁ => ?_
  have hholds : q₁.Holds (b.tokens.map Token.word ++ .delimiter .rbrace :: r :: rs) := by
    simpa using h₁.holds
  have htokens : Gives (bounded (blockTokensFor opening.pos 0)) q₁
      (fun l => l.map Token.erase = b.tokens.map Token.erase) (.delimiter .rbrace :: r :: rs) := by
    refine gives_blockTokensFor opening.pos ?_ hb hts (by rwa [h₁.room]) hholds
    have hlen := hholds.length
    simp only [List.length_append, List.length_map, List.length_cons] at hlen
    omega
  refine htokens.bind fun l q₂ hl h₂ => ?_
  refine (gives_require _ h₂.holds (by simp) (by simp)).bind
    fun closing q₃ _ h₃ => .pure h₃.holds ?_
  simp only [Block.erase, hl]

/-- A body, if there is one, with the semicolon behind it. -/
theorem gives_body {o : Option Block}
    (h : ∀ b, o = some b → (∀ t ∈ b.tokens, t.kind ≠ .endOfFile) ∧ Braced s 0 b.tokens)
    (hs : s ≤ p.room)
    (hp : p.Holds ((o.map blockWords).getD [] ++ .delimiter .semicolon :: r :: rs)) :
    Gives body? p (fun o' => o'.map Block.erase = o.map Block.erase) (r :: rs) := by
  cases o with
  | none =>
    refine (gives_peekIs hp (.delimiter .lbrace)).bind ?_
    rintro _ q₁ rfl h₁
    rw [if_neg (by simp)]
    exact (gives_require _ h₁.holds (by simp) (by simp)).bind fun _ q₂ _ h₂ =>
      .pure h₂.holds rfl
  | some b =>
    refine (gives_peekIs hp (.delimiter .lbrace)).bind ?_
    rintro _ q₁ rfl h₁
    rw [if_pos (by simp)]
    obtain ⟨hts, hb⟩ := h b rfl
    refine (gives_block hts hb (by rwa [h₁.room]) h₁.holds).bind fun b' q₂ hb' h₂ => ?_
    exact (gives_require _ h₂.holds (by simp) (by simp)).bind fun _ q₃ _ h₃ =>
      .pure h₃.holds (by simp [hb'])

end Bodies

section Functions

/-- The receiver is read from the words before a name. -/
def ReceiverGives (s : Nat) (o : Option ParamList) (ws : List Word) : Prop :=
  ∀ p name rs, s ≤ p.room → p.Holds (ws ++ .identifier name :: rs) →
    Gives receiver? p (fun o' => o'.map ParamList.erase = o.map ParamList.erase)
      (.identifier name :: rs)

theorem gives_noReceiver : ReceiverGives s none [] := by
  intro p name rs _ hp
  refine (gives_peekIs hp (.delimiter .lparen)).bind ?_
  rintro _ q₁ rfl h₁
  rw [if_neg (by simp)]
  exact .pure h₁.holds rfl

theorem gives_receiver {l : ParamList} {ws : List Word} (h : ListGives s true l ws)
    (hone : l.params.length = 1) : ReceiverGives s (some l) (.delimiter .lparen :: ws) := by
  intro p name rs hs hp
  refine (gives_peekIs hp (.delimiter .lparen)).bind ?_
  rintro _ q₁ rfl h₁
  rw [if_pos (by simp)]
  have hpoised : Poised s type? q₁ (.delimiter .lparen :: ws ++ .identifier name :: rs) :=
    poised_type (by rwa [h₁.room]) h₁.holds
  refine (h.gives type? q₁ _ _ hpoised).bind fun l' q₂ hl' h₂ => ?_
  -- The list that was read has one parameter too.
  have hlen : l'.params.length = 1 := by
    have hlists := congrArg (fun l => l.params.length) hl'
    obtain ⟨_, ps, _⟩ := l
    obtain ⟨_, ps', _⟩ := l'
    simp only [ParamList.erase, Param.eraseAll_eq_map, List.length_map] at hlists
    exact hlists.trans hone
  obtain ⟨x, hx⟩ := List.length_eq_one_iff.1 hlen
  simp only [hx]
  exact .pure h₂.holds (congrArg some hl')

/-- The receiver and the blank behind it are printed as the words and read back from them. -/
structure ReceiverReads (s : Nat) (o : Option ParamList) (ws : List Word) : Prop where
  spelled : ∀ rest, Spells false ((o.map fun l => l.print ++ [' ']).getD [] ++ rest) ws o.isSome rest
  gives : ReceiverGives s o ws

theorem reads_receiver {o : Option ParamList} (h : ∀ l, o = some l →
    Part.Fits s (.params l) ∧ l.NamesGiven ∧ l.params.length = 1) : ∃ ws, ReceiverReads s o ws := by
  cases o with
  | none => exact ⟨[], fun rest => .nil, gives_noReceiver⟩
  | some l =>
    obtain ⟨hfits, hnames, hone⟩ := h l rfl
    obtain ⟨ws, hreads⟩ := reads_of_fits hfits
    refine ⟨.delimiter .lparen :: ws, fun rest => ?_, ?_⟩
    · have hall := (hreads.spelled false (' ' :: rest) (by simp)).trans (.blank .nil)
      simpa using hall
    · exact gives_receiver (hreads.gives true fun _ => hnames) hone

/-- The function is read from the words. -/
def FuncGives (s : Nat) (f : FuncDecl) (ws : List Word) : Prop :=
  ∀ p r rs, s ≤ p.room → p.Holds (ws ++ r :: rs) →
    Gives funcDecl p (fun f' => f'.erase = f.erase) (r :: rs)

theorem gives_funcDecl {f : FuncDecl} {us vs : List Word} (hreceiver : ReceiverGives s f.receiver us)
    (hsig : SignatureGives s true f.signature vs)
    (hbody : ∀ b, f.body = some b →
      (∀ t ∈ b.tokens, t.kind ≠ .endOfFile) ∧ Braced s 0 b.tokens) :
    FuncGives s f (.keyword .funcKw :: (us ++ .identifier f.name.name :: .delimiter .lparen ::
      (vs ++ ((f.body.map blockWords).getD [] ++ [.delimiter .semicolon])))) := by
  intro p r rs hs hp
  refine (gives_require _ hp (by simp) (by simp)).bind fun opening q₁ _ h₁ => ?_
  have hholds : q₁.Holds (us ++ .identifier f.name.name :: (.delimiter .lparen :: vs ++
      ((f.body.map blockWords).getD [] ++ .delimiter .semicolon :: r :: rs))) := by
    simpa using h₁.holds
  refine (hreceiver q₁ _ _ (by rwa [h₁.room]) hholds).bind fun receiver q₂ hr h₂ => ?_
  refine (gives_identifier _ h₂.holds (by simp)).bind fun name q₃ hname h₃ => ?_
  have hq₃ := (h₁.trans h₂).trans h₃
  -- The results end where the body or the semicolon begins.
  obtain ⟨w, ws, hw, hends⟩ : ∃ w ws,
      (f.body.map blockWords).getD [] ++ .delimiter .semicolon :: r :: rs = w :: ws ∧
        endsType w.kind := by
    cases f.body with
    | none => exact ⟨_, _, rfl, by simp, rfl⟩
    | some b => exact ⟨_, _, rfl, by simp, rfl⟩
  have hsigwords := h₃.holds
  rw [hw] at hsigwords
  have hgives := hsig.gives type? q₃ w ws (poised_type (by rwa [hq₃.room]) hsigwords) hends
  refine hgives.bind fun sig q₄ hsig' h₄ => ?_
  rw [← hw] at h₄
  have hq₄ := hq₃.trans h₄
  refine (gives_body hbody (by rwa [hq₄.room]) h₄.holds).bind fun body q₅ hbody h₅ => ?_
  refine (gives_note h₅.holds _).bind fun _ q₆ _ h₆ => .pure h₆.holds ?_
  simp [FuncDecl.erase, Ident.erase, hr, hname, hsig', hbody]

/-- The function is printed as the words, and read back from them with the semicolon behind. -/
structure FuncReads (s : Nat) (f : FuncDecl) (ws : List Word) : Prop where
  spelled : Spelled f.print (.keyword .funcKw :: ws)
  gives : FuncGives s f (.keyword .funcKw :: (ws ++ [.delimiter .semicolon]))

theorem reads_funcDecl {f : FuncDecl} (h : f.Fits s) : ∃ ws, FuncReads s f ws := by
  obtain ⟨rws, hreceiver⟩ := reads_receiver h.receiver
  obtain ⟨sws, hsig⟩ := reads_of_fits h.signature
  refine ⟨rws ++ .identifier f.name.name :: .delimiter .lparen ::
    (sws ++ (f.body.map blockWords).getD []), ?_, ?_⟩
  · intro elides rest hrest
    have hbody : Spells true ((f.body.map fun b => ' ' :: b.print).getD [] ++ rest)
        ((f.body.map blockWords).getD []) true rest := by
      cases hb : f.body with
      | none => exact .nil
      | some b => exact (spells_block (h.body b hb) true rest).blank
    have hsoft : ∀ c ∈ ((f.body.map fun b => ' ' :: b.print).getD [] ++ rest).head?,
        isSoft c = true := by
      cases f.body with
      | none => exact hrest
      | some b =>
        rintro _ ⟨⟩
        decide
    obtain ⟨cs, hopens⟩ := f.signature.print_opens
    have hname := spelled_identifier h.name f.receiver.isSome (f.signature.print ++
      ((f.body.map fun b => ' ' :: b.print).getD [] ++ rest)) (by rw [hopens]; simp; decide)
    have htail := hname.trans ((hsig.spelled true _ hsoft).trans hbody)
    have hall : Spells elides (Keyword.funcKw.spelling.toList ++ ' ' :: _) _ true rest :=
      .keyword (by simp; decide) ((hreceiver.spelled _).trans htail).blank
    rw [FuncDecl.print_eq]
    simpa using hall
  · have hfunc := gives_funcDecl hreceiver.gives (hsig.gives true fun _ => h.names) fun b hb =>
      ⟨fun t ht => ((h.body b hb).tokens t ht).1, (h.body b hb).braced⟩
    simpa using hfunc

end Functions

section Imports

/-- The word for the name that an import goes by. -/
def importWord : ImportName → Word
  | .dot _ => .delimiter .dot
  | .blank _ => .identifier ['_']
  | .named name => .identifier name.name

theorem stands_importWord {n : ImportName} (h : n.Lawful) : (importWord n).Stands := by
  cases n with
  | dot => exact Word.stands_delimiter rfl
  | blank =>
    exact .of_read (by simp [importWord, Word.identifier]) rfl (by simp [importWord, Word.identifier])
      rfl
  | named name => exact h.1

theorem print_import (i : Import) :
    i.print = Keyword.importKw.spelling.toList ++ [' '] ++
      (i.name.map fun n => (importWord n).text ++ [' ']).getD [] ++ i.path.raw := by
  obtain ⟨start, name, path⟩ := i
  cases name with
  | none => rfl
  | some n => cases n <;> rfl

theorem gives_importName {o : Option ImportName}
    (h : ∀ name, o = some (.named name) → name.isBlank = false)
    (hp : p.Holds ((o.map importWord).toList ++ r :: rs)) (hr : r.kind.isString = true) :
    Gives importName? p (fun o' => o'.map ImportName.erase = o.map ImportName.erase) (r :: rs) := by
  have hne : r.kind ≠ .delimiter .dot ∧ r.kind ≠ .identifier := by
    refine ⟨?_, ?_⟩ <;> (intro hk; rw [hk] at hr; cases hr)
  cases o with
  | none =>
    refine (gives_peek hp).bind fun t q₁ _ h₁ => ?_
    refine (gives_consumeIf_false h₁.holds hne.1).bind ?_
    rintro _ q₂ rfl h₂
    refine (gives_peekIs h₂.holds .identifier).bind ?_
    rintro _ q₃ rfl h₃
    rw [if_neg (by simpa using hne.2)]
    exact .pure h₃.holds rfl
  | some n =>
    cases n with
    | dot pos =>
      refine (gives_peek hp).bind fun t q₁ _ h₁ => ?_
      refine (gives_consumeIf_true h₁.holds (by simp) rfl).bind ?_
      rintro _ q₂ rfl h₂
      exact .pure h₂.holds rfl
    | blank pos =>
      refine (gives_peek hp).bind fun t q₁ _ h₁ => ?_
      refine (gives_consumeIf_false h₁.holds (by simp [importWord, Word.identifier])).bind ?_
      rintro _ q₂ rfl h₂
      refine (gives_peekIs h₂.holds .identifier).bind ?_
      rintro _ q₃ rfl h₃
      rw [if_pos (by simp [importWord, Word.identifier])]
      refine (gives_identifier _ h₃.holds (by simp)).bind fun i q₄ hi h₄ => .pure h₄.holds ?_
      simp [Ident.isBlank, hi, ImportName.erase]
    | named name =>
      refine (gives_peek hp).bind fun t q₁ _ h₁ => ?_
      refine (gives_consumeIf_false h₁.holds (by simp [importWord, Word.identifier])).bind ?_
      rintro _ q₂ rfl h₂
      refine (gives_peekIs h₂.holds .identifier).bind ?_
      rintro _ q₃ rfl h₃
      rw [if_pos (by simp [importWord, Word.identifier])]
      refine (gives_identifier _ h₃.holds (by simp)).bind fun i q₄ hi h₄ => .pure h₄.holds ?_
      have hblank : i.isBlank = false := by
        have hname := h name rfl
        simpa [Ident.isBlank, hi] using hname
      simp [hblank, hi, ImportName.erase, Ident.erase]

/-- The words of an import behind the keyword. -/
def importWords (form : LiteralForm) (i : Import) : List Word :=
  (i.name.map importWord).toList ++ [stringWord form i.path]

theorem spelled_import {i : Import} {form : LiteralForm} (h : i.Lawful)
    (hpath : (stringWord form i.path).Stands) :
    Spelled i.print (.keyword .importKw :: importWords form i) := by
  intro elides rest hrest
  have hspec : Spells false ((i.name.map fun n => (importWord n).text ++ [' ']).getD [] ++
      (i.path.raw ++ rest)) (importWords form i) true rest := by
    unfold importWords
    cases hname : i.name with
    | none => exact spelled_literal hpath false rest hrest
    | some n =>
      have hstands := stands_importWord (h.name n hname)
      have hsemi : (importWord n).kind = .delimiter .semicolon →
          importWord n = .delimiter .semicolon := by
        cases n <;> rintro ⟨⟩
      have hname : Spells false ((importWord n).text ++ ' ' :: (i.path.raw ++ rest))
          [importWord n, stringWord form i.path] true rest :=
        .word hstands hsemi (fun c hc => by cases hc; exact hstands.endsBefore_blank)
          (spelled_literal hpath _ rest hrest).blank
      simpa using hname
  have hall : Spells elides (Keyword.importKw.spelling.toList ++ ' ' :: _) _ true rest :=
    .keyword (by simp; decide) hspec.blank
  rw [print_import]
  simpa using hall

theorem mem_of_isString {form : LiteralForm} (h : form.isString = true) :
    Kind.literal form ∈ [Kind.literal .interpretedString, .literal .rawString] := by
  cases form <;> first | exact absurd h (by decide) | simp

theorem gives_importSpec {i : Import} {form : LiteralForm}
    (h : ∀ name, i.name = some (.named name) → name.isBlank = false)
    (hform : form.isString = true) (hp : p.Holds (importWords form i ++ r :: rs)) :
    Gives importSpec p (fun i' => i'.erase = i.erase) (r :: rs) := by
  have hholds : p.Holds ((i.name.map importWord).toList ++ stringWord form i.path :: r :: rs) := by
    simpa [importWords] using hp
  refine (gives_look hholds).bind fun first q₁ _ h₁ => ?_
  refine (gives_importName h h₁.holds hform).bind fun name q₂ hname h₂ => ?_
  refine (gives_require _ h₂.holds (by simp) (mem_of_isString hform)).bind fun t q₃ ht h₃ => ?_
  refine (gives_stringLit h₃.holds ht).bind fun path q₄ hpath' h₄ => ?_
  refine (gives_note h₄.holds _).bind fun _ q₅ _ h₅ => .pure h₅.holds ?_
  simp [Import.erase, hname, hpath']

/-- The imports are read from the words behind the keyword, the semicolon included. -/
structure GroupGives (l : List Import) (ws : List Word) : Prop where
  opens : ∃ v vs, ws = v :: vs ∧ v.kind ≠ .endOfFile
  gives : ∀ p r rs, p.Holds (ws ++ r :: rs) →
    Gives importGroup p (fun l' => l'.map Import.erase = l.map Import.erase) (r :: rs)

theorem importWords_opens (form : LiteralForm) (i : Import) :
    ∃ v vs, importWords form i = v :: vs ∧
      v.kind ∉ [.endOfFile, .delimiter .lparen, .delimiter .rparen, .delimiter .rbrace] := by
  unfold importWords
  cases i.name with
  | none => exact ⟨_, _, rfl, by simp [stringWord]⟩
  | some n =>
    refine ⟨_, _, rfl, ?_⟩
    cases n <;> simp [importWord, Word.delimiter, Word.identifier]

theorem gives_single {i : Import} {form : LiteralForm}
    (h : ∀ name, i.name = some (.named name) → name.isBlank = false)
    (hform : form.isString = true) :
    GroupGives [i] (importWords form i ++ [.delimiter .semicolon]) where
  opens := by
    obtain ⟨v, vs, hv, hk⟩ := importWords_opens form i
    exact ⟨v, _, by rw [hv]; rfl, fun he => hk (by simp [he])⟩
  gives p r rs hp := by
    obtain ⟨v, vs, hv, hk⟩ := importWords_opens form i
    rw [List.append_assoc, List.singleton_append, hv] at hp
    refine (gives_consumeIf_false hp fun he => hk (by simp [he])).bind ?_
    rintro _ q₁ rfl h₁
    have hspec : Gives (List.singleton <$> importSpec) q₁
        (fun l => l.map Import.erase = [i].map Import.erase)
        (.delimiter .semicolon :: r :: rs) :=
      (gives_importSpec h hform (by rw [hv]; exact h₁.holds)).map fun i' hi' => by
        simp [List.singleton, hi']
    refine hspec.bind fun l q₂ hl h₂ => ?_
    exact (gives_require _ h₂.holds (by simp) (by simp)).bind fun _ q₃ _ h₃ =>
      .pure h₃.holds hl

/-- The import is printed as the words, and read back from them with the semicolon behind. -/
structure ImportReads (i : Import) (ws : List Word) : Prop where
  spelled : Spelled i.print (.keyword .importKw :: ws)
  gives : GroupGives [i] (ws ++ [.delimiter .semicolon])

theorem reads_import {i : Import} (h : i.Lawful) : ∃ ws, ImportReads i ws := by
  obtain ⟨form, hform, hpath⟩ := h.path
  exact ⟨importWords form i, spelled_import h hpath,
    gives_single (fun name hn => (h.name _ hn).2) hform⟩

end Imports

section Files

/-- Parts on lines of their own, each of them behind `lead`. -/
theorem spells_lines {lead : Text} (hlead : lead = [] ∨ lead = ['\n'])
    {items : List (Text × List Word)} (hi : ∀ i ∈ items, Spelled i.1 i.2) (rest : Text) :
    Spells false (items.flatMap (fun i => lead ++ i.1 ++ ['\n']) ++ rest)
      (items.flatMap fun i => i.2 ++ [.delimiter .semicolon]) false rest := by
  induction items with
  | nil => exact .nil
  | cons i items ih =>
    have hrest := ih fun j hj => hi j (List.mem_cons_of_mem _ hj)
    have hline := (hi i List.mem_cons_self false ('\n' :: _) (by simp; decide)).trans hrest.endLine
    rcases hlead with rfl | rfl
    · simpa using hline
    · simpa using hline.emptyLine

/-- What reading back comes to for a declaration. -/
def DeclReads (s : Nat) (d : Decl) (ws : List Word) : Prop :=
  match d with
  | .func f => FuncReads s f ws

/-- The declarations are read from the words, each by itself, and stray semicolons passed over. -/
inductive DeclsGive (s : Nat) : List Decl → List Word → Prop
  | nil : DeclsGive s [] []
  | stray {ds : List Decl} {ws : List Word} (h : DeclsGive s ds ws) :
    DeclsGive s ds (.delimiter .semicolon :: ws)
  | func {f : FuncDecl} {ds : List Decl} {vs ws : List Word}
    (hf : FuncGives s f (.keyword .funcKw :: vs)) (h : DeclsGive s ds ws) :
    DeclsGive s (.func f :: ds) (.keyword .funcKw :: (vs ++ ws))

theorem gives_decl {f : FuncDecl} {ws : List Word} (h : FuncGives s f (.keyword .funcKw :: ws))
    (hs : s ≤ p.room) (hp : p.Holds (.keyword .funcKw :: ws ++ r :: rs)) :
    Gives decl p (fun d => d.erase = (Decl.func f).erase) (r :: rs) := by
  refine (gives_peek hp).bind fun t q₁ ht h₁ => ?_
  have hk : t.kind = .keyword .funcKw := by rw [← kind_word, ht]; rfl
  rw [hk]
  exact (h q₁ r rs (by rwa [h₁.room]) h₁.holds).map fun f' hf' => by simp [Decl.erase, hf']

theorem gives_declsFor {ds : List Decl} {ws : List Word} {n : Nat} (h : DeclsGive s ds ws)
    (hn : ws.length < n) (hs : s ≤ p.room) (hp : p.Holds (ws ++ [.endOfFile])) :
    Gives (declsFor n) p (fun l => l.map Decl.erase = ds.map Decl.erase) [.endOfFile] := by
  obtain ⟨n, rfl⟩ : ∃ m, n = m + 1 := ⟨n - 1, by omega⟩
  induction h generalizing n p with
  | nil =>
    refine (gives_consumeIf_false hp (by simp)).bind ?_
    rintro _ q₁ rfl h₁
    refine (gives_peekIs h₁.holds .endOfFile).bind ?_
    rintro _ q₂ rfl h₂
    rw [if_pos (by simp)]
    exact .pure h₂.holds rfl
  | stray _ ih =>
    obtain ⟨n, rfl⟩ : ∃ m, n = m + 1 := ⟨n - 1, by simp at hn; omega⟩
    refine (gives_consumeIf_true hp (by simp) rfl).bind ?_
    rintro _ q₁ rfl h₁
    exact ih (by rwa [h₁.room]) h₁.holds n (by simpa using hn)
  | @func f ds vs ws hf _ ih =>
    obtain ⟨n, rfl⟩ : ∃ m, n = m + 1 := ⟨n - 1, by simp at hn; omega⟩
    obtain ⟨w, us, hw⟩ := List.exists_cons_of_ne_nil (show ws ++ [Word.endOfFile] ≠ [] by simp)
    have hwords : p.Holds (.keyword .funcKw :: vs ++ w :: us) := by
      rw [← hw]
      simpa using hp
    refine (gives_consumeIf_false hwords (by simp)).bind ?_
    rintro _ q₁ rfl h₁
    refine (gives_peekIs h₁.holds .endOfFile).bind ?_
    rintro _ q₂ rfl h₂
    rw [if_neg (by simp)]
    have hq₂ := h₁.trans h₂
    refine (gives_decl hf (by rwa [hq₂.room]) h₂.holds).bind fun d q₃ hd h₃ => ?_
    have hq₃ := hq₂.trans h₃
    have hholds := h₃.holds
    rw [← hw] at hholds
    have hrest := ih (by rwa [hq₃.room]) hholds n (by simp at hn; omega)
    refine hrest.bind fun l q₄ hl h₄ => .pure h₄.holds ?_
    rw [List.map_cons, List.map_cons, hd, hl]

theorem DeclsGive.opens {ds : List Decl} {ws : List Word} (h : DeclsGive s ds ws) :
    ∃ v vs, ws ++ [.endOfFile] = v :: vs ∧ v.kind ≠ .keyword .importKw := by
  cases h with
  | nil => exact ⟨_, _, rfl, by simp⟩
  | stray => exact ⟨_, _, rfl, by simp⟩
  | func => exact ⟨_, _, rfl, by simp⟩

/-- The words of groups of imports. -/
def groupWords (groups : List (List Import × List Word)) : List Word :=
  groups.flatMap fun g => .keyword .importKw :: g.2

theorem gives_imports {groups : List (List Import × List Word)} {w : Word} {ws : List Word}
    (h : ∀ g ∈ groups, GroupGives g.1 g.2) (hw : w.kind ≠ .keyword .importKw)
    (hp : p.Holds (groupWords groups ++ w :: ws)) :
    Gives (openedList (.keyword .importKw) importGroup) p
      (fun l => l.flatten.map Import.erase = (groups.map Prod.fst).flatten.map Import.erase)
      (w :: ws) := by
  have hmeets : ∀ i ∈ groups.map fun g => (g.2, g.1.map Import.erase),
      Meets importGroup (List.map Import.erase) p .endOfFile
        [(Word.keyword .importKw).kind, w.kind] i := by
    intro i hi
    obtain ⟨g, hg, rfl⟩ := List.mem_map.1 hi
    obtain ⟨v, vs, hv, hne⟩ := (h g hg).opens
    refine ⟨v, vs, hv, hne, fun q r rs hq _ => (h g hg).gives q r rs ?_⟩
    rw [hv]
    exact hq.holds
  have hlist := Gives.openedList (by simpa [groupWords, List.flatMap_map] using hp) hw hmeets
  refine hlist.mono fun l hl => ?_
  rw [List.map_flatten, List.map_flatten, hl]
  simp [Function.comp_def]

/-- A file is read from its words, if its parts are. -/
theorem gives_file {groups : List (List Import × List Word)} {decls : List Decl} {ws : List Word}
    (start : Position) (package : Ident) (hg : ∀ g ∈ groups, GroupGives g.1 g.2)
    (hd : DeclsGive s decls ws) (hs : s ≤ p.room)
    (hp : p.Holds (.keyword .packageKw :: .identifier package.name :: .delimiter .semicolon ::
      (groupWords groups ++ (ws ++ [.endOfFile])))) :
    Gives file p (fun f => f.erase =
      (File.mk start package (groups.map Prod.fst).flatten decls).erase) [.endOfFile] := by
  obtain ⟨v, vs, hv, hne⟩ := hd.opens
  rw [hv] at hp
  refine (gives_require _ hp (by simp) (by simp)).bind fun opening q₁ _ h₁ => ?_
  refine (gives_identifier _ h₁.holds (by simp)).bind fun name q₂ hname h₂ => ?_
  refine (gives_require _ h₂.holds (by simp) (by simp)).bind fun _ q₃ _ h₃ => ?_
  refine (gives_note h₃.holds _).bind fun _ q₄ _ h₄ => ?_
  refine (gives_imports hg hne h₄.holds).bind fun l q₅ hl h₅ => ?_
  have hq₅ := (((h₁.trans h₂).trans h₃).trans h₄).trans h₅
  have hholds := h₅.holds
  rw [← hv] at hholds
  have hdecls : Gives (bounded declsFor) q₅ (fun l => l.map Decl.erase = decls.map Decl.erase)
      [.endOfFile] := by
    refine gives_declsFor hd ?_ (by rwa [hq₅.room]) hholds
    have hlen := hholds.length
    simp only [List.length_append, List.length_singleton] at hlen
    omega
  refine hdecls.bind fun l' q₆ hl' h₆ => .pure h₆.holds ?_
  simp [File.erase, Ident.erase, hname, hl, hl']

/-- The words of declarations that open with the keyword and end in a semicolon. -/
def lineWords (k : Keyword) (lines : List (List Word)) : List Word :=
  lines.flatMap fun ws => .keyword k :: (ws ++ [.delimiter .semicolon])

/-- Declarations on lines of their own, with no stray semicolons. -/
theorem declsGive_lines {pairs : List (Decl × List Word)} (h : ∀ i ∈ pairs, DeclReads s i.1 i.2) :
    DeclsGive s (pairs.map Prod.fst) (lineWords .funcKw (pairs.map Prod.snd)) := by
  induction pairs with
  | nil => exact .nil
  | cons i pairs ih =>
    obtain ⟨⟨f⟩, ws⟩ := i
    have hf : FuncReads s f ws := h _ List.mem_cons_self
    exact .func hf.gives (ih fun j hj => h j (List.mem_cons_of_mem _ hj))

theorem spells_file {start : Position} {package : Ident} {ips : List (Import × List Word)}
    {dps : List (Decl × List Word)} (h : package.Lawful) (hi : ∀ i ∈ ips, ImportReads i.1 i.2)
    (hd : ∀ i ∈ dps, DeclReads s i.1 i.2) :
    Spells false (File.mk start package (ips.map Prod.fst) (dps.map Prod.fst)).print
      ([.keyword .packageKw, .identifier package.name, .delimiter .semicolon] ++
        (lineWords .importKw (ips.map Prod.snd) ++ lineWords .funcKw (dps.map Prod.snd))) false [] := by
  have hdecls : Spells false ((dps.map Prod.fst).flatMap fun d => '\n' :: d.print ++ ['\n'])
      (lineWords .funcKw (dps.map Prod.snd)) false [] := by
    have hitems : ∀ i ∈ dps.map fun i => (i.1.print, Word.keyword .funcKw :: i.2), Spelled i.1 i.2 := by
      intro i hi
      obtain ⟨⟨⟨f⟩, ws⟩, hj, rfl⟩ := List.mem_map.1 hi
      exact (hd _ hj).spelled
    have hlines := spells_lines (.inr rfl) hitems []
    simpa [lineWords, List.flatMap_map] using hlines
  have himports : ∀ rest, Spells false (((ips.map Prod.fst).flatMap fun i => i.print ++ ['\n']) ++ rest)
      (lineWords .importKw (ips.map Prod.snd)) false rest := by
    intro rest
    have hitems : ∀ i ∈ ips.map fun i => (i.1.print, Word.keyword .importKw :: i.2),
        Spelled i.1 i.2 := by
      intro i hi'
      obtain ⟨j, hj, rfl⟩ := List.mem_map.1 hi'
      exact (hi j hj).spelled
    have hlines := spells_lines (.inl rfl) hitems rest
    simpa [lineWords, List.flatMap_map] using hlines
  have hbody : Spells false ((if (ips.map Prod.fst).isEmpty then []
      else '\n' :: (ips.map Prod.fst).flatMap fun i => i.print ++ ['\n']) ++
        (dps.map Prod.fst).flatMap fun d => '\n' :: d.print ++ ['\n'])
      (lineWords .importKw (ips.map Prod.snd) ++ lineWords .funcKw (dps.map Prod.snd)) false [] := by
    cases ips with
    | nil => exact hdecls
    | cons i ips => exact ((himports _).trans hdecls).emptyLine
  rw [File.print_eq, List.append_assoc, List.append_assoc]
  refine .keyword (by simp; decide) (.blank ?_)
  exact (spelled_identifier h false ('\n' :: _) (by simp; decide)).trans hbody.endLine

/-- Every file that fits is printed as words that are read back as the file. -/
theorem reads_file {f : File} (h : f.Fits s) : ∃ ws, Spells false f.print ws false [] ∧
    ∀ p : Parser, s ≤ p.room → p.Holds (ws ++ [.endOfFile]) →
      Gives file p (fun f' => f'.erase = f.erase) [.endOfFile] := by
  obtain ⟨start, package, imports, decls⟩ := f
  obtain ⟨ips, rfl, himports⟩ := exists_pairs fun i hi => reads_import (h.imports i hi)
  obtain ⟨dps, rfl, hdecls⟩ : ∃ pairs : List (Decl × List Word), pairs.map Prod.fst = decls ∧
      ∀ i ∈ pairs, DeclReads s i.1 i.2 := by
    refine exists_pairs fun d hd => ?_
    have hfits := h.decls d hd
    obtain ⟨f⟩ := d
    exact reads_funcDecl hfits
  refine ⟨[.keyword .packageKw, .identifier package.name, .delimiter .semicolon] ++
    (lineWords .importKw (ips.map Prod.snd) ++ lineWords .funcKw (dps.map Prod.snd)), ?_, ?_⟩
  · exact spells_file h.package himports hdecls
  · intro p hs hp
    have hgroups : ∀ g ∈ ips.map fun i => ([i.1], i.2 ++ [Word.delimiter .semicolon]),
        GroupGives g.1 g.2 := by
      intro g hg
      obtain ⟨i, hi, rfl⟩ := List.mem_map.1 hg
      exact (himports i hi).gives
    have hflat : ((ips.map fun i => ([i.1], i.2 ++ [Word.delimiter .semicolon])).map
        Prod.fst).flatten = ips.map Prod.fst := by
      rw [List.map_map, ← List.flatMap_def, List.map_eq_flatMap]
      rfl
    have hgives := gives_file start package hgroups (declsGive_lines hdecls) hs
      (by simpa [groupWords, lineWords, List.flatMap_map] using hp)
    rwa [hflat] at hgives

end Files

end Parse
end GoSyntax
