import GoSyntax.Proofs.Grammar.Entries
import GoSyntax.Proofs.Tree.Yield

/-! The grammar of types, without the rules that read them. -/
namespace GoSyntax

open Parse (Entry)

/-- The words of a name. -/
def nameWords (n : NamedType) : List Word :=
  match n.package with
  | some package => [.identifier package.name, .delimiter .dot, .identifier n.name.name]
  | none => [.identifier n.name.name]

theorem nameWords_eq (n : NamedType) : ∃ w ws, nameWords n = w :: ws ∧ w.kind = .identifier := by
  unfold nameWords
  split
  · exact ⟨_, _, rfl, rfl⟩
  · exact ⟨_, _, rfl, rfl⟩

/-- The words of names behind a first one. -/
def moreNames (names : List Ident) : List Word :=
  names.flatMap fun i => [.delimiter .comma, .identifier i.name]

/-- The word that a string literal is written as. -/
def stringWord (form : LiteralForm) (x : StringLit) : Word :=
  ⟨.literal form, x.raw, some (.text x.value)⟩

/-- The words of the tag behind a field. -/
inductive TagWords : Option StringLit → List Word → Prop
  | none : TagWords none []
  | some {form : LiteralForm} {x : StringLit} (h : (Kind.literal form).isString = true) :
    TagWords (some x) [stringWord form x]

/-- What a derivation is of. -/
inductive Phrase
  | type (t : TypeRef)
  | field (f : FieldGroup)
  | elem (e : InterfaceElem)
  | entry (e : Entry)
  | params (l : ParamList)
  | results (o : Option ParamList)
  | signature (x : Signature)

/-- The words derive the phrase. Whatever stands in a tree for the places of its tokens makes no
difference, and parentheses around a type leave no trace in it. Members end with semicolons, of
which the last may be missing; entries are set apart by commas, and one more may follow them. -/
inductive Derives : Phrase → List Word → Prop
  | named (n : NamedType) : Derives (.type (.named n)) (nameWords n)
  | paren {t : TypeRef} {ws : List Word} (h : Derives (.type t) ws) :
    Derives (.type t) (.delimiter .lparen :: (ws ++ [.delimiter .rparen]))
  | slice {t : TypeRef} {ws : List Word} (start : Position) (h : Derives (.type t) ws) :
    Derives (.type (.slice start t)) (.delimiter .lbracket :: .delimiter .rbracket :: ws)
  | ellipsisArray {t : TypeRef} {ws : List Word} (start : Position) (h : Derives (.type t) ws) :
    Derives (.type (.ellipsisArray start t))
      (.delimiter .lbracket :: .operator .ellipsis :: .delimiter .rbracket :: ws)
  | array {length : Expr} {t : TypeRef} {vs ws : List Word} (start : Position)
    (hl : length.Canonical) (hy : length.Yield vs) (h : Derives (.type t) ws) :
    Derives (.type (.array start length t))
      (.delimiter .lbracket :: (vs ++ .delimiter .rbracket :: ws))
  | pointer {t : TypeRef} {ws : List Word} (start : Position) (h : Derives (.type t) ws) :
    Derives (.type (.pointer start t)) (.operator .mul :: ws)
  | map {key t : TypeRef} {vs ws : List Word} (start : Position) (hk : Derives (.type key) vs)
    (h : Derives (.type t) ws) :
    Derives (.type (.map start key t))
      (.keyword .mapKw :: .delimiter .lbracket :: (vs ++ .delimiter .rbracket :: ws))
  | func {x : Signature} {ws : List Word} (start : Position) (h : Derives (.signature x) ws) :
    Derives (.type (.func start x)) (.keyword .funcKw :: ws)
  | chanSend {t : TypeRef} {ws : List Word} (start : Position) (h : Derives (.type t) ws) :
    Derives (.type (.chan start .send t)) (.keyword .chanKw :: .operator .chan :: ws)
  | chanBoth {t : TypeRef} {ws : List Word} (start : Position) (h : Derives (.type t) ws)
    (hw : ∀ w ∈ ws.head?, w.kind ≠ .operator .chan) :
    Derives (.type (.chan start .both t)) (.keyword .chanKw :: ws)
  | chanRecv {t : TypeRef} {ws : List Word} (start : Position) (h : Derives (.type t) ws) :
    Derives (.type (.chan start .recv t)) (.operator .chan :: .keyword .chanKw :: ws)
  | struct {fields : List (FieldGroup × List Word)} {ws : List Word} (start stop : Position)
    (h : ∀ i ∈ fields, Derives (.field i.1) i.2)
    (hs : Separated (.delimiter .semicolon) (fields.map Prod.snd) ws) :
    Derives (.type (.struct start (fields.map Prod.fst) stop))
      (.keyword .structKw :: .delimiter .lbrace :: (ws ++ [.delimiter .rbrace]))
  | interface {elems : List (InterfaceElem × List Word)} {ws : List Word} (start stop : Position)
    (h : ∀ i ∈ elems, Derives (.elem i.1) i.2)
    (hs : Separated (.delimiter .semicolon) (elems.map Prod.snd) ws) :
    Derives (.type (.interface start (elems.map Prod.fst) stop))
      (.keyword .interfaceKw :: .delimiter .lbrace :: (ws ++ [.delimiter .rbrace]))
  | namedField {t : TypeRef} {tag : Option StringLit} {ws ts : List Word} (name : Ident)
    (names : List Ident) (h : Derives (.type t) ws) (ht : TagWords tag ts) :
    Derives (.field ⟨name :: names, t, tag⟩)
      (.identifier name.name :: (moreNames names ++ (ws ++ ts)))
  | embeddedField {t : TypeRef} {tag : Option StringLit} {ws ts : List Word}
    (h : Derives (.type t) ws) (ht : TagWords tag ts) : Derives (.field ⟨[], t, tag⟩) (ws ++ ts)
  | method {x : Signature} {ws : List Word} (name : Ident) (h : Derives (.signature x) ws) :
    Derives (.elem (.method name x)) (.identifier name.name :: ws)
  | embeddedElem (n : NamedType) : Derives (.elem (.embedded n)) (nameWords n)
  | variadic {t : TypeRef} {ws : List Word} (h : Derives (.type t) ws) :
    Derives (.entry (.variadic t)) (.operator .ellipsis :: ws)
  | plain {t : TypeRef} {ws : List Word} (h : Derives (.type t) ws)
    (hw : ∀ name, ws ≠ [.identifier name]) : Derives (.entry (.plain t)) ws
  | bare (name : Ident) : Derives (.entry (.lone name)) [.identifier name.name]
  | namedEntry {t : TypeRef} {ws : List Word} (name : Ident) (h : Derives (.type t) ws) :
    Derives (.entry (.named name false t)) (.identifier name.name :: ws)
  | namedVariadic {t : TypeRef} {ws : List Word} (name : Ident) (h : Derives (.type t) ws) :
    Derives (.entry (.named name true t)) (.identifier name.name :: .operator .ellipsis :: ws)
  | params {entries : List (Entry × List Word)} {ps : List Param} {ws : List Word}
    (start stop : Position) (h : ∀ i ∈ entries, Derives (.entry i.1) i.2)
    (hs : Separated (.delimiter .comma) (entries.map Prod.snd) ws)
    (hp : Entry.Settles false (entries.map Prod.fst) ps) :
    Derives (.params ⟨start, ps, stop⟩) (.delimiter .lparen :: (ws ++ [.delimiter .rparen]))
  | noResult : Derives (.results none) []
  | listResult {l : ParamList} {ws : List Word} (h : Derives (.params l) ws) :
    Derives (.results (some l)) ws
  | bareResult {t : TypeRef} {ws : List Word} (start stop : Position) (h : Derives (.type t) ws) :
    Derives (.results (some ⟨start, [⟨none, false, false, t⟩], stop⟩)) ws
  | signature {args : ParamList} {results : Option ParamList} {ws vs : List Word}
    (ha : Derives (.params args) ws) (hr : Derives (.results results) vs) :
    Derives (.signature ⟨args, results⟩) (ws ++ vs)

namespace Derives

variable {t : TypeRef} {w : Word} {ws : List Word}

/-- Only a name opens with an identifier. -/
theorem of_identifier (h : Derives (.type t) (w :: ws)) (hk : w.kind = .identifier) :
    ∃ n, t = .named n ∧ w :: ws = nameWords n := by
  generalize hws : w :: ws = us at h
  cases h with
  | named n => exact ⟨n, rfl, rfl⟩
  | _ =>
    cases hws
    cases hk

theorem proper {e : Entry} (h : Derives (.entry e) ws) : e.Proper := by
  cases h with
  | variadic _ => exact .variadic _
  | plain _ _ => exact .plain _
  | bare name => exact .lone name
  | namedEntry name _ => exact .named name false _
  | namedVariadic name _ => exact .named name true _

end Derives

/-- The words of a list in parentheses: its entries, which settle as its parameters. -/
structure ListDerives (namesRequired : Bool) (entries : List (Entry × List Word)) (l : ParamList)
    (ws : List Word) : Prop where
  derived : ∀ i ∈ entries, Derives (.entry i.1) i.2
  settles : Entry.Settles namesRequired (entries.map Prod.fst) l.params
  words : ∃ vs, Separated (.delimiter .comma) (entries.map Prod.snd) vs ∧
    ws = .delimiter .lparen :: (vs ++ [.delimiter .rparen])

theorem ListDerives.derives {entries : List (Entry × List Word)} {l : ParamList} {ws : List Word}
    (h : ListDerives false entries l ws) : Derives (.params l) ws := by
  obtain ⟨vs, hs, rfl⟩ := h.words
  obtain ⟨start, ps, stop⟩ := l
  exact .params start stop h.derived hs h.settles

end GoSyntax
