import Mathlib.Data.List.Forall2
import GoSyntax.Grammar.Session
import GoSyntax.Proofs.Grammar.Entries

/-! Trees laid out in tokens. The text of a part of a tree is a row of marks and of the texts of
smaller parts, and the part starts with the first token of its text and stops with the last. A
parenthesis that only groups a type counts for no part. -/
namespace GoSyntax

/-- The parts of a tree that have an extent. -/
inductive Piece
  | ident (i : Ident)
  | string (s : StringLit)
  | literal (l : BasicLit)
  | named (n : NamedType)
  | type (t : TypeRef)
  | expr (e : Expr)
  | params (l : ParamList)
  | signature (s : Signature)
  | block (b : Block)
  | decl (d : Decl)

namespace Piece

def start : Piece → Position
  | ident i => i.start
  | string s => s.pos
  | literal l => l.pos
  | named n => n.start
  | type t => t.start
  | expr e => e.start
  | params l => l.start
  | signature s => s.start
  | block b => b.start
  | decl d => d.start

def stop : Piece → Position
  | ident i => i.stop
  | string s => s.stop
  | literal l => l.stop
  | named n => n.stop
  | type t => t.stop
  | expr e => e.stop
  | params l => l.stop
  | signature s => s.stop
  | block b => b.stop
  | decl d => d.stop

end Piece

/-- One place in a row. -/
inductive Slot
  /-- A token that fits. -/
  | token (fits : Token → Prop)
  /-- Any number of tokens of these kinds. -/
  | any (kinds : List Kind)
  | part (p : Piece)

namespace Slot

variable {α β : Type}

def mark (kind : Kind) : Slot := .token (·.kind = kind)

def piece? : Slot → Option Piece
  | part p => some p
  | _ => none

/-- The pieces of a row, in order. -/
def pieces (row : List Slot) : List Piece := row.filterMap piece?

/-- Items with tokens of the kinds around them. -/
def list (row : α → List Slot) (kinds : List Kind) : List α → List Slot
  | [] => [.any kinds]
  | a :: l => .any kinds :: (row a ++ list row kinds l)

theorem pieces_append (row row' : List Slot) : pieces (row ++ row') = pieces row ++ pieces row' :=
  List.filterMap_append

theorem pieces_list (row : α → List Slot) (kinds : List Kind) (l : List α) :
    pieces (list row kinds l) = l.flatMap fun a => pieces (row a) := by
  induction l with
  | nil => rfl
  | cons a l ih =>
    rw [List.flatMap_cons, ← ih, ← pieces_append]
    rfl

end Slot

open Slot (mark)

def NamedType.slots (n : NamedType) : List Slot :=
  (n.package.toList.flatMap fun i => [.part (.ident i), mark (.delimiter .dot)]) ++
    [.part (.ident n.name)]

def Expr.slots : Expr → List Slot
  | ident i => [.part (.ident i)]
  | literal l => [.part (.literal l)]
  | selector base field => [.part (.expr base), mark (.delimiter .dot), .part (.ident field)]
  | paren _ inner _ => [mark (.delimiter .lparen), .part (.expr inner), mark (.delimiter .rparen)]
  | unary _ op operand => [mark (.operator op), .part (.expr operand)]
  | binary op left right => [.part (.expr left), mark (.operator op), .part (.expr right)]
  | call function args _ =>
    .part (.expr function) :: mark (.delimiter .lparen) ::
      (Slot.list (fun e => [.part (.expr e)]) [.delimiter .comma] args ++
        [mark (.delimiter .rparen)])

def FieldGroup.slots (f : FieldGroup) : List Slot :=
  Slot.list (fun i => [.part (.ident i)]) [.delimiter .comma] f.names ++
    .part (.type f.type) :: f.tag.toList.map (.part <| .string ·)

def InterfaceElem.slots : InterfaceElem → List Slot
  | method name signature => [.part (.ident name), .part (.signature signature)]
  | embedded name => [.part (.named name)]

/-- The tokens that tell the direction of a channel. -/
def ChanDir.slots : ChanDir → List Slot
  | send => [mark (.keyword .chanKw), mark (.operator .chan)]
  | recv => [mark (.operator .chan), mark (.keyword .chanKw)]
  | both => [mark (.keyword .chanKw)]

def TypeRef.slots : TypeRef → List Slot
  | named name => [.part (.named name)]
  | array _ length elem =>
    [mark (.delimiter .lbracket), .part (.expr length), mark (.delimiter .rbracket),
      .part (.type elem)]
  | slice _ elem =>
    [mark (.delimiter .lbracket), mark (.delimiter .rbracket), .part (.type elem)]
  | ellipsisArray _ elem =>
    [mark (.delimiter .lbracket), mark (.operator .ellipsis), mark (.delimiter .rbracket),
      .part (.type elem)]
  | struct _ fields _ =>
    mark (.keyword .structKw) :: mark (.delimiter .lbrace) ::
      (Slot.list FieldGroup.slots [.delimiter .semicolon] fields ++ [mark (.delimiter .rbrace)])
  | pointer _ elem => [mark (.operator .mul), .part (.type elem)]
  | func _ signature => [mark (.keyword .funcKw), .part (.signature signature)]
  | interface _ elems _ =>
    mark (.keyword .interfaceKw) :: mark (.delimiter .lbrace) ::
      (Slot.list InterfaceElem.slots [.delimiter .semicolon] elems ++ [mark (.delimiter .rbrace)])
  | map _ key value =>
    [mark (.keyword .mapKw), mark (.delimiter .lbracket), .part (.type key),
      mark (.delimiter .rbracket), .part (.type value)]
  | chan _ dir elem => dir.slots ++ [.part (.type elem)]

/-- The three dots of a variadic parameter. -/
def variadicSlots (isVariadic : Bool) : List Slot :=
  if isVariadic then [mark (.operator .ellipsis)] else []

/-- A type that was inferred has no text here. -/
def Param.slots (p : Param) : List Slot :=
  p.name.toList.map (.part <| .ident ·) ++ (variadicSlots p.variadic ++
    if p.inferred then [] else [.part (.type p.type)])

/-- The list in parentheses. -/
def ParamList.slots (l : ParamList) : List Slot :=
  mark (.delimiter .lparen) ::
    (Slot.list Param.slots [.delimiter .comma] l.params ++ [mark (.delimiter .rparen)])

def Signature.slots (s : Signature) : List Slot :=
  .part (.params s.args) :: s.results.toList.map (.part <| .params ·)

def Block.slots (b : Block) : List Slot :=
  mark (.delimiter .lbrace) ::
    (b.tokens.map (fun t => .token (· = t)) ++ [mark (.delimiter .rbrace)])

def FuncDecl.slots (f : FuncDecl) : List Slot :=
  mark (.keyword .funcKw) :: (f.receiver.toList.map (.part <| .params ·) ++
    .part (.ident f.name) :: .part (.signature f.signature) ::
      f.body.toList.map (.part <| .block ·))

/-- Nothing is left of the name of an import but where it stands, unless it is a true name. -/
def ImportName.slots : ImportName → List Slot
  | dot _ => [mark (.delimiter .dot)]
  | blank _ => [mark .identifier]
  | named name => [.part (.ident name)]

def Import.slots (i : Import) : List Slot :=
  i.name.toList.flatMap ImportName.slots ++ [.part (.string i.path)]

/-- What can stand between the parts of a file. -/
def File.between : List Kind :=
  [.keyword .importKw, .delimiter .lparen, .delimiter .rparen, .delimiter .semicolon]

def File.slots (f : File) : List Slot :=
  mark (.keyword .packageKw) :: .part (.ident f.package) ::
    (Slot.list Import.slots File.between f.imports ++
      Slot.list (fun d => [.part (.decl d)]) File.between f.decls)

/-- The parts of a tree at its top. Semicolons behind a declaration are no part of it. -/
def Tree.slots : Tree → List Slot
  | file f => f.slots
  | decl d => [.part (.decl d), .any [.delimiter .semicolon]]
  | func f => [.part (.decl (.func f)), .any [.delimiter .semicolon]]
  | signature s => [.part (.signature s)]
  | params l => [.part (.params l)]
  | type t => [.part (.type t)]
  | expr e => [.part (.expr e)]
  | block b => [.part (.block b)]
  | ident i => [.part (.ident i)]
  | nothing => []

namespace Token

/-- There are tokens, and the first of them stands there. -/
def FirstAt (ts : List Token) (pos : Position) : Prop := ts.head?.map Token.pos = some pos

/-- There are tokens, and the last of them ends there. -/
def LastAt (ts : List Token) (pos : Position) : Prop := ts.getLast?.map Token.stop = some pos

variable {t : Token} {ts us : List Token} {pos : Position}

theorem FirstAt.append (h : FirstAt ts pos) (us : List Token) : FirstAt (ts ++ us) pos := by
  obtain ⟨t, ht, rfl⟩ := Option.map_eq_some_iff.1 h
  rw [FirstAt, List.head?_append, ht]
  rfl

theorem LastAt.behind (h : LastAt us pos) (ts : List Token) : LastAt (ts ++ us) pos := by
  obtain ⟨t, ht, rfl⟩ := Option.map_eq_some_iff.1 h
  rw [LastAt, List.getLast?_append, ht]
  rfl

theorem lastAt_snoc (ts : List Token) (t : Token) : LastAt (ts ++ [t]) t.stop := by
  rw [LastAt, List.getLast?_append]
  rfl

end Token

namespace Piece

/-- The row that a piece is written as. -/
def slots : Piece → List Slot
  | ident i => [.token fun t => t.kind = .identifier ∧ .ofToken t = i]
  | string s => [.token fun t => t.kind.isString = true ∧ t.value = some (.text s.value) ∧
      t.pos = s.pos ∧ t.text = s.raw]
  | literal l => [.token fun t => t.kind = .literal l.form ∧ t.value = some l.value ∧
      t.pos = l.pos ∧ t.text = l.raw]
  | named n => n.slots
  | type t => t.slots
  | expr e => e.slots
  | params l => l.slots
  | signature s => s.slots
  | block b => b.slots
  | decl (.func f) => f.slots

/-- The pieces right below a piece that have a text of their own. -/
def parts (p : Piece) : List Piece := Slot.pieces p.slots

/-- The types of parameters that were taken from parameters further right. -/
def copies : Piece → List Piece
  | params l => (l.params.filter Param.inferred).map (.type ·.type)
  | _ => []

/-- The pieces right below a piece, the copied ones last. -/
def children (p : Piece) : List Piece := p.parts ++ p.copies

/-- The rows that a piece can be written as: what its own row is, and for a result that stands alone
just the type. What was copied is a part as well. -/
inductive Layout : Piece → List Slot → Prop
  | own {p : Piece} (h : ∀ c ∈ p.copies, c ∈ p.parts) : Layout p p.slots
  | bare {l : ParamList} {t : TypeRef} (h : l.params = [⟨none, false, false, t⟩]) :
    Layout (.params l) [.part (.type t)]

/-- The piece starts with the first of the tokens and stops with the last. -/
structure Spans (p : Piece) (own : List Token) : Prop where
  first : Token.FirstAt own p.start
  last : Token.LastAt own p.stop

theorem Layout.plain {p : Piece} (h : p.copies = []) : p.Layout p.slots :=
  .own (by simp [h])

theorem Layout.pieces_eq {p : Piece} {row : List Slot} (h : p.Layout row) :
    Slot.pieces row = p.parts := by
  cases h with
  | own => rfl
  | bare h =>
    rw [parts, slots, ParamList.slots, h]
    rfl

/-- All children of a piece stand in its row. -/
theorem Layout.mem_pieces {p c : Piece} {row : List Slot} (h : p.Layout row)
    (hc : c ∈ p.children) : c ∈ Slot.pieces row := by
  rw [h.pieces_eq]
  rcases List.mem_append.1 hc with hc | hc
  · exact hc
  · cases h with
    | own h => exact h c hc
    | bare h => simp [copies, h] at hc

end Piece

/-- The tokens are laid out as the row. The last argument are those of them that count: all but the
parentheses that group types. -/
inductive Laid : List Slot → List Token → List Token → Prop
  | nil : Laid [] [] []
  | token {fits : Token → Prop} {row : List Slot} {t : Token} {ts own : List Token} (ht : fits t)
    (h : Laid row ts own) : Laid (.token fits :: row) (t :: ts) (t :: own)
  | none {kinds : List Kind} {row : List Slot} {ts own : List Token} (h : Laid row ts own) :
    Laid (.any kinds :: row) ts own
  | more {kinds : List Kind} {row : List Slot} {t : Token} {ts own : List Token}
    (hk : t.kind ∈ kinds) (h : Laid (.any kinds :: row) ts own) :
    Laid (.any kinds :: row) (t :: ts) (t :: own)
  | part {p : Piece} {inner row : List Slot} {ts us own own' : List Token} (hp : p.Layout inner)
    (hc : Laid inner ts own) (hs : p.Spans own) (h : Laid row us own') :
    Laid (.part p :: row) (ts ++ us) (own ++ own')
  | group {x : TypeRef} {row : List Slot} {opening closing : Token} {ts us own own' : List Token}
    (ho : opening.kind = .delimiter .lparen) (hc : closing.kind = .delimiter .rparen)
    (hx : Laid [.part (.type x)] ts own) (h : Laid row us own') :
    Laid (.part (.type x) :: row) (opening :: (ts ++ closing :: us)) (own ++ own')

namespace Laid

variable {p : Piece} {row row' inner : List Slot} {t : Token} {ts us own own' : List Token}
  {kinds : List Kind}

theorem append (h : Laid row ts own) (h' : Laid row' us own') :
    Laid (row ++ row') (ts ++ us) (own ++ own') := by
  induction h with
  | nil => exact h'
  | token ht _ ih => exact .token ht ih
  | none _ ih => exact .none ih
  | more hk _ ih => exact .more hk ih
  | part hp hc hs _ _ ih =>
    rw [List.append_assoc, List.append_assoc]
    exact .part hp hc hs ih
  | group ho hc hx _ _ ih =>
    rw [List.cons_append, List.append_assoc, List.cons_append, List.append_assoc]
    exact .group ho hc hx ih

/-- The first place of a row takes the first tokens. -/
theorem uncons {s : Slot} (h : Laid (s :: row) ts own) : ∃ us vs mine rest, ts = us ++ vs ∧
    own = mine ++ rest ∧ Laid [s] us mine ∧ Laid row vs rest := by
  generalize hall : s :: row = all at h
  induction h with
  | nil => cases hall
  | @token _ _ t ts own ht h =>
    cases hall
    exact ⟨[t], ts, [t], own, rfl, rfl, .token ht .nil, h⟩
  | @none _ _ ts own h =>
    cases hall
    exact ⟨[], ts, [], own, rfl, rfl, .none .nil, h⟩
  | @more _ _ t _ _ hk _ ih =>
    obtain ⟨us, vs, mine, rest, rfl, rfl, hus, hvs⟩ := ih hall
    cases hall
    exact ⟨t :: us, vs, t :: mine, rest, rfl, rfl, .more hk hus, hvs⟩
  | @part _ _ _ ts us own own' hp hc hs h =>
    cases hall
    refine ⟨ts, us, own, own', rfl, rfl, ?_, h⟩
    simpa using Laid.part hp hc hs .nil
  | @group _ _ opening closing ts us own own' ho hc hx h =>
    cases hall
    refine ⟨opening :: (ts ++ [closing]), us, own, own', by simp, rfl, ?_, h⟩
    simpa using Laid.group ho hc hx .nil

/-- A row that is cut in two cuts its tokens in two. -/
theorem split (h : Laid (row ++ row') ts own) : ∃ us vs mine rest, ts = us ++ vs ∧
    own = mine ++ rest ∧ Laid row us mine ∧ Laid row' vs rest := by
  induction row generalizing ts own with
  | nil => exact ⟨[], ts, [], own, rfl, rfl, .nil, h⟩
  | cons s row ih =>
    obtain ⟨us, vs, mine, rest, rfl, rfl, hs, hrest⟩ := h.uncons
    obtain ⟨us', vs, mine', rest, rfl, rfl, hrow, hrow'⟩ := ih hrest
    exact ⟨us ++ us', vs, mine ++ mine', rest, by simp, by simp, hs.append hrow, hrow'⟩

theorem eq_nil (h : Laid [] ts own) : ts = [] ∧ own = [] := by
  cases h
  exact ⟨rfl, rfl⟩

/-- What is laid out as the row of a piece is laid out as the piece. -/
theorem wrap (hp : p.Layout inner) (h : Laid inner ts own) (hs : p.Spans own) :
    Laid [.part p] ts own := by
  have hall := Laid.part hp h hs .nil
  rwa [List.append_nil, List.append_nil] at hall

/-- Within the parentheses around it, a piece is laid out as one of its rows, and reaches over what
counts of that. -/
theorem inside (h : Laid [.part p] ts own) :
    ∃ inner text, text <:+: ts ∧ p.Layout inner ∧ Laid inner text own ∧ p.Spans own := by
  generalize hrow : [Slot.part p] = row at h
  induction h with
  | nil => cases hrow
  | token => cases hrow
  | none => cases hrow
  | more => cases hrow
  | @part _ inner _ ts us _ _ hp hc hs h =>
    cases hrow
    rw [h.eq_nil.2, List.append_nil]
    exact ⟨inner, ts, (List.prefix_append ts us).isInfix, hp, hc, hs⟩
  | @group _ _ opening closing ts us _ _ _ _ _ h ih =>
    cases hrow
    obtain ⟨inner, text, htext, hinner⟩ := ih rfl
    have hwithin : ts <:+: opening :: (ts ++ closing :: us) := ⟨[opening], closing :: us, by simp⟩
    rw [h.eq_nil.2, List.append_nil]
    exact ⟨inner, text, htext.trans hwithin, hinner⟩

theorem spans (h : Laid [.part p] ts own) : p.Spans own := by
  obtain ⟨_, _, -, -, -, hs⟩ := h.inside
  exact hs

/-- A piece is laid out as one of its rows, unless a parenthesis is around it. -/
theorem unwrap (h : Laid [.part p] ts own) (ho : ∀ t, ts.head? = some t →
    t.kind ≠ .delimiter .lparen) : ∃ row, p.Layout row ∧ Laid row ts own := by
  generalize hrow : [Slot.part p] = row at h
  cases h with
  | nil => cases hrow
  | token => cases hrow
  | none => cases hrow
  | more => cases hrow
  | part hp hc _ h =>
    cases hrow
    rw [h.eq_nil.1, h.eq_nil.2, List.append_nil, List.append_nil]
    exact ⟨_, hp, hc⟩
  | group hopen => exact absurd hopen (ho _ rfl)

theorem mark {kind : Kind} (hk : t.kind = kind) (h : Laid row ts own) :
    Laid (mark kind :: row) (t :: ts) (t :: own) := .token hk h

end Laid

/-- The tokens are laid out as the row, whichever of them count. -/
def Fills (row : List Slot) (ts : List Token) : Prop := ∃ own, Laid row ts own

namespace Fills

open Token

variable {α β : Type} {p q : Piece} {row row' : List Slot} {t : Token} {ts us own : List Token}
  {kind : Kind} {kinds : List Kind}

theorem nil : Fills [] [] := ⟨[], .nil⟩

theorem append (h : Fills row ts) (h' : Fills row' us) : Fills (row ++ row') (ts ++ us) := by
  obtain ⟨own, h⟩ := h
  obtain ⟨own', h'⟩ := h'
  exact ⟨_, h.append h'⟩

/-- A piece that is just another one. -/
theorem same (hp : p.Layout [.part q]) (h : Fills [.part q] ts) (hstart : p.start = q.start)
    (hstop : p.stop = q.stop) : Fills [.part p] ts := by
  obtain ⟨own, h⟩ := h
  refine ⟨own, .wrap hp h ⟨?_, ?_⟩⟩
  · rw [hstart]
    exact h.spans.first
  · rw [hstop]
    exact h.spans.last

/-- A piece that ends with a smaller one. -/
theorem upTo (h : Laid row us own) (hx : Fills [.part q] ts) (hp : p.Layout (row ++ [.part q]))
    (hfirst : FirstAt own p.start) (hstop : p.stop = q.stop) : Fills [.part p] (us ++ ts) := by
  obtain ⟨own', hx⟩ := hx
  refine ⟨own ++ own', .wrap hp (h.append hx) ⟨hfirst.append own', ?_⟩⟩
  rw [hstop]
  exact hx.spans.last.behind own

/-- A piece that ends with a mark. -/
theorem closed (h : Laid row us own) (hk : t.kind = kind) (hp : p.Layout (row ++ [mark kind]))
    (hfirst : FirstAt own p.start) (hstop : p.stop = t.stop) : Fills [.part p] (us ++ [t]) := by
  refine ⟨own ++ [t], .wrap hp (h.append (.mark hk .nil)) ⟨hfirst.append [t], ?_⟩⟩
  rw [hstop]
  exact lastAt_snoc own t

/-- A piece that is one token. -/
theorem leaf {fits : Token → Prop} (hp : p.Layout [.token fits]) (ht : fits t)
    (hstart : p.start = t.pos) (hstop : p.stop = t.stop) : Fills [.part p] [t] := by
  refine ⟨[t], .wrap hp (.token ht .nil) ⟨?_, ?_⟩⟩
  · rw [hstart]
    rfl
  · rw [hstop]
    rfl

theorem ident (hk : t.kind = .identifier) : Fills [.part (.ident (.ofToken t))] [t] :=
  .leaf (.plain rfl) ⟨hk, rfl⟩ rfl rfl

theorem string {value : Text} (hk : t.kind.isString = true) (hv : t.value = some (.text value)) :
    Fills [.part (.string ⟨t.pos, t.text, value⟩)] [t] :=
  .leaf (.plain rfl) ⟨hk, hv, rfl, rfl⟩ rfl rfl

theorem literal {form : LiteralForm} {value : Value} (hk : t.kind = .literal form)
    (hv : t.value = some value) : Fills [.part (.literal ⟨t.pos, form, t.text, value⟩)] [t] :=
  .leaf (.plain rfl) ⟨hk, hv, rfl, rfl⟩ rfl rfl

theorem unqualified (hk : t.kind = .identifier) :
    Fills [.part (.named ⟨none, .ofToken t⟩)] [t] :=
  .same (.plain rfl) (.ident hk) rfl rfl

theorem qualified {dot name : Token} (hk : t.kind = .identifier)
    (hdot : dot.kind = .delimiter .dot) (hname : name.kind = .identifier) :
    Fills [.part (.named ⟨some (.ofToken t), .ofToken name⟩)] [t, dot, name] := by
  obtain ⟨own, h⟩ := Fills.ident hk
  exact .upTo (h.append (.mark hdot .nil)) (.ident hname) (.plain rfl)
    (h.spans.first.append _) rfl

theorem group {x : TypeRef} {opening closing : Token} (ho : opening.kind = .delimiter .lparen)
    (hc : closing.kind = .delimiter .rparen) (h : Fills [.part (.type x)] ts) :
    Fills [.part (.type x)] (opening :: (ts ++ [closing])) := by
  obtain ⟨own, h⟩ := h
  exact ⟨_, .group ho hc h .nil⟩

/-- A type that is a lone name and stands in no parentheses is written as the name. -/
theorem of_bareIdent {i : Ident} (h : Fills [.part (.type (.named ⟨none, i⟩))] ts)
    (hk : ∀ t, ts.head? = some t → t.kind = .identifier) : Fills [.part (.ident i)] ts := by
  have hopen : ∀ t, ts.head? = some t → t.kind ≠ .delimiter .lparen := fun t ht => by
    simp [hk t ht]
  obtain ⟨own, h⟩ := h
  obtain ⟨_, ⟨-⟩, hnamed⟩ := h.unwrap hopen
  obtain ⟨_, ⟨-⟩, hident⟩ := Laid.unwrap (p := .named ⟨none, i⟩) hnamed hopen
  exact ⟨own, hident⟩

theorem list_nil (f : α → List Slot) : Fills (Slot.list f kinds []) [] := ⟨[], .none .nil⟩

theorem list_cons {f : α → List Slot} {a : α} {l : List α} (h : Fills (f a) ts)
    (hl : Fills (Slot.list f kinds l) us) : Fills (Slot.list f kinds (a :: l)) (ts ++ us) := by
  obtain ⟨own, hall⟩ := h.append hl
  exact ⟨own, .none hall⟩

/-- A token that can stand between the items. -/
theorem list_more {f : α → List Slot} {l : List α} (hk : t.kind ∈ kinds)
    (h : Fills (Slot.list f kinds l) ts) : Fills (Slot.list f kinds l) (t :: ts) := by
  obtain ⟨own, h⟩ := h
  cases l with
  | nil => exact ⟨_, .more hk h⟩
  | cons a l => exact ⟨_, .more hk h⟩

theorem list_gap {f : α → List Slot} {l : List α} (h : Laid [.any kinds] ts own)
    (hl : Fills (Slot.list f kinds l) us) : Fills (Slot.list f kinds l) (ts ++ us) := by
  generalize hrow : [Slot.any kinds] = row at h
  induction h with
  | nil => exact hl
  | token => cases hrow
  | none h =>
    cases hrow
    rw [h.eq_nil.1]
    exact hl
  | more hk _ ih =>
    have hrest := ih hrow
    cases hrow
    exact hrest.list_more hk
  | part => cases hrow
  | group => cases hrow

theorem list_uncons {f : α → List Slot} {a : α} {l : List α}
    (h : Fills (Slot.list f kinds (a :: l)) ts) : ∃ gap us vs mine, ts = gap ++ (us ++ vs) ∧
      Laid [.any kinds] gap mine ∧ Fills (f a) us ∧ Fills (Slot.list f kinds l) vs := by
  obtain ⟨own, h⟩ := h
  obtain ⟨gap, _, mine, _, rfl, rfl, hgap, hrest⟩ := h.uncons
  obtain ⟨us, vs, _, _, rfl, rfl, ha, hl⟩ := hrest.split
  exact ⟨gap, us, vs, mine, rfl, hgap, ⟨_, ha⟩, _, hl⟩

theorem list_append {f : α → List Slot} {l l' : List α} (h : Fills (Slot.list f kinds l) ts)
    (h' : Fills (Slot.list f kinds l') us) : Fills (Slot.list f kinds (l ++ l')) (ts ++ us) := by
  induction l generalizing ts with
  | nil =>
    obtain ⟨own, h⟩ := h
    exact list_gap h h'
  | cons a l ih =>
    obtain ⟨gap, vs, ws, mine, rfl, hgap, ha, hl⟩ := h.list_uncons
    rw [List.append_assoc, List.append_assoc]
    exact list_gap hgap (ha.list_cons (ih hl))

theorem list_snoc {f : α → List Slot} {l : List α} (h : Fills (Slot.list f kinds l) ts)
    (hk : t.kind ∈ kinds) : Fills (Slot.list f kinds l) (ts ++ [t]) := by
  have hend : Fills (Slot.list f kinds []) [t] := (list_nil f).list_more hk
  have hall := h.list_append hend
  rwa [List.append_nil] at hall

theorem list_flatten {f : α → List Slot} {ls : List (List α)}
    (h : Fills (Slot.list (Slot.list f kinds) kinds ls) ts) :
    Fills (Slot.list f kinds ls.flatten) ts := by
  induction ls generalizing ts with
  | nil => exact h
  | cons l ls ih =>
    obtain ⟨gap, us, vs, mine, rfl, hgap, hl, hls⟩ := h.list_uncons
    exact list_gap hgap (hl.list_append (ih hls))

/-- Items can be taken for others that are written alike. -/
theorem list_congr {f : α → List Slot} {g : β → List Slot} {l : List α} {m : List β}
    (hlm : List.Forall₂ (fun a b => ∀ us, Fills (f a) us → Fills (g b) us) l m)
    (h : Fills (Slot.list f kinds l) ts) : Fills (Slot.list g kinds m) ts := by
  induction hlm generalizing ts with
  | nil => exact h
  | cons hab _ ih =>
    obtain ⟨gap, us, vs, mine, rfl, hgap, ha, hl⟩ := h.list_uncons
    exact list_gap hgap ((hab us ha).list_cons (ih hl))

end Fills

namespace Parse.Entry

open Parse (Entry)

/-- The row that an entry is written as, whatever becomes of it. -/
def slots : Entry → List Slot
  | variadic type => [mark (.operator .ellipsis), .part (.type type)]
  | lone name => [.part (.ident name)]
  | plain type | bare type => [.part (.type type)]
  | named name isVariadic type =>
    .part (.ident name) :: (variadicSlots isVariadic ++ [.part (.type type)])

variable {e : Entry} {es : List Entry} {ps : List Param} {ts : List Token} {namesRequired : Bool}
  {carried : Option TypeRef}

theorem fills_unnamed (h : e.isNamed = false) (hf : Fills e.slots ts) :
    Fills e.unnamed.slots ts := by
  unfold slots at hf
  split at hf
  · exact hf
  · rename_i name
    have hnamed : Fills [.part (.named ⟨none, name⟩)] ts := .same (.plain rfl) hf rfl rfl
    exact .same (.plain rfl) hnamed rfl rfl
  · exact hf
  · exact hf
  · cases h

theorem Resolves.written_alike (h : Resolves es ps carried) :
    List.Forall₂ (fun e d => ∀ us, Fills e.slots us → Fills (Param.slots d) us) es ps := by
  induction h with
  | nil => exact .nil
  | named name v type _ ih => exact .cons (fun us h => h) ih
  | bare name _ ih => exact .cons (fun us h => h) ih

/-- A parameter is written as the entry that it was made of. -/
theorem Settles.written_alike (h : Settles namesRequired es ps) :
    List.Forall₂ (fun e d => ∀ us, Fills e.slots us → Fills (Param.slots d) us) es ps := by
  cases h with
  | names _ _ h => exact h.written_alike
  | types _ hn _ =>
    refine List.forall₂_map_right_iff.2 (List.forall₂_same.2 fun e he us hf => ?_)
    exact fills_unnamed (Bool.eq_false_iff.2 fun hnamed => hn ⟨e, he, hnamed⟩) hf

/-- What is carried on is the type of a parameter that it is written with. -/
theorem Resolves.carried_written {type : TypeRef} (h : Resolves es ps (some type)) :
    ∃ d ∈ ps, d.inferred = false ∧ d.type = type := by
  generalize hc : some type = c at h
  induction h with
  | nil => cases hc
  | named name v type _ _ =>
    cases hc
    exact ⟨_, List.mem_cons_self, rfl, rfl⟩
  | bare name _ ih =>
    obtain ⟨d, hd, hwritten⟩ := ih hc
    exact ⟨d, List.mem_cons_of_mem _ hd, hwritten⟩

theorem Resolves.inferred_written (h : Resolves es ps carried) :
    ∀ d ∈ ps, d.inferred = true → ∃ d' ∈ ps, d'.inferred = false ∧ d'.type = d.type := by
  induction h with
  | nil => simp
  | named name v type _ ih =>
    refine List.forall_mem_cons.2 ⟨by simp, fun d hd hi => ?_⟩
    obtain ⟨d', hd', hwritten⟩ := ih d hd hi
    exact ⟨d', List.mem_cons_of_mem _ hd', hwritten⟩
  | bare name h ih =>
    refine List.forall_mem_cons.2 ⟨fun _ => ?_, fun d hd hi => ?_⟩
    · obtain ⟨d', hd', hwritten⟩ := h.carried_written
      exact ⟨d', List.mem_cons_of_mem _ hd', hwritten⟩
    · obtain ⟨d', hd', hwritten⟩ := ih d hd hi
      exact ⟨d', List.mem_cons_of_mem _ hd', hwritten⟩

/-- A type that was inferred is written with another parameter of the list. -/
theorem Settles.inferred_written (h : Settles namesRequired es ps) :
    ∀ d ∈ ps, d.inferred = true → ∃ d' ∈ ps, d'.inferred = false ∧ d'.type = d.type := by
  cases h with
  | names _ _ h => exact h.inferred_written
  | types _ _ _ =>
    intro d hd hi
    obtain ⟨e, -, rfl⟩ := List.mem_map.1 hd
    cases hi

end Parse.Entry

/-- What is copied in a list of parameters is a part of it. -/
theorem Piece.layout_params {l : ParamList} (h : ∀ d ∈ l.params, d.inferred = true →
    ∃ d' ∈ l.params, d'.inferred = false ∧ d'.type = d.type) : (Piece.params l).Layout l.slots := by
  refine .own (p := .params l) fun c hc => ?_
  obtain ⟨d, hd, rfl⟩ := List.mem_map.1 hc
  obtain ⟨hd, hi⟩ := List.mem_filter.1 hd
  obtain ⟨d', hd', hwritten, htype⟩ := h d hd hi
  have hmem : Piece.type d'.type ∈ Slot.pieces d'.slots := by
    simp [Slot.pieces, Param.slots, hwritten, Slot.piece?]
  have hparts : (Piece.params l).parts = Slot.pieces (Slot.list Param.slots [.delimiter .comma]
      l.params ++ [mark (.delimiter .rparen)]) := rfl
  rw [← htype, hparts, Slot.pieces_append, Slot.pieces_list]
  exact List.mem_append_left _ (List.mem_flatMap.2 ⟨d', hd', hmem⟩)

end GoSyntax
