import GoSyntax.Proofs.Identifiers
import GoSyntax.Proofs.Grammar.FileLays
import GoSyntax.Proofs.Tree.Pieces

/-! The extents of the parts of a tree. Each part starts where the first token of its text stands
and stops where the last one ends, so parts lie within the parts around them and follow one
another. -/
namespace GoSyntax

namespace Token

variable {t : Token} {ts us : List Token} {a b : Position}

theorem Spread.pos_le_stop (h : Spread ts) (ht : t ∈ ts) : t.pos ≤ t.stop :=
  Position.le_moved (h.column t ht) _

theorem FirstAt.exists_mem (h : FirstAt ts a) : ∃ t ∈ ts, t.pos = a := by
  obtain ⟨t, ht, rfl⟩ := Option.map_eq_some_iff.1 h
  exact ⟨t, List.mem_of_mem_head? ht, rfl⟩

theorem LastAt.exists_mem (h : LastAt ts b) : ∃ t ∈ ts, t.stop = b := by
  obtain ⟨t, ht, rfl⟩ := Option.map_eq_some_iff.1 h
  exact ⟨t, List.mem_of_getLast? ht, rfl⟩

/-- No token stands before the first. -/
theorem Spread.first_le (h : Spread ts) (ha : FirstAt ts a) (ht : t ∈ ts) : a ≤ t.pos := by
  cases ts with
  | nil => cases ht
  | cons u ts =>
    cases ha
    rcases List.mem_cons.1 ht with rfl | ht
    · exact Position.le_refl _
    · have hbefore := (List.pairwise_cons.1 h.pairs).1 t ht
      exact Position.le_trans (h.pos_le_stop List.mem_cons_self) hbefore.1

/-- No token ends behind the last. -/
theorem Spread.le_last (h : Spread ts) (hb : LastAt ts b) (ht : t ∈ ts) : t.stop ≤ b := by
  obtain ⟨u, hu, rfl⟩ := Option.map_eq_some_iff.1 hb
  obtain ⟨us, rfl⟩ := List.getLast?_eq_some_iff.1 hu
  rcases List.mem_append.1 ht with ht | ht
  · have hbefore := h.before ht u List.mem_cons_self
    exact Position.le_trans hbefore.1 (h.pos_le_stop (by simp))
  · rw [List.mem_singleton.1 ht]
    exact Position.le_refl _

end Token

namespace Laid

variable {p : Piece} {row : List Slot} {ts own : List Token}

/-- What counts is left of the tokens, in order. -/
theorem sublist (h : Laid row ts own) : own.Sublist ts := by
  induction h with
  | nil => exact .slnil
  | token _ _ ih => exact ih.cons_cons _
  | none _ ih => exact ih
  | more _ _ ih => exact ih.cons_cons _
  | part _ _ _ _ ihc ih => exact ihc.append ih
  | group _ _ _ _ ihx ih => exact .cons _ (ihx.append (.cons _ ih))

/-- A piece of a row has its own part of the tokens. -/
theorem of_mem (h : Laid row ts own) (hp : p ∈ Slot.pieces row) : ∃ inner text mine,
    text <:+: ts ∧ mine <:+: own ∧ p.Layout inner ∧ Laid inner text mine ∧ p.Spans mine := by
  obtain ⟨before, behind, rfl⟩ := List.append_of_mem (Slot.mem_pieces.1 hp)
  obtain ⟨us, _, own₁, _, rfl, rfl, -, hrest⟩ := h.split
  obtain ⟨vs, ws, mine, own₂, rfl, rfl, hpiece, -⟩ := hrest.uncons
  obtain ⟨inner, text, htext, hlayout, hlaid, hspans⟩ := hpiece.inside
  have hwithin : text <:+: us ++ (vs ++ ws) := htext.trans ⟨us, ws, by simp⟩
  exact ⟨inner, text, mine, hwithin, ⟨own₁, own₂, by simp⟩, hlayout, hlaid, hspans⟩

/-- The pieces of a row follow one another. -/
theorem ordered (h : Laid row ts own) (hs : Token.Spread own) :
    (Slot.pieces row).Pairwise fun c d => c.stop ≤ d.start := by
  induction row generalizing ts own with
  | nil => exact .nil
  | cons s row ih =>
    obtain ⟨us, vs, mine, rest, rfl, rfl, hpiece, hrest⟩ := h.uncons
    have hordered := ih hrest hs.right
    cases s with
    | token fits => exact hordered
    | any kinds => exact hordered
    | part c =>
      refine List.pairwise_cons.2 ⟨fun d hd => ?_, hordered⟩
      obtain ⟨_, _, mine', -, hmine', -, -, hspans⟩ := hrest.of_mem hd
      obtain ⟨t, ht, hstop⟩ := hpiece.spans.last.exists_mem
      obtain ⟨u, hu, hstart⟩ := hspans.first.exists_mem
      rw [← hstop, ← hstart]
      exact (hs.before ht u (hmine'.subset hu)).1

end Laid

namespace Piece

variable {p c : Piece} {ts own mine : List Token}

theorem Spans.start_le_stop (h : p.Spans own) (hs : Token.Spread own) : p.start ≤ p.stop := by
  obtain ⟨t, ht, hstop⟩ := h.last.exists_mem
  rw [← hstop]
  exact Position.le_trans (hs.first_le h.first ht) (hs.pos_le_stop ht)

theorem Spans.within (h : p.Spans own) (hs : Token.Spread own) (hc : c.Spans mine)
    (hm : mine <:+: own) : p.start ≤ c.start ∧ c.stop ≤ p.stop := by
  obtain ⟨t, ht, hstart⟩ := hc.first.exists_mem
  obtain ⟨u, hu, hstop⟩ := hc.last.exists_mem
  rw [← hstart, ← hstop]
  exact ⟨hs.first_le h.first (hm.subset ht), hs.le_last h.last (hm.subset hu)⟩

/-- The piece is written among the tokens: part of them is laid out as the piece, and it reaches
from the first to the last of those that count. -/
def StandsIn (p : Piece) (ts : List Token) : Prop :=
  ∃ row text own, text <:+: ts ∧ p.Layout row ∧ Laid row text own ∧ p.Spans own

/-- What stands in tokens has all its children there, copies included. -/
theorem StandsIn.child (h : p.StandsIn ts) (hc : c ∈ p.children) : c.StandsIn ts := by
  obtain ⟨row, text, own, htext, hlayout, hlaid, -⟩ := h
  obtain ⟨inner, text', mine, htext', -, hlayout', hlaid', hspans⟩ :=
    hlaid.of_mem (hlayout.mem_pieces hc)
  exact ⟨inner, text', mine, htext'.trans htext, hlayout', hlaid', hspans⟩

/-- The extent of a piece is that of a text, contains those of its children, and those of its parts
follow one another. -/
structure Nests (p : Piece) : Prop where
  start_le_stop : p.start ≤ p.stop
  within : ∀ c ∈ p.children, p.start ≤ c.start ∧ c.stop ≤ p.stop
  ordered : p.parts.Pairwise fun c d => c.stop ≤ d.start

theorem StandsIn.nests (h : p.StandsIn ts) (hs : Token.Spread ts) : p.Nests := by
  obtain ⟨row, text, own, htext, hlayout, hlaid, hspans⟩ := h
  have hown : Token.Spread own := hs.sublist (hlaid.sublist.trans htext.sublist)
  refine ⟨hspans.start_le_stop hown, fun c hc => ?_, ?_⟩
  · obtain ⟨_, _, mine, -, hmine, -, -, hchild⟩ := hlaid.of_mem (hlayout.mem_pieces hc)
    exact hspans.within hown hchild hmine
  · rw [← hlayout.pieces_eq]
    exact hlaid.ordered hown

end Piece

theorem Tree.Holds.standsIn {t : Tree} {ts : List Token} {p : Piece} (h : t.Holds p)
    (hf : Fills t.slots ts) : p.StandsIn ts := by
  induction h with
  | top hp =>
    obtain ⟨own, hf⟩ := hf
    obtain ⟨inner, text, mine, htext, -, hlayout, hlaid, hspans⟩ := hf.of_mem hp
    exact ⟨inner, text, mine, htext, hlayout, hlaid, hspans⟩
  | child _ hc ih => exact ih.child hc

namespace Parser

variable {us vs : List Token}

/-- Tokens that are taken before the end of a source or its first error are the first of those that
come before it. -/
theorem prefix_of_stream {b : Except Error Token} {rest rest' : List (Except Error Token)}
    (hus : ∀ t ∈ us, t.kind ≠ .endOfFile) (hb : ∀ t, b = .ok t → t.kind = .endOfFile)
    (h : us.map .ok ++ rest = vs.map .ok ++ b :: rest') : us <+: vs := by
  induction us generalizing vs with
  | nil => exact List.nil_prefix
  | cons u us ih =>
    obtain ⟨hu, hus⟩ := List.forall_mem_cons.1 hus
    cases vs with
    | nil => exact absurd (hb u (List.cons.inj h).1.symm) hu
    | cons v vs =>
      obtain ⟨huv, hrest⟩ := List.cons.inj h
      rw [Except.ok.inj huv]
      exact (List.prefix_cons_inj v).2 (ih hus hrest)

end Parser

/-- A call that succeeds was made on a parser at the start of a source. -/
theorem Rule.exists_of_parseFeed {rule : Rule} {limit : Nat} {file : String} {feed : Feed}
    {t : Tree} (h : rule.parseFeed limit file feed = .ok t) : ∃ x p q,
      Lexer.ofFeed file feed = .ok x ∧ Parser.ofFeed limit file feed = .ok p ∧
        Parser.ofLexer limit x = .ok p ∧ rule.parse p = .ok t q := by
  unfold Rule.parseFeed at h
  cases hp : Parser.ofFeed limit file feed with
  | error e => simp [hp, bind, Except.bind] at h
  | ok p =>
    simp only [hp, bind, Except.bind] at h
    cases hx : Lexer.ofFeed file feed with
    | error e => simp [Parser.ofFeed, hx, bind, Except.bind] at hp
    | ok x =>
      have hlexer : Parser.ofLexer limit x = .ok p := by
        simpa only [Parser.ofFeed, hx, bind, Except.bind] using hp
      cases hr : rule.parse p with
      | error e q => simp [hr, throw, throwThe, MonadExceptOf.throw] at h
      | ok u q =>
        obtain rfl : u = t := by simpa [hr, pure, Except.pure] using h
        exact ⟨x, p, q, rfl, rfl, hlexer, hr⟩

/-- The tree that a rule gives on a fresh parser is laid out in the tokens that were read, and these
stand one behind the other. -/
theorem fills_of_parseFeed {rule : Rule} {limit : Nat} {file : String} {feed : Feed} {t : Tree}
    (hlen : feed.byteCount < counterMax) (h : rule.parseFeed limit file feed = .ok t) :
    ∃ p q ts, Parser.ofFeed limit file feed = .ok p ∧ rule.parse p = .ok t q ∧
      p.stream = ts.map .ok ++ q.stream ∧ Fills t.slots ts ∧ Token.Spread ts := by
  obtain ⟨x, p, q, hx, hfeed, hp, hparse⟩ := Rule.exists_of_parseFeed h
  obtain ⟨hgood, -, -⟩ := Parser.good_of_ofFeed hfeed
  obtain ⟨hfresh, -, -⟩ := Lexer.fresh_of_ofFeed hx
  obtain ⟨us, stop, hl, hn⟩ := hfresh.exists_leads
  obtain ⟨more, hstream⟩ := Parser.stream_of_ofLexer hl hn hp
  have hready : p.Ready .any p.room 2 _ :=
    Parser.ready_of_ofLexer hl hn hp (fun _ _ => trivial) (fun _ _ => trivial) (fun _ _ => trivial)
  obtain ⟨ts, hpasses, hfills⟩ :=
    (Parse.lays_parse rule (hready.less (Nat.zero_le 2))).of_ok hparse
  have hspread := Parser.spread_visible (Lexer.placed_of_byteCount hlen hx hl) hgood hstream
  have hprefix : ts <+: us.filterMap Token.visible? :=
    Parser.prefix_of_stream hpasses.solid hl.stop_kind (hpasses.stream.symm.trans hstream)
  exact ⟨p, q, ts, hfeed, hparse, hpasses.stream, hfills, hspread.sublist hprefix.sublist⟩

/-- Whatever rule is called on a fresh parser over fewer bytes than columns can count: the tree that
it gives is laid out in the tokens that were read, and every piece of it reaches from the first to
the last of its own, whatever lines they span. So no piece stops before it starts, its children lie
within it, and those that are written there follow one another. No node that a walk comes to is
left out. -/
theorem extents_exact {rule : Rule} {limit : Nat} {file : String} {feed : Feed} {t : Tree}
    (hlen : feed.byteCount < counterMax) (h : rule.parseFeed limit file feed = .ok t) :
    ∃ p q ts, Parser.ofFeed limit file feed = .ok p ∧ rule.parse p = .ok t q ∧
      p.stream = ts.map .ok ++ q.stream ∧ Fills t.slots ts ∧
        (∀ n, t.Holds n → n.StandsIn ts ∧ n.Nests) ∧
          ((Slot.pieces t.slots).Pairwise fun c d => c.stop ≤ d.start) ∧
            ∀ m ∈ t.roots.flatMap Node.everything, t.Meets m := by
  obtain ⟨p, q, ts, hp, hparse, hstream, hfills, hspread⟩ := fills_of_parseFeed hlen h
  refine ⟨p, q, ts, hp, hparse, hstream, hfills, fun n hn => ?_, ?_, t.meets_everything⟩
  · have hstands := hn.standsIn hfills
    exact ⟨hstands, hstands.nests hspread⟩
  · obtain ⟨own, hlaid⟩ := hfills
    exact hlaid.ordered (hspread.sublist hlaid.sublist)

/-- Two parameters of one type with parentheses in it, and a result that reaches over lines, with a
string that does so as well. -/
def linesSource : Text := "func f(a, b [](T)) struct \x7b\n x T `u\nv`\n\x7d\n".toList

/-- The extents of a function, of its parameters and of their types. -/
def FuncDecl.extents (f : FuncDecl) : List (Position × Position) :=
  (Decl.func f |>.start, Decl.func f |>.stop) :: (f.signature.args.start, f.signature.args.stop) ::
    f.signature.args.params.map fun d => (d.type.start, d.type.stop)

/-- The parenthesis around `T` counts for the list of parameters only, and the declaration stops
with the brace, not with the line. -/
theorem extents_exact_lines :
    ∃ (f : FuncDecl) (p q : Parser) (ts : List Token),
      Rule.func.parseFeed 8 "a.go" (.ofText linesSource) = .ok (.func f) ∧
      Parser.ofFeed 8 "a.go" (.ofText linesSource) = .ok p ∧ p.stream = ts.map .ok ++ q.stream ∧
      (Piece.decl (.func f)).StandsIn ts ∧ (Piece.decl (.func f)).Nests ∧
      (Piece.params f.signature.args).StandsIn ts ∧ (Piece.params f.signature.args).Nests ∧
      f.extents = [(⟨"a.go", 1, 1⟩, ⟨"a.go", 4, 2⟩), (⟨"a.go", 1, 7⟩, ⟨"a.go", 1, 19⟩),
        (⟨"a.go", 1, 13⟩, ⟨"a.go", 1, 17⟩), (⟨"a.go", 1, 13⟩, ⟨"a.go", 1, 17⟩)] := by
  have hread : ((Rule.func.parseFeed 8 "a.go" (.ofText linesSource)).toOption.bind fun
      | .func f => some f.extents
      | _ => none) = some [(⟨"a.go", 1, 1⟩, ⟨"a.go", 4, 2⟩), (⟨"a.go", 1, 7⟩, ⟨"a.go", 1, 19⟩),
        (⟨"a.go", 1, 13⟩, ⟨"a.go", 1, 17⟩), (⟨"a.go", 1, 13⟩, ⟨"a.go", 1, 17⟩)] := by
    decide +kernel
  cases h : Rule.func.parseFeed 8 "a.go" (.ofText linesSource) with
  | error e =>
    rw [h] at hread
    cases hread
  | ok t =>
    obtain ⟨p, q, ts, hp, -, hstream, -, hpieces, -, -⟩ := extents_exact (by decide +kernel) h
    rw [h] at hread
    cases t with
    | func f =>
      have hdecl : (Tree.func f).Holds (.decl (.func f)) :=
        .top (by simp [Tree.slots, Slot.mem_pieces])
      have hsig : (Tree.func f).Holds (.signature f.signature) :=
        hdecl.part (by simp [Piece.slots, FuncDecl.slots])
      have hargs : (Tree.func f).Holds (.params f.signature.args) :=
        hsig.part (by simp [Piece.slots, Signature.slots])
      obtain ⟨hstands, hnests⟩ := hpieces _ hdecl
      obtain ⟨hstands', hnests'⟩ := hpieces _ hargs
      have hextents := Option.some.inj hread
      exact ⟨f, p, q, ts, rfl, hp, hstream, hstands, hnests, hstands', hnests', hextents⟩
    | _ => cases hread

end GoSyntax
