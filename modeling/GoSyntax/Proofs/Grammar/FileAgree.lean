import GoSyntax.Proofs.Grammar.Gives
import GoSyntax.Proofs.Grammar.TypeAgree

/-! Function bodies, declarations and files are read alike where tokens of the same shapes come, and so
is whatever else can be asked for. -/
namespace GoSyntax
namespace Parse

theorem agree_blockTokensFor (start start' : Position) (opened k : Nat) :
    Agree (List.map Token.shape) (blockTokensFor start opened k) (blockTokensFor start' opened k) := by
  induction k generalizing opened with
  | zero => exact .pure rfl
  | succ k ih =>
    have hstep : ∀ opened', Agree (List.map Token.shape)
        (do return (← advance) :: (← blockTokensFor start opened' k))
        (do return (← advance) :: (← blockTokensFor start' opened' k)) := by
      intro opened'
      refine agree_advance.bind fun t u h => (ih opened').bind fun ts us hs => .pure ?_
      rw [List.map_cons, List.map_cons, h, hs]
    intro p q hp
    unfold blockTokensFor
    rw [Token.kind_of_shape hp.peek, hp.limit, hp.depth]
    split
    · exact .error rfl
    · split
      · exact .error rfl
      · exact hstep _ p q hp
    · split
      · exact .ok rfl hp
      · exact hstep _ p q hp
    · exact hstep _ p q hp

theorem agree_block : Agree Block.shape block block := by
  refine (agree_require _ _).bind fun _ _ _ => ?_
  refine (Agree.bounded fun k => agree_blockTokensFor _ _ 0 k).bind fun ts us h => ?_
  refine (agree_require _ _).bind fun _ _ _ => .pure ?_
  simp only [Block.shape, h]

theorem agree_receiver : Agree (Option.map ParamList.erase) receiver? receiver? := by
  refine (agree_peekIs _).ite ((agree_paramList agree_maybeType true).bind fun l l' h => ?_) (.pure rfl)
  obtain ⟨start, ps, stop⟩ := l
  obtain ⟨start', ps', stop'⟩ := l'
  have hlen : ps.length = ps'.length := by
    simp only [ParamList.erase, Param.eraseAll_eq_map, ParamList.mk.injEq, true_and, and_true] at h
    simpa using congrArg List.length h
  match ps, ps', hlen with
  | [], [], _ => exact agree_problemAt _ _ _ _
  | [_], [_], _ => exact .pure (congrArg some h)
  | _ :: _ :: _, _ :: _ :: _, _ => exact agree_problemAt _ _ _ _

theorem agree_body : Agree (Option.map Block.shape) body? body? := by
  refine (agree_peekIs _).ite ?_ ?_
  · refine agree_block.bind fun b b' h => (agree_require _ _).bind fun _ _ _ => .pure ?_
    exact congrArg some h
  · exact (agree_require _ _).bind fun _ _ _ => .pure rfl

theorem agree_funcDecl : Agree FuncDecl.shape funcDecl funcDecl := by
  refine (agree_require _ _).bind fun _ _ _ => agree_receiver.bind fun r r' hr => ?_
  refine (agree_identifier _).bind fun i j hij => ?_
  refine (agree_signature agree_maybeType true).bind fun s s' hs => agree_body.bind fun b b' hb => ?_
  refine (agree_note _ _).bind fun _ _ _ => .pure ?_
  simp only [FuncDecl.shape, FuncDecl.erase, hr, hij, hs, hb]

theorem agree_decl : Agree Decl.shape decl decl := by
  refine agree_peek.bind fun t u h => ?_
  rw [Token.kind_of_shape h]
  split
  · exact agree_funcDecl.map fun f f' hf => congrArg Decl.func hf
  · exact agree_failAt rfl _ _
  · exact agree_failAt rfl _ _
  · exact agree_failAt rfl _ _
  · exact agree_problemAt _ _ _ _
  · exact agree_unexpected _

theorem agree_importName : Agree (Option.map ImportName.erase) importName? importName? := by
  refine agree_peek.bind fun t u h => (agree_consumeIf _).ite (.pure rfl) ?_
  refine (agree_peekIs _).ite ((agree_identifier _).bind fun i j hij => .pure ?_) (.pure rfl)
  have hname : i.isBlank = j.isBlank := by
    show i.erase.isBlank = j.erase.isBlank
    rw [hij]
  rw [hname]
  cases j.isBlank with
  | true => rfl
  | false => exact congrArg (some ∘ ImportName.named) hij

theorem agree_importSpec : Agree Import.erase importSpec importSpec := by
  refine agree_peek.bind fun t u h => agree_importName.bind fun n n' hn => ?_
  refine Agree.requires _ _ fun v w hvw hk => ?_
  refine (agree_stringLit hvw ?_).bind fun s s' hs => (agree_note _ _).bind fun _ _ _ => .pure ?_
  · rintro hsemi
    rw [hsemi] at hk
    simp at hk
  · simp only [Import.erase, hn, hs]

theorem agree_importGroup : Agree (List.map Import.erase) importGroup importGroup := by
  have hsingle : Agree (List.map Import.erase) (List.singleton <$> importSpec)
      (List.singleton <$> importSpec) :=
    agree_importSpec.map fun _ _ h => congrArg List.singleton h
  refine (agree_consumeIf _).ite ?_ ?_
  · refine (agree_importSpec.termList _ _).bind fun is is' h => ?_
    refine (agree_require _ _).bind fun _ _ _ => ?_
    exact (agree_require _ _).bind fun _ _ _ => .pure h
  · exact hsingle.bind fun is is' h => (agree_require _ _).bind fun _ _ _ => .pure h

theorem agree_declsFor (k : Nat) : Agree (List.map Decl.shape) (declsFor k) (declsFor k) := by
  induction k with
  | zero => exact .pure rfl
  | succ k ih =>
    refine (agree_consumeIf _).ite ih ((agree_peekIs _).ite (.pure rfl) ?_)
    refine agree_decl.bind fun d d' hd => ih.bind fun ds ds' hds => .pure ?_
    rw [List.map_cons, List.map_cons, hd, hds]

theorem agree_file : Agree File.shape file file := by
  refine (agree_require _ _).bind fun _ _ _ => (agree_identifier _).bind fun i j hij => ?_
  refine (agree_require _ _).bind fun _ _ _ => (agree_note _ _).bind fun _ _ _ => ?_
  refine (agree_importGroup.openedList _).bind fun is is' his => ?_
  refine (Agree.bounded agree_declsFor).bind fun ds ds' hds => .pure ?_
  have himports : is.flatten.map Import.erase = is'.flatten.map Import.erase := by
    rw [List.map_flatten, his, List.map_flatten]
  simp only [File.shape, File.erase, hij, himports, hds]

end Parse

/-- Parsers at the start of tokens of the same shapes are alike. -/
theorem Parser.alike_of_stream {p q : Parser} {ts us : List Token} (hp : p.stream = ts.map .ok)
    (hq : q.stream = us.map .ok) (h : ts.map Token.shape = us.map Token.shape)
    (hd : p.depth = q.depth) (hl : p.limit = q.limit) : p.Alike q := by
  obtain ⟨t, ts, rfl, ht, hts⟩ := List.map_eq_cons_iff.1 hp.symm
  obtain ⟨u, us, rfl, hu, hus⟩ := List.map_eq_cons_iff.1 hq.symm
  obtain ⟨htu, hrest⟩ := List.cons.inj h
  refine ⟨hd, hl, ?_, ?_⟩
  · rw [← Except.ok.inj ht, ← Except.ok.inj hu]
    exact htu
  · have hshapes : List.Forall₂ (fun t u => Token.shape t = Token.shape u) ts us := by
      rw [← List.forall₂_map_left_iff (R := fun s u => s = Token.shape u),
        ← List.forall₂_map_right_iff (R := fun s s' => s = s'), List.forall₂_eq_eq_eq]
      exact hrest
    have hahead : List.Forall₂ (SameOutcome Token.shape) (p.ahead.map Arrival.outcome)
        (q.ahead.map Arrival.outcome) := by
      rw [← hts, ← hus, List.forall₂_map_left_iff, List.forall₂_map_right_iff]
      exact hshapes.imp fun _ _ h => .ok h
    rwa [List.forall₂_map_left_iff, List.forall₂_map_right_iff] at hahead

namespace Rule

open Parse

theorem agree_parse (rule : Rule) : Agree Tree.shape rule.parse rule.parse := by
  cases rule with
  | file => exact agree_file.map fun _ _ h => congrArg Tree.file h
  | decl => exact agree_decl.map fun _ _ h => congrArg Tree.decl h
  | func => exact agree_funcDecl.map fun _ _ h => congrArg Tree.func h
  | signature namesRequired =>
    exact (agree_signature agree_maybeType namesRequired).map fun _ _ h => congrArg Tree.signature h
  | params namesRequired =>
    exact (agree_paramList agree_maybeType namesRequired).map fun _ _ h => congrArg Tree.params h
  | type => exact agree_type.map fun _ _ h => congrArg Tree.type h
  | maybeType => exact agree_maybeType.option (fun _ _ h => .pure (congrArg Tree.type h)) (.pure rfl)
  | expr => exact agree_expr.map fun _ _ h => congrArg Tree.expr h
  | block => exact agree_block.map fun _ _ h => congrArg Tree.block h
  | ident => exact (agree_identifier _).map fun _ _ h => congrArg Tree.ident h

/-- A rule at the start of two sources whose visible tokens have the same shapes gives the same on
both. -/
theorem parseFeed_alike {file file' : String} {feed feed' : Feed} {x y : Lexer} {ts us : List Token}
    (hx : Lexer.ofFeed file feed = .ok x) (ht : x.tokens = .ok ts)
    (hy : Lexer.ofFeed file' feed' = .ok y) (hu : y.tokens = .ok us)
    (h : (ts.filterMap Token.visible?).map Token.shape =
      (us.filterMap Token.visible?).map Token.shape) (rule : Rule) (limit : Nat) :
    SameOutcome Tree.shape (rule.parseFeed limit file feed) (rule.parseFeed limit file' feed') := by
  obtain ⟨p, hp, hps, hpd, hpl⟩ := Parser.exists_ofFeed hx ht limit
  obtain ⟨q, hq, hqs, hqd, hql⟩ := Parser.exists_ofFeed hy hu limit
  have halike := Parser.alike_of_stream hps hqs h (hpd.trans hqd.symm) (hpl.trans hql.symm)
  simp only [parseFeed, hp, hq, bind, Except.bind]
  obtain ⟨t, u, p', q', hpt, hqu, htu, -⟩ | ⟨d, e, p', q', hpd, hqe, hde⟩ :=
    (agree_parse rule).cases halike
  · rw [hpt, hqu]
    exact .ok htu
  · rw [hpd, hqe]
    exact .error hde

end Rule
end GoSyntax
