import GoSyntax.Proofs.Grammar.FileComplete

/-! Printing and reading. A file that was read is printed as a text that is read as the same file, with
no more levels open on the way. -/
namespace GoSyntax

variable {limit : Nat} {file : String} {feed : Feed} {f : File}

/-- What is read fits the limit it was read with. -/
theorem fits_of_parseFeed (h : parseFeed limit file feed = .ok f) : f.Fits limit := by
  cases hp : Parser.ofFeed limit file feed with
  | error e => simp [parseFeed, hp, bind, Except.bind] at h
  | ok p =>
    obtain ⟨hgood, hdepth, hlimit⟩ := Parser.good_of_ofFeed hp
    cases hf : Parse.file p with
    | error e q =>
      simp only [parseFeed, hp, hf, bind, Except.bind] at h
      cases h
    | ok f' q =>
      simp only [parseFeed, hp, hf, bind, Except.bind] at h
      cases h
      have hroom : p.room = limit := by rw [Parser.room, hdepth, hlimit, Nat.sub_zero]
      rw [← hroom]
      exact ((Parse.sure_file hgood).of_ok hf).2

/-- Every file that fits the limit is read back from its print, up to positions. -/
theorem parseText_print (h : f.Fits limit) (file : String) :
    ∃ f', parseText limit file f.print = .ok f' ∧ f'.erase = f.erase := by
  obtain ⟨ws, hspells, hgives⟩ := Parse.reads_file h
  obtain ⟨p, hp, hholds, hdepth, hlimit⟩ := hspells.holds limit file
  have hroom : p.room = limit := by rw [Parser.room, hdepth, hlimit, Nat.sub_zero]
  obtain ⟨f', q, hf, herase, -⟩ := hgives p (Nat.le_of_eq hroom.symm) hholds
  refine ⟨f', ?_, herase⟩
  simp only [parseText, hp, hf, bind, Except.bind]
  rfl

/-- Whatever the source, a file that was read is printed as a text that reads back with the same
limit, as the same tree up to positions and with the same print. -/
theorem print_reparses (h : parseFeed limit file feed = .ok f) (again : String) :
    ∃ f', parseText limit again f.print = .ok f' ∧ f'.erase = f.erase ∧ f'.print = f.print := by
  obtain ⟨f', hparse, herase⟩ := parseText_print (fits_of_parseFeed h) again
  refine ⟨f', hparse, herase, ?_⟩
  rw [← f'.print_erase, herase, f.print_erase]

/-- A file with a function of a channel that delivers receiving channels. -/
def channelFile : File :=
  ⟨.nowhere, ⟨['p'], .nowhere⟩, [], [.func ⟨.nowhere, none, ⟨['f'], .nowhere⟩,
    ⟨⟨.nowhere, [⟨some ⟨['c'], .nowhere⟩, false, false, .chan .nowhere .both
      (.chan .nowhere .recv (.named ⟨none, ⟨['T'], .nowhere⟩⟩))⟩], .nowhere⟩, none⟩, none⟩]⟩

theorem fits_channelFile : channelFile.Fits 6 := by
  have hletter : ∀ c ∈ ['p', 'f', 'c', 'T'], (Word.identifier [c]).Stands := by
    intro c hc
    simp only [List.mem_cons, List.not_mem_nil, or_false] at hc
    rcases hc with rfl | rfl | rfl | rfl <;> exact Word.stands_letter (by decide) rfl
  have hname : Ident.Lawful ⟨['c'], .nowhere⟩ := hletter 'c' (by simp)
  have htype : Part.Fits 4 (.type (.chan .nowhere .both
      (.chan .nowhere .recv (.named ⟨none, ⟨['T'], .nowhere⟩⟩)))) :=
    .chanOfRecv rfl (.chan (by simp) (.named ⟨by simp, hletter 'T' (by simp)⟩))
  refine ⟨hletter 'p' (by simp), by simp [channelFile], fun d hd => ?_⟩
  obtain rfl := List.mem_singleton.1 hd
  refine ⟨by simp, hletter 'f' (by simp), ?_, .inr (.last hname _ _), by simp⟩
  refine .signature (.params (.inr (.last hname _ _)) fun x hx => ?_) (by simp)
  obtain rfl := List.mem_singleton.1 hx
  exact htype

theorem print_reparses_channels : ∃ f,
    parseFeed 6 "p.go" (.ofText "package p\n\nfunc f(c chan (<-chan T))\n".toList) = .ok f ∧
      ∃ f', parseText 6 "q.go" f.print = .ok f' ∧ f'.erase = f.erase ∧ f'.print = f.print := by
  have hprint : channelFile.print = "package p\n\nfunc f(c chan (<-chan T))\n".toList := rfl
  obtain ⟨f, hparse, -⟩ := parseText_print fits_channelFile "p.go"
  rw [hprint] at hparse
  exact ⟨f, hparse, print_reparses hparse "q.go"⟩

end GoSyntax
