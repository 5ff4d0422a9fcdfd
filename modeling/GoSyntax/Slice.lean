import GoSyntax.Location

/-! Cuts in a text. Places in it are counted in bytes, and there is a cut only where the text reaches
and no character is cut in two. -/
namespace GoSyntax
namespace Text

/-- The first `n` bytes of a text, and what stands behind them. -/
def cutAt? : Nat → Text → Option (Text × Text)
  | 0, s => some ([], s)
  | _ + 1, [] => none
  | n + 1, c :: s =>
    if c.utf8Size ≤ n + 1 then (cutAt? (n + 1 - c.utf8Size) s).map (Prod.map (c :: ·) id) else none

def before? (n : Nat) (s : Text) : Option Text := (cutAt? n s).map Prod.fst

def behind? (n : Nat) (s : Text) : Option Text := (cutAt? n s).map Prod.snd

/-- The bytes from `start` up to `stop`. -/
def between? (start stop : Nat) (s : Text) : Option Text := (s.before? stop).bind (behind? start)

theorem cutAt?_append (s t : Text) : (s ++ t).cutAt? s.byteLength = some (s, t) := by
  induction s with
  | nil => simp [cutAt?]
  | cons c s ih =>
    have hsize := Char.utf8Size_pos c
    obtain ⟨n, hn⟩ : ∃ n, byteLength (c :: s) = n + 1 :=
      ⟨byteLength (c :: s) - 1, by rw [byteLength_cons]; omega⟩
    have hrest : n + 1 - c.utf8Size = byteLength s := by rw [← hn, byteLength_cons]; omega
    rw [hn, List.cons_append, cutAt?, if_pos (by rw [← hn, byteLength_cons]; omega), hrest, ih]
    rfl

theorem before?_append (s t : Text) : (s ++ t).before? s.byteLength = some s := by
  rw [before?, cutAt?_append]
  rfl

theorem behind?_append (s t : Text) : (s ++ t).behind? s.byteLength = some t := by
  rw [behind?, cutAt?_append]
  rfl

end Text
end GoSyntax
