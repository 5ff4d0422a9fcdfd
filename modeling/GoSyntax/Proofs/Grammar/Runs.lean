import GoSyntax.Grammar.Type
import GoSyntax.Proofs.Grammar.Sure

/-! What the steps that rules are made of come to where the token in view is known. -/
namespace GoSyntax
namespace Parse

variable {α β : Type} {m : Parse α} {p q : Parser} {a : α} {t : Token} {kind : Kind}

theorem map_ok (h : m p = .ok a q) (f : α → β) : (f <$> m) p = .ok (f a) q := by
  rw [map_eq_pure_bind, bind_ok h]
  rfl

theorem consumeIf_of_eq (hk : p.peek.kind = kind) (h : advance p = .ok t q) :
    consumeIf kind p = .ok true q := by
  have hpeek : peekIs kind p = .ok true p := by simp [peekIs, hk]
  rw [consumeIf, bind_ok hpeek, if_pos rfl, bind_ok h]
  rfl

theorem consumeIf_of_ne (hk : p.peek.kind ≠ kind) : consumeIf kind p = .ok false p := by
  have hpeek : peekIs kind p = .ok false p := by simp [peekIs, hk]
  rw [consumeIf, bind_ok hpeek]
  rfl

theorem require_of_mem {kinds : List Kind} (wanted : Expected) (hk : p.peek.kind ∈ kinds) :
    require wanted kinds p = advance p := by
  have hpeek : peek p = .ok p.peek p := rfl
  rw [require, bind_ok hpeek, if_pos (by simpa using hk)]

theorem advance_keeps (h : advance p = .ok t q) :
    t = p.peek ∧ q.depth = p.depth ∧ q.limit = p.limit := by
  unfold advance at h
  split at h
  · cases h
    exact ⟨rfl, rfl, rfl⟩
  · dsimp only at h
    split at h
    · cases h
      exact ⟨rfl, rfl, rfl⟩
    · cases h

theorem advance_enter (h : advance p = .ok t q) : advance p.enter = .ok t q.enter := by
  unfold advance at h ⊢
  cases ha : p.ahead with
  | nil =>
    simp only [Parser.enter, ha] at h ⊢
    cases h
    rfl
  | cons b ahead =>
    simp only [Parser.enter, ha] at h ⊢
    cases ho : b.outcome with
    | error e => simp [ho] at h
    | ok u =>
      simp only [ho] at h ⊢
      cases h
      rfl

theorem identifier_of_eq (wanted : Expected) (hk : p.peek.kind = .identifier)
    (h : advance p = .ok t q) : identifier wanted p = .ok (.ofToken p.peek) q := by
  have ht := (advance_keeps h).1
  rw [identifier, map_ok ((require_of_mem wanted (by simp [hk])).trans h), ht]

theorem nested_of_ok (hd : p.depth < p.limit) (h : m p.enter = .ok a q) :
    nested m p = .ok a q.leave := by
  simp only [nested, if_neg (Nat.not_le.2 hd), h]

theorem nested_of_error {e : Error} (hd : p.depth < p.limit) (h : m p.enter = .error e q) :
    nested m p = .error e q.leave := by
  simp only [nested, if_neg (Nat.not_le.2 hd), h]

theorem type?_eq (hd : p.depth < p.limit) :
    type? p = nested (typeBody (typeRule (p.room - 1))) p := by
  obtain ⟨k, hk⟩ : ∃ k, p.room = k + 1 := ⟨p.limit - p.depth - 1, by rw [Parser.room]; omega⟩
  simp only [type?, hk, typeRule, Nat.add_sub_cancel]

/-- Without room for it no type is read. -/
theorem depth_lt_of_type {r : Option TypeRef} (h : type? p = .ok r q) : p.depth < p.limit := by
  by_cases hd : p.depth < p.limit
  · exact hd
  · have hroom : p.room = 0 := by rw [Parser.room]; omega
    simp only [type?, hroom, typeRule, tooDeep] at h
    cases h

/-- An identifier that no dot follows is a type by itself. -/
theorem type?_of_identifier (hk : p.peek.kind = .identifier) (hd : p.depth < p.limit)
    (h : advance p = .ok t q) (hq : q.peek.kind ≠ .delimiter .dot) :
    type? p = .ok (some (.named ⟨none, .ofToken p.peek⟩)) q.enter.leave := by
  have hid : identifier .identifier p.enter = .ok (.ofToken p.peek) q.enter :=
    identifier_of_eq .identifier (by exact hk) (advance_enter h)
  have hnamed : namedType p.enter = .ok ⟨none, .ofToken p.peek⟩ q.enter := by
    rw [namedType, bind_ok hid, bind_ok (consumeIf_of_ne (by exact hq))]
    rfl
  have hbody : typeBody (typeRule (p.room - 1)) p.enter =
      .ok (some (.named ⟨none, .ofToken p.peek⟩)) q.enter := by
    have hpeek : peek p.enter = .ok p.peek _ := rfl
    rw [typeBody, bind_ok hpeek, hk]
    exact map_ok hnamed _
  rw [type?_eq hd, nested_of_ok hd hbody]

end Parse
end GoSyntax
