import GoSyntax.Proofs.Tree.Erase
import GoSyntax.Proofs.Tree.Fits

/-! How deep trees are. Types and expressions count, what lies between them does not. Steps to the
left operand of an operator, to the base of a selector and to the function of a call are kept apart
from all others: they make trees high, but a parser takes them in a loop and opens no level. -/
namespace GoSyntax

namespace Expr

mutual

/-- The longest way down: a type or an expression left with a step to the left counts for one, any
other for `other`. -/
def levels (other : Nat) : Expr → Nat
  | ident _ => other
  | literal _ => other
  | selector base _ => base.levels other + 1
  | paren _ inner _ => inner.levels other + other
  | unary _ _ operand => operand.levels other + other
  | binary _ l r => max (l.levels other + 1) (r.levels other + other)
  | call function args _ => max (function.levels other + 1) (levelsAll other args + other)

def levelsAll (other : Nat) : List Expr → Nat
  | [] => 0
  | e :: es => max (e.levels other) (levelsAll other es)

end

end Expr

mutual

def TypeRef.levels (other : Nat) : TypeRef → Nat
  | .named _ => other
  | .array _ length elem => max (length.levels other) (elem.levels other) + other
  | .slice _ elem => elem.levels other + other
  | .ellipsisArray _ elem => elem.levels other + other
  | .struct _ fields _ => FieldGroup.levelsAll other fields + other
  | .pointer _ elem => elem.levels other + other
  | .func _ signature => signature.levels other + other
  | .interface _ elems _ => InterfaceElem.levelsAll other elems + other
  | .map _ key value => max (key.levels other) (value.levels other) + other
  | .chan _ _ elem => elem.levels other + other

def FieldGroup.levels (other : Nat) : FieldGroup → Nat
  | ⟨_, type, _⟩ => type.levels other

def FieldGroup.levelsAll (other : Nat) : List FieldGroup → Nat
  | [] => 0
  | f :: fs => max (f.levels other) (FieldGroup.levelsAll other fs)

def InterfaceElem.levels (other : Nat) : InterfaceElem → Nat
  | .method _ signature => signature.levels other
  | .embedded _ => 0

def InterfaceElem.levelsAll (other : Nat) : List InterfaceElem → Nat
  | [] => 0
  | e :: es => max (e.levels other) (InterfaceElem.levelsAll other es)

def Signature.levels (other : Nat) : Signature → Nat
  | ⟨args, none⟩ => args.levels other
  | ⟨args, some results⟩ => max (args.levels other) (results.levels other)

def ParamList.levels (other : Nat) : ParamList → Nat
  | ⟨_, params, _⟩ => Param.levelsAll other params

def Param.levels (other : Nat) : Param → Nat
  | ⟨_, _, _, type⟩ => type.levels other

def Param.levelsAll (other : Nat) : List Param → Nat
  | [] => 0
  | p :: ps => max (p.levels other) (Param.levelsAll other ps)

end

def Part.levels (other : Nat) : Part → Nat
  | .type t => t.levels other
  | .field f => f.levels other
  | .elem e => e.levels other
  | .signature s => s.levels other
  | .params l => l.levels other
  | .results l => l.levels other

def FuncDecl.levels (other : Nat) (f : FuncDecl) : Nat :=
  max ((f.receiver.map (ParamList.levels other)).getD 0) (f.signature.levels other)

def File.levels (other : Nat) (f : File) : Nat :=
  (f.funcs.map (FuncDecl.levels other)).foldr max 0

section Bounds

variable {other n s : Nat}

/-- The greatest values of two functions lie as far apart as their values do, at most. -/
theorem foldr_max_between {α : Type} {f g : α → Nat} {l : List α}
    (h : ∀ a ∈ l, f a ≤ g a ∧ g a ≤ n + f a) :
    (l.map f).foldr max 0 ≤ (l.map g).foldr max 0 ∧
      (l.map g).foldr max 0 ≤ n + (l.map f).foldr max 0 := by
  induction l with
  | nil => exact ⟨Nat.le_refl 0, Nat.zero_le n⟩
  | cons a l ih =>
    have ha := h a List.mem_cons_self
    have hl := ih fun b hb => h b (List.mem_cons_of_mem _ hb)
    simp only [List.map_cons, List.foldr_cons]
    omega

theorem Expr.levelsAll_eq (es : List Expr) :
    levelsAll other es = (es.map (levels other)).foldr max 0 := by
  induction es with
  | nil => rfl
  | cons e es ih => rw [levelsAll, ih, List.map_cons, List.foldr_cons]

theorem FieldGroup.levelsAll_eq (fs : List FieldGroup) :
    levelsAll other fs = (fs.map (levels other)).foldr max 0 := by
  induction fs with
  | nil => rw [levelsAll]; rfl
  | cons f fs ih => rw [levelsAll, ih, List.map_cons, List.foldr_cons]

theorem InterfaceElem.levelsAll_eq (es : List InterfaceElem) :
    levelsAll other es = (es.map (levels other)).foldr max 0 := by
  induction es with
  | nil => rw [levelsAll]; rfl
  | cons e es ih => rw [levelsAll, ih, List.map_cons, List.foldr_cons]

theorem Param.levelsAll_eq (ps : List Param) :
    levelsAll other ps = (ps.map (levels other)).foldr max 0 := by
  induction ps with
  | nil => rw [levelsAll]; rfl
  | cons p ps ih => rw [levelsAll, ih, List.map_cons, List.foldr_cons]

/-- How many levels are opened from the stage on before the operand is read. -/
def Stage.cost : Stage → Nat
  | .goal _ => 2
  | .chain _ => 1
  | .unary => 1
  | .operand => 0

/-- An expression is higher than it has steps to the left by no more than there were levels to open,
and one for the operand at its end. -/
theorem Expr.Fits.levels_le {stage : Stage} {e : Expr} (h : Expr.Fits stage s e) :
    e.levels 0 ≤ e.levels 1 ∧ e.levels 1 + stage.cost ≤ s + 1 + e.levels 0 := by
  induction h with
  | goal _ ih =>
    simp only [Stage.cost] at ih ⊢
    omega
  | single _ ih => exact ih
  | binary _ _ _ _ ihl ihr =>
    simp only [Stage.cost, levels] at ihl ihr ⊢
    omega
  | primary _ ih =>
    simp only [Stage.cost] at ih ⊢
    omega
  | unary _ _ ih =>
    simp only [Stage.cost, levels] at ih ⊢
    omega
  | ident => simp [Stage.cost, levels]
  | literal => simp [Stage.cost, levels]
  | paren _ ih =>
    simp only [Stage.cost, levels] at ih ⊢
    omega
  | selector _ _ ih =>
    simp only [Stage.cost, levels] at ih ⊢
    omega
  | @call s _ args _ _ _ ihf iha =>
    have hargs : levelsAll 0 args ≤ levelsAll 1 args ∧
        levelsAll 1 args ≤ s + levelsAll 0 args := by
      simp only [levelsAll_eq]
      refine foldr_max_between fun a ha => ?_
      have := iha a ha
      simp only [Stage.cost] at this
      omega
    simp only [Stage.cost, levels] at ihf ⊢
    omega

/-- So is a part of a type, which opens a level for each type in it at least. -/
theorem Part.Fits.levels_le {x : Part} (h : Part.Fits s x) :
    x.levels 0 ≤ x.levels 1 ∧ x.levels 1 ≤ s + x.levels 0 := by
  induction h with
  | named => simp [levels, TypeRef.levels]
  | array hl _ ih =>
    have hlength := hl.levels_le
    simp only [Stage.cost, levels, TypeRef.levels] at hlength ih ⊢
    omega
  | slice _ ih | ellipsisArray _ ih | pointer _ ih | func _ ih | chan _ _ ih =>
    simp only [levels, TypeRef.levels] at ih ⊢
    omega
  | struct _ ih =>
    simp only [levels, TypeRef.levels, FieldGroup.levelsAll_eq] at ih ⊢
    have := foldr_max_between ih
    omega
  | interface _ ih =>
    simp only [levels, TypeRef.levels, InterfaceElem.levelsAll_eq] at ih ⊢
    have := foldr_max_between ih
    omega
  | map _ _ ihk ihv =>
    simp only [levels, TypeRef.levels] at ihk ihv ⊢
    omega
  | chanOfRecv _ _ ih =>
    simp only [levels, TypeRef.levels] at ih ⊢
    omega
  | field _ _ _ ih =>
    simp only [levels, FieldGroup.levels] at ih ⊢
    exact ih
  | method _ _ ih =>
    simp only [levels, InterfaceElem.levels] at ih ⊢
    exact ih
  | embedded => simp [levels, InterfaceElem.levels]
  | @signature s args results _ _ iha ihr =>
    cases results with
    | none =>
      simp only [levels, Signature.levels] at iha ⊢
      omega
    | some results =>
      have hresults := ihr results rfl
      simp only [levels, Signature.levels] at iha hresults ⊢
      omega
  | @params s _ _ params _ _ ih =>
    have hall : ∀ p ∈ params, p.levels 0 ≤ p.levels 1 ∧ p.levels 1 ≤ s + p.levels 0 := by
      rintro ⟨name, inferred, variadic, type⟩ hp
      have htype := ih _ hp
      simpa only [levels, Param.levels] using htype
    simp only [levels, ParamList.levels, Param.levelsAll_eq]
    have := foldr_max_between hall
    omega
  | bareResult _ ih =>
    simp only [levels, ParamList.levels, Param.levelsAll, Param.levels] at ih ⊢
    omega
  | listResult _ _ ih => exact ih

theorem FuncDecl.Fits.levels_le {f : FuncDecl} (h : f.Fits s) :
    f.levels 0 ≤ f.levels 1 ∧ f.levels 1 ≤ s + f.levels 0 := by
  have hsignature : f.signature.levels 0 ≤ f.signature.levels 1 ∧
      f.signature.levels 1 ≤ s + f.signature.levels 0 := h.signature.levels_le
  cases hr : f.receiver with
  | none =>
    simp only [levels, hr, Option.map_none, Option.getD_none]
    omega
  | some l =>
    have hl : l.levels 0 ≤ l.levels 1 ∧ l.levels 1 ≤ s + l.levels 0 :=
      (h.receiver l hr).1.levels_le
    simp only [levels, hr, Option.map_some, Option.getD_some]
    omega

theorem File.Fits.levels_le {f : File} (h : f.Fits s) :
    f.levels 0 ≤ f.levels 1 ∧ f.levels 1 ≤ s + f.levels 0 := by
  refine foldr_max_between fun g hg => ?_
  obtain ⟨⟨g'⟩, hd, rfl⟩ := List.mem_map.1 hg
  exact FuncDecl.Fits.levels_le (h.decls (.func g') hd)

end Bounds

namespace Expr

mutual

/-- Positions have no part in how deep an expression is. -/
theorem levels_erase (other : Nat) (e : Expr) : e.erase.levels other = e.levels other := by
  cases e with
  | ident i => rfl
  | literal l => rfl
  | selector base field => simp only [erase, levels, levels_erase other base]
  | paren start inner stop => simp only [erase, levels, levels_erase other inner]
  | unary start op operand => simp only [erase, levels, levels_erase other operand]
  | binary op l r => simp only [erase, levels, levels_erase other l, levels_erase other r]
  | call function args stop =>
    simp only [erase, levels, levels_erase other function, levelsAll_erase other args]

theorem levelsAll_erase (other : Nat) (es : List Expr) :
    levelsAll other (eraseAll es) = levelsAll other es := by
  cases es with
  | nil => rfl
  | cons e es => simp only [eraseAll, levelsAll, levels_erase other e, levelsAll_erase other es]

end

end Expr
end GoSyntax
