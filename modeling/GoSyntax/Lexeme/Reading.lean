import GoSyntax.Diagnostic

/-! What reading one lexeme off the front of a text gives. -/
namespace GoSyntax
namespace Lexeme

/-- Where a flaw is reported: at the start of the lexeme, or where reading it stopped. -/
inductive Place
  | start | here
  deriving DecidableEq, Repr

structure Flaw where
  place : Place
  cause : Cause
  deriving DecidableEq, Repr

namespace Flaw

def atStart (cause : LexicalCause) : Flaw := ⟨.start, .lexical cause⟩

def here (cause : LexicalCause) : Flaw := ⟨.here, .lexical cause⟩

end Flaw

/-- How many characters were read, and what they gave. Whether reading goes on never depends on more
than the one character after those read. -/
structure Reading (α : Type) where
  size : Nat
  result : Except Flaw α

namespace Reading

variable {α β : Type}

def done (size : Nat) (a : α) : Reading α := ⟨size, .ok a⟩

def fail (size : Nat) (flaw : Flaw) : Reading α := ⟨size, .error flaw⟩

/-- The same reading behind `n` more characters. -/
def shift (n : Nat) (r : Reading α) : Reading α := ⟨n + r.size, r.result⟩

def map (f : α → β) (r : Reading α) : Reading β := ⟨r.size, r.result.map f⟩

@[simp] theorem size_done (n : Nat) (a : α) : (done n a).size = n := rfl
@[simp] theorem size_fail (n : Nat) (flaw : Flaw) : (fail n flaw : Reading α).size = n := rfl
@[simp] theorem size_shift (n : Nat) (r : Reading α) : (r.shift n).size = n + r.size := rfl
@[simp] theorem size_map (f : α → β) (r : Reading α) : (r.map f).size = r.size := rfl

end Reading

/-- What a lexeme is: a token of some kind and value, or two dots that have to be told apart. -/
inductive Meaning
  | token (kind : Kind) (value : Option Value)
  | twoDots
  deriving DecidableEq, Repr

end Lexeme
end GoSyntax
