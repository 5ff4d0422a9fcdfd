import GoSyntax.Decimal

/-! Nested values laid out over lines. -/
namespace GoSyntax

/-- A value to be laid out: text that stays on its line, or a group of further values. -/
inductive Outline
  | leaf (text : String)
  | record (name : String) (fields : List (String × Outline))
  | tuple (name : String) (items : List Outline)
  | list (items : List Outline)

namespace Outline

def indent (n : Nat) : String := String.ofList (List.replicate n ' ')

mutual

/-- The layout of a value whose lines but the first are indented by `n`; a part of a group has a line
of its own, four further in, with a comma behind it. -/
def layout (n : Nat) : Outline → String
  | leaf text => text
  | record name fields => name ++ " \x7b\n" ++ layoutFields (n + 4) fields ++ indent n ++ "\x7d"
  | tuple name items => name ++ "(\n" ++ layoutItems (n + 4) items ++ indent n ++ ")"
  | list [] => "[]"
  | list items => "[\n" ++ layoutItems (n + 4) items ++ indent n ++ "]"

def layoutFields (n : Nat) : List (String × Outline) → String
  | [] => ""
  | (name, value) :: fields =>
    indent n ++ name ++ ": " ++ value.layout n ++ ",\n" ++ layoutFields n fields

def layoutItems (n : Nat) : List Outline → String
  | [] => ""
  | item :: items => indent n ++ item.layout n ++ ",\n" ++ layoutItems n items

end

def render (o : Outline) : String := o.layout 0

def option : Option Outline → Outline
  | some o => tuple "Some" [o]
  | none => leaf "None"

def nat (n : Nat) : Outline := leaf (Decimal.render n)

def bool (b : Bool) : Outline := leaf (toString b)

end Outline
end GoSyntax
