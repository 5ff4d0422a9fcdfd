import GoSyntax.Character.Identifier
import GoSyntax.Lexeme.Number
import GoSyntax.Lexeme.Quotation
import GoSyntax.Lexeme.Comment
import GoSyntax.Lexeme.Symbol

/-! One lexeme off the front of a text: the longest that the rules know. -/
namespace GoSyntax
namespace Lexeme

/-- Reads an identifier or a keyword that opens with `c`. -/
def word (c : Char) (cs : Text) : Reading Meaning :=
  let s := c :: cs.takeWhile Identifier.isContinue
  .done s.length <|
    match Keyword.ofText? s with
    | some k => .token (.keyword k) none
    | none => .token .identifier (some (.text s))

/-- The kind of a line's end, which stands for a semicolon after a token that can end a statement. -/
def lineEnd (elides : Bool) : Kind :=
  if elides then .delimiter .elidedSemicolon else .delimiter .endOfLine

/-- The kind of the source's end. -/
def sourceEnd (elides : Bool) : Kind :=
  if elides then .delimiter .elidedSemicolon else .endOfFile

/-- Reads the lexeme at the front of a text that does not open with a blank. -/
def read (elides : Bool) : Text → Reading Meaning
  | [] => .done 0 (.token (sourceEnd elides) none)
  | c :: cs =>
    if c = '\n' then .done 1 (.token (lineEnd elides) none)
    else if c = '/' ∧ cs.head? = some '/' then Comment.line (cs.drop 1)
    else if c = '/' ∧ cs.head? = some '*' then Comment.block (cs.drop 1)
    else if c = '\'' then Quotation.rune cs
    else if c = '"' then Quotation.string cs
    else if c = Quotation.rawQuote then Quotation.rawString cs
    else if isDigitIn 10 c ∨ c = '.' ∧ cs.head?.any (isDigitIn 10) then Number.read (c :: cs)
    else if Identifier.isStart c then word c cs
    else symbol c cs

end Lexeme
end GoSyntax
