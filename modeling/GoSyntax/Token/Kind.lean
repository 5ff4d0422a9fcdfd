import GoSyntax.Location

/-! The kinds of tokens: comments, identifiers, keywords, operators, delimiters and literals. Each
family is a type of its own, so that a rule which holds of one family is a rule about its type. -/
namespace GoSyntax

/-- Reserved words. -/
inductive Keyword
  | breakKw | caseKw | chanKw | constKw | continueKw | defaultKw | deferKw | elseKw | fallthroughKw
  | forKw | funcKw | goKw | gotoKw | ifKw | importKw | interfaceKw | mapKw | packageKw | rangeKw
  | returnKw | selectKw | structKw | switchKw | typeKw | varKw
  deriving DecidableEq, Repr

/-- Operators, the assigning ones among them. -/
inductive Operator
  | add | sub | mul | div | mod | bitAnd | bitOr | bitXor | shl | shr | bitClear | define | assign
  | addAssign | subAssign | mulAssign | divAssign | modAssign | bitAndAssign | bitOrAssign
  | bitXorAssign | shlAssign | shrAssign | bitClearAssign | logicNot | logicAnd | logicOr | lt | gt
  | eq | neq | lte | gte | chan | increment | decrement | ellipsis | tilde
  deriving DecidableEq, Repr

/-- Brackets and separators. An `endOfLine` ends a line that needs no semicolon, an
`elidedSemicolon` stands for one that was left out. -/
inductive Delimiter
  | endOfLine | elidedSemicolon | semicolon | lparen | lbracket | lbrace | rparen | rbracket
  | rbrace | comma | dot | colon
  deriving DecidableEq, Repr

/-- The written forms of literals. -/
inductive LiteralForm
  | decimalInteger | octalInteger | hexInteger | binaryInteger | float | imaginary | rune
  | interpretedString | rawString
  deriving DecidableEq, Repr

inductive CommentForm
  | line | block
  deriving DecidableEq, Repr

inductive Kind
  | endOfFile
  | comment (form : CommentForm)
  | identifier
  | keyword (k : Keyword)
  | operator (o : Operator)
  | delimiter (d : Delimiter)
  | literal (l : LiteralForm)
  deriving DecidableEq, Repr

namespace Keyword

def all : List Keyword :=
  [.breakKw, .caseKw, .chanKw, .constKw, .continueKw, .defaultKw, .deferKw, .elseKw,
  .fallthroughKw, .forKw, .funcKw, .goKw, .gotoKw, .ifKw, .importKw, .interfaceKw, .mapKw,
  .packageKw, .rangeKw, .returnKw, .selectKw, .structKw, .switchKw, .typeKw, .varKw]

def spelling : Keyword → String
  | .breakKw => "break" | .caseKw => "case" | .chanKw => "chan" | .constKw => "const"
  | .continueKw => "continue" | .defaultKw => "default" | .deferKw => "defer" | .elseKw => "else"
  | .fallthroughKw => "fallthrough" | .forKw => "for" | .funcKw => "func" | .goKw => "go"
  | .gotoKw => "goto" | .ifKw => "if" | .importKw => "import" | .interfaceKw => "interface"
  | .mapKw => "map" | .packageKw => "package" | .rangeKw => "range" | .returnKw => "return"
  | .selectKw => "select" | .structKw => "struct" | .switchKw => "switch" | .typeKw => "type"
  | .varKw => "var"

/-- The reserved word that `s` spells. -/
def ofText? (s : Text) : Option Keyword := all.find? fun k => k.spelling.toList == s

theorem mem_all (k : Keyword) : k ∈ all := by cases k <;> decide

end Keyword

namespace Operator

def all : List Operator :=
  [.add, .sub, .mul, .div, .mod, .bitAnd, .bitOr, .bitXor, .shl, .shr, .bitClear, .define, .assign,
  .addAssign, .subAssign, .mulAssign, .divAssign, .modAssign, .bitAndAssign, .bitOrAssign,
  .bitXorAssign, .shlAssign, .shrAssign, .bitClearAssign, .logicNot, .logicAnd, .logicOr, .lt, .gt,
  .eq, .neq, .lte, .gte, .chan, .increment, .decrement, .ellipsis, .tilde]

def spelling : Operator → String
  | .add => "+" | .sub => "-" | .mul => "*" | .div => "/" | .mod => "%" | .bitAnd => "&"
  | .bitOr => "|" | .bitXor => "^" | .shl => "<<" | .shr => ">>" | .bitClear => "&^"
  | .define => ":=" | .assign => "=" | .addAssign => "+=" | .subAssign => "-=" | .mulAssign => "*="
  | .divAssign => "/=" | .modAssign => "%=" | .bitAndAssign => "&=" | .bitOrAssign => "|="
  | .bitXorAssign => "^=" | .shlAssign => "<<=" | .shrAssign => ">>=" | .bitClearAssign => "&^="
  | .logicNot => "!" | .logicAnd => "&&" | .logicOr => "||" | .lt => "<" | .gt => ">" | .eq => "=="
  | .neq => "!=" | .lte => "<=" | .gte => ">=" | .chan => "<-" | .increment => "++"
  | .decrement => "--" | .ellipsis => "..." | .tilde => "~"

def name : Operator → String
  | .add => "AddOp" | .sub => "SubOp" | .mul => "MulOp" | .div => "DivOp" | .mod => "ModOp"
  | .bitAnd => "BitAndOp" | .bitOr => "BitOrOp" | .bitXor => "BitXorOp" | .shl => "ShlOp"
  | .shr => "ShrOp" | .bitClear => "BitClearOp" | .define => "DefineOp" | .assign => "AssignOp"
  | .addAssign => "AddAssignOp" | .subAssign => "SubAssignOp" | .mulAssign => "MulAssignOp"
  | .divAssign => "DivAssignOp" | .modAssign => "ModAssignOp" | .bitAndAssign => "BitAndAssignOp"
  | .bitOrAssign => "BitOrAssignOp" | .bitXorAssign => "BitXorAssignOp"
  | .shlAssign => "ShlAssignOp" | .shrAssign => "ShrAssignOp"
  | .bitClearAssign => "BitClearAssignOp" | .logicNot => "LogicNotOp" | .logicAnd => "LogicAndOp"
  | .logicOr => "LogicOrOp" | .lt => "LtOp" | .gt => "GtOp" | .eq => "EqOp" | .neq => "NeqOp"
  | .lte => "LteOp" | .gte => "GteOp" | .chan => "ChanOp" | .increment => "IncrementOp"
  | .decrement => "DecrementOp" | .ellipsis => "EllipsisOp" | .tilde => "TildeOp"

/-- Whether the operator stores into its left side. -/
def isAssignment : Operator → Bool
  | .define | .assign | .addAssign | .subAssign | .mulAssign | .divAssign | .modAssign
  | .bitAndAssign | .bitOrAssign | .bitXorAssign | .shlAssign | .shrAssign | .bitClearAssign => true
  | _ => false

/-- How tightly a binary operator binds, from one to five. -/
def precedence? : Operator → Option Nat
  | .logicOr => some 1
  | .logicAnd => some 2
  | .eq | .neq | .lt | .lte | .gt | .gte => some 3
  | .add | .sub | .bitOr | .bitXor => some 4
  | .mul | .div | .mod | .shl | .shr | .bitAnd | .bitClear => some 5
  | _ => none

/-- Whether the operator can stand before an operand. -/
def isUnary : Operator → Bool
  | .add | .sub | .logicNot | .bitXor | .mul | .bitAnd | .chan => true
  | _ => false

theorem mem_all (o : Operator) : o ∈ all := by cases o <;> decide

end Operator

namespace Delimiter

def all : List Delimiter :=
  [.endOfLine, .elidedSemicolon, .semicolon, .lparen, .lbracket, .lbrace, .rparen, .rbracket,
  .rbrace, .comma, .dot, .colon]

def spelling : Delimiter → String
  | .endOfLine => "\\n" | .elidedSemicolon => "[;]" | .semicolon => ";" | .lparen => "("
  | .lbracket => "[" | .lbrace => "\x7b" | .rparen => ")" | .rbracket => "]" | .rbrace => "\x7d"
  | .comma => "," | .dot => "." | .colon => ":"

def name : Delimiter → String
  | .endOfLine => "EndOfLine" | .elidedSemicolon => "ElidedSemicolon" | .semicolon => "Semicolon"
  | .lparen => "LParen" | .lbracket => "LBracket" | .lbrace => "LBrace" | .rparen => "RParen"
  | .rbracket => "RBracket" | .rbrace => "RBrace" | .comma => "Comma" | .dot => "Dot"
  | .colon => "Colon"

/-- Whether the delimiter is written as it is spelled, and not made from a line's end. -/
def isWritten : Delimiter → Bool
  | .endOfLine | .elidedSemicolon => false
  | _ => true

theorem mem_all (d : Delimiter) : d ∈ all := by cases d <;> decide

end Delimiter

namespace LiteralForm

def all : List LiteralForm :=
  [.decimalInteger, .octalInteger, .hexInteger, .binaryInteger, .float, .imaginary, .rune,
  .interpretedString, .rawString]

def name : LiteralForm → String
  | .decimalInteger => "DecimalIntegerLiteral" | .octalInteger => "OctalIntegerLiteral"
  | .hexInteger => "HexIntegerLiteral" | .binaryInteger => "BinaryIntegerLiteral"
  | .float => "FloatLiteral" | .imaginary => "ImaginaryLiteral" | .rune => "RuneLiteral"
  | .interpretedString => "InterpretedStringLiteral" | .rawString => "RawStringLiteral"

def isInteger : LiteralForm → Bool
  | .decimalInteger | .octalInteger | .hexInteger | .binaryInteger => true
  | _ => false

def isString : LiteralForm → Bool
  | .interpretedString | .rawString => true
  | _ => false

theorem mem_all (l : LiteralForm) : l ∈ all := by cases l <;> decide

end LiteralForm

/-- The families of kinds. -/
inductive Category
  | endOfFile | comment | identifier | keyword | operator | delimiter | literal
  deriving DecidableEq, Repr

def Category.name : Category → String
  | .endOfFile => "EndOfFile" | .comment => "Comment" | .identifier => "Identifier"
  | .keyword => "Keyword" | .operator => "Operator" | .delimiter => "Delimiter"
  | .literal => "Literal"

namespace Kind

/-- Every kind, family by family. -/
def all : List Kind :=
  [.endOfFile, .comment .line, .comment .block, .identifier] ++ Keyword.all.map .keyword ++
    Operator.all.map .operator ++ Delimiter.all.map .delimiter ++ LiteralForm.all.map .literal

/-- The place of a kind among all of them. -/
def index (k : Kind) : Nat := all.idxOf k

def category : Kind → Category
  | .endOfFile => .endOfFile
  | .comment _ => .comment
  | .identifier => .identifier
  | .keyword _ => .keyword
  | .operator _ => .operator
  | .delimiter _ => .delimiter
  | .literal _ => .literal

/-- The name of a kind. -/
def name : Kind → String
  | .endOfFile => "EndOfFile"
  | .comment .line => "LineComment"
  | .comment .block => "BlockComment"
  | .identifier => "Identifier"
  | .keyword k => k.spelling.capitalize ++ "Keyword"
  | .operator o => o.name
  | .delimiter d => d.name
  | .literal l => l.name

def ofName? (s : String) : Option Kind := all.find? fun k => k.name == s

/-- How a kind is spoken of in messages. -/
def spelling : Kind → String
  | .endOfFile => "EOF"
  | .comment .line => "// ..."
  | .comment .block => "/* ... */"
  | .identifier => "identifier"
  | .keyword k => k.spelling
  | .operator o => o.spelling
  | .delimiter d => d.spelling
  | .literal l => l.name

def isComment : Kind → Bool
  | .comment _ => true
  | _ => false

def isLiteral : Kind → Bool
  | .literal _ => true
  | _ => false

def isInteger : Kind → Bool
  | .literal l => l.isInteger
  | _ => false

def isString : Kind → Bool
  | .literal l => l.isString
  | _ => false

def isAssignment : Kind → Bool
  | .operator o => o.isAssignment
  | _ => false

/-- Whether a line may end a statement right after a token of this kind, so that its line feed stands
for a semicolon. -/
def elidesSemicolon : Kind → Bool
  | .identifier | .literal _ => true
  | .keyword .breakKw | .keyword .continueKw | .keyword .fallthroughKw | .keyword .returnKw => true
  | .operator .increment | .operator .decrement => true
  | .delimiter .rparen | .delimiter .rbracket | .delimiter .rbrace => true
  | _ => false

theorem mem_all (k : Kind) : k ∈ all := by
  cases k with
  | endOfFile => simp [all]
  | comment f => cases f <;> simp [all]
  | identifier => simp [all]
  | keyword k => simp [all, Keyword.mem_all]
  | operator o => simp [all, Operator.mem_all]
  | delimiter d => simp [all, Delimiter.mem_all]
  | literal l => simp [all, LiteralForm.mem_all]

end Kind
end GoSyntax
