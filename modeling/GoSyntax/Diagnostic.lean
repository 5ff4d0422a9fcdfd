import GoSyntax.Source.Feed
import GoSyntax.Token.Basic

/-! Everything that can be wrong with a source, as causes; their wording stands in one place. -/
namespace GoSyntax

inductive NumberFlaw
  | noDigits (base : Nat)
  | invalidDigit (base : Nat)
  | noExponent
  | exponentTooLarge
  | misplacedSeparator
  deriving DecidableEq, Repr

inductive EscapeFlaw
  | unknown
  | octalLength
  | octalRange
  | hexDigit
  deriving DecidableEq, Repr

/-- What the source ended within. -/
inductive Unfinished
  | comment | literal | escape | rune | string | rawString
  deriving DecidableEq, Repr

/-- Why no token could be read. -/
inductive LexicalCause
  | source (fault : Fault)
  | invalidCharacter (c : Char)
  | invalidNumber (flaw : NumberFlaw)
  | invalidEscape (flaw : EscapeFlaw)
  | invalidCodePoint
  | newlineInRune
  | newlineInString
  | unterminated (what : Unfinished)
  | invalidRune
  deriving DecidableEq, Repr

/-- What a grammar rule wanted to see next. -/
inductive Expected
  | packageClause | packageName | packageEnd
  | importPath | importSpecEnd | importGroupEnd | importEnd
  | declaration | funcKeyword | functionName | bodyEnd | bodyOrEnd
  | identifier | type | typeName
  | typeParenEnd | ellipsisBracket | lengthBracket | mapBracket | keyBracket | chanKeyword
  | structBrace | fieldName | fieldEnd | structEnd
  | interfaceBrace | elementName | elementEnd | interfaceEnd
  | paramsStart | paramsEnd
  | expression | exprParenEnd | selector | callEnd
  | blockStart | blockEnd
  deriving DecidableEq, Repr

/-- What stands there instead. -/
inductive Found
  | newline
  | identifier (name : Text)
  | literal (text : Text)
  | kind (k : Kind)
  deriving DecidableEq, Repr

/-- How a source breaks the grammar. -/
inductive Problem
  | unexpected (wanted : Expected) (found : Found)
  | openBlock (start : Position)
  | lateImport
  | noReceiver
  | manyReceivers
  | earlyVariadic
  | unnamedParams
  | mixedParams
  deriving DecidableEq, Repr

/-- A state that no source leads to. -/
inductive Defect
  | number (digits : Text) (base : Nat)
  | decimal (digits : Text)
  | stringValue
  | literalValue
  | fieldName
  | entryName
  deriving DecidableEq, Repr

/-- A fault of the program itself. It ends the program: there is no answer, and nothing can be asked
behind it. -/
inductive Crash
  /-- A number left its machine word. -/
  | overflow
  /-- A text was cut where there is no place to cut, or a list was read where it has no item. -/
  | outOfRange
  deriving DecidableEq, Repr

inductive Cause
  | lexical (cause : LexicalCause)
  | grammar (problem : Problem)
  | defect (defect : Defect)
  | unsupported (keyword : Keyword)
  | tooDeep (limit : Nat)
  | crash (crash : Crash)
  deriving DecidableEq, Repr

/-- A cause and the position that it is reported at. A crash is not reported; its position is that of
the lexeme that was being read. -/
structure Error where
  pos : Position
  cause : Cause
  deriving DecidableEq, Repr

namespace Fault

def message : Fault → String
  | invalidUtf8 => "invalid UTF-8 encoding"
  | nul => "invalid NUL character"
  | read reason => s!"read failed: {reason}"

end Fault

namespace NumberFlaw

/-- The name of a number base. -/
def baseName (base : Nat) : String :=
  if base = 16 then "hexadecimal" else if base = 8 then "octal" else "binary"

def message : NumberFlaw → String
  | noDigits base => baseName base ++ " literal has no digits"
  | invalidDigit base => "invalid digit in " ++ baseName base ++ " literal"
  | noExponent => "exponent has no digits"
  | exponentTooLarge => "exponent too large"
  | misplacedSeparator => "'_' must separate successive digits"

end NumberFlaw

namespace EscapeFlaw

def message : EscapeFlaw → String
  | unknown => "unknown escape sequence"
  | octalLength => "octal escape needs exactly three digits"
  | octalRange => "octal escape value above 255"
  | hexDigit => "invalid hexadecimal digit"

end EscapeFlaw

namespace Unfinished

def name : Unfinished → String
  | comment => "comment"
  | literal => "literal"
  | escape => "escape sequence"
  | rune => "rune literal"
  | string => "string literal"
  | rawString => "raw string literal"

end Unfinished

namespace LexicalCause

def message : LexicalCause → String
  | source fault => fault.message
  | invalidCharacter c => "invalid character " ++ String.ofList (Quoted.char c)
  | invalidNumber flaw => "invalid numeric literal: " ++ flaw.message
  | invalidEscape flaw => "invalid escape sequence: " ++ flaw.message
  | invalidCodePoint => "escape sequence is an invalid Unicode code point"
  | newlineInRune => "newline in rune literal"
  | newlineInString => "newline in string literal"
  | unterminated what => "unterminated " ++ what.name
  | invalidRune => "rune literal must contain exactly one character"

end LexicalCause

namespace Expected

def message : Expected → String
  | packageClause => "a file must start with a package clause"
  | packageName => "expected package name after 'package'"
  | packageEnd => "expected ';' after package clause"
  | importPath => "expected import path string"
  | importSpecEnd => "expected ';' or ')' after import spec"
  | importGroupEnd => "expected ')' to close import group"
  | importEnd => "expected ';' after import declaration"
  | declaration => "expected top-level declaration"
  | funcKeyword => "expected 'func'"
  | functionName => "expected function name"
  | bodyEnd => "expected ';' after function body"
  | bodyOrEnd => "expected function body or ';' after signature"
  | identifier => "expected identifier"
  | type => "expected type"
  | typeName => "expected type name after '.'"
  | typeParenEnd => "expected ')' to close parenthesized type"
  | ellipsisBracket => "expected ']' after '[...'"
  | lengthBracket => "expected ']' after array length"
  | mapBracket => "expected '[' after 'map'"
  | keyBracket => "expected ']' after map key type"
  | chanKeyword => "expected 'chan' after '<-'"
  | structBrace => "expected '\x7b' after 'struct'"
  | fieldName => "expected field name after ','"
  | fieldEnd => "expected ';' or '\x7d' after struct field"
  | structEnd => "expected '\x7d' to close struct"
  | interfaceBrace => "expected '\x7b' after 'interface'"
  | elementName => "expected method or embedded type name"
  | elementEnd => "expected ';' or '\x7d' after interface element"
  | interfaceEnd => "expected '\x7d' to close interface"
  | paramsStart => "expected '(' to start parameter list"
  | paramsEnd => "expected ',' or ')' in parameter list"
  | expression => "expected expression"
  | exprParenEnd => "expected ')' to close expression"
  | selector => "expected selector after '.'"
  | callEnd => "expected ',' or ')' in call"
  | blockStart => "expected '\x7b' to start block"
  | blockEnd => "expected '\x7d' to close block"

end Expected

namespace Found

def message : Found → String
  | newline => "newline"
  | identifier name => "identifier " ++ String.ofList name
  | literal text => "literal " ++ String.ofList text
  | kind k => k.spelling

end Found

namespace Problem

def message : Problem → String
  | unexpected wanted found => s!"{wanted.message}, found {found.message}"
  | openBlock start => s!"unexpected EOF, block opened at {start.render} is not closed"
  | lateImport => "imports must appear before other declarations"
  | noReceiver => "method has no receiver"
  | manyReceivers => "method has multiple receivers"
  | earlyVariadic => "only the final parameter may be variadic"
  | unnamedParams => "parameter names are required here"
  | mixedParams => "mixed named and unnamed parameters"

end Problem

namespace Defect

def message : Defect → String
  | number digits base =>
    s!"integer literal {String.ofList (Quoted.text digits)} failed to convert in base {base}"
  | decimal digits => s!"float literal {String.ofList (Quoted.text digits)} failed to convert"
  | stringValue => "string literal token without a string payload"
  | literalValue => "literal token without a value"
  | fieldName => "field name is not a bare identifier"
  | entryName => "parameter entry is not a bare identifier"

end Defect

def Crash.message : Crash → String
  | overflow => "attempt to negate with overflow"
  | outOfRange => "index out of range"

/-- How an error is classed in reports. -/
inductive CauseFamily
  | lex | grammar | internal | unsupported | crash
  deriving DecidableEq, Repr

def CauseFamily.name : CauseFamily → String
  | .lex => "Lex" | .grammar => "Syntax" | .internal => "Internal" | .unsupported => "Unsupported"
  | .crash => "Crash"

namespace Cause

def family : Cause → CauseFamily
  | lexical _ => .lex
  | grammar _ | tooDeep _ => .grammar
  | defect _ => .internal
  | unsupported _ => .unsupported
  | crash _ => .crash

/-- The text of a cause in a report that names the family by itself. -/
def summary : Cause → String
  | lexical cause => cause.message
  | grammar problem => problem.message
  | defect d => d.message
  | unsupported keyword => s!"`{keyword.spelling}` declarations are not supported"
  | tooDeep limit => s!"nesting depth exceeds {limit}"
  | crash c => c.message

/-- The text of a cause that stands on its own. -/
def message : Cause → String
  | lexical cause => cause.message
  | grammar problem => "syntax error: " ++ problem.message
  | defect d => "internal error: " ++ d.message
  | unsupported keyword => s!"unsupported declaration `{keyword.spelling}`"
  | tooDeep limit => s!"nesting depth exceeds {limit}"
  | crash c => c.message

end Cause

namespace Error

def message (e : Error) : String := s!"{e.pos.render}: {e.cause.message}"

def isInternal (e : Error) : Bool := e.cause.family == .internal

/-- The program ended here. -/
def isCrash (e : Error) : Bool :=
  match e.cause with
  | .crash _ => true
  | _ => false

def isTooDeep (e : Error) : Bool :=
  match e.cause with
  | .tooDeep _ => true
  | _ => false

/-- The line that reports the error to a person. -/
def report (e : Error) : String :=
  s!"{e.pos.render}: {e.cause.family.name} error: {e.cause.summary}"

end Error
end GoSyntax
