import GoSyntax.Grammar.File
import GoSyntax.Tree.Outline

/-! The command line: its arguments, and what it answers for a source. -/
namespace GoSyntax
namespace Command

/-- What to show of a source. -/
inductive Mode
  | tokens | tree | statistics
  deriving DecidableEq, Repr

/-- Arguments as they were given so far. -/
structure Given where
  path : Option String
  tree : Bool
  statistics : Bool
  limit : Option Nat
  verbosity : Nat

structure Options where
  path : String
  mode : Mode
  limit : Nat
  verbosity : Nat
  deriving DecidableEq, Repr

/-- What the arguments ask for. -/
inductive Request
  | run (o : Options)
  | help
  /-- They make no sense. -/
  | misuse
  deriving DecidableEq, Repr

/-- The largest number an option takes. -/
def numberMax : Nat := 18446744073709551615

/-- A number as an option takes it: digits, perhaps behind a plus sign. -/
def number? (s : String) : Option Nat :=
  let digits := match s.toList with
    | '+' :: cs => cs
    | cs => cs
  if digits.isEmpty then none else (numberIn? 10 digits).filter (· ≤ numberMax)

/-- A long option without its dashes, and the value behind an equals sign. -/
def splitOption (s : Text) : String × Option String :=
  let name := s.takeWhile (· != '=')
  (String.ofList name,
    if name.length < s.length then some (String.ofList (s.drop (name.length + 1))) else none)

namespace Given

def nothing : Given := ⟨none, false, false, none, 0⟩

def takePath (g : Given) (s : String) : Option Given :=
  if g.path.isSome || s.isEmpty then none else some { g with path := some s }

def takeLimit (g : Given) (s : String) : Option Given :=
  if g.limit.isSome then none else (number? s).map fun n => { g with limit := some n }

/-- Takes an option without value. An option is given once; only verbosity adds up. -/
def takeFlag (g : Given) (name : String) : Option Given :=
  if name = "parse" then if g.tree then none else some { g with tree := true }
  else if name = "stats" then if g.statistics then none else some { g with statistics := true }
  else if name = "verbose" then some { g with verbosity := g.verbosity + 1 }
  else none

/-- Tree and statistics exclude each other, and a path there must be. -/
def finish (g : Given) : Request :=
  match g.path with
  | none => .misuse
  | some path =>
    if g.tree && g.statistics then .misuse
    else
      let mode := if g.tree then .tree else if g.statistics then .statistics else .tokens
      .run ⟨path, mode, g.limit.getD defaultLimit, g.verbosity⟩

/-- Takes the letters of a short option. -/
def takeLetters (g : Given) : Text → Except Request Given
  | [] => .ok g
  | 'v' :: cs => takeLetters { g with verbosity := g.verbosity + 1 } cs
  | 'h' :: _ => .error .help
  | _ => .error .misuse

end Given

/-- Whether an argument is no value but an option. -/
def isOption (s : String) : Bool := s.startsWith "-" && s != "-"

/-- Reads the arguments in order; `closed` once two dashes have ended the options. -/
def read (g : Given) (closed : Bool) : List String → Request
  | [] => g.finish
  | s :: rest =>
    if closed || !isOption s then
      match g.takePath s with
      | some g => read g closed rest
      | none => .misuse
    else
      match s.toList with
      | '-' :: '-' :: [] => read g true rest
      | '-' :: '-' :: name =>
        match splitOption name, rest with
        | ("max-depth", some value), rest =>
          match g.takeLimit value with
          | some g => read g closed rest
          | none => .misuse
        | ("max-depth", none), value :: rest =>
          if isOption value then .misuse
          else
            match g.takeLimit value with
            | some g => read g closed rest
            | none => .misuse
        | ("help", none), _ => .help
        | (name, none), rest =>
          match g.takeFlag name with
          | some g => read g closed rest
          | none => .misuse
        | (_, some _), _ => .misuse
      | _ :: letters =>
        match g.takeLetters letters with
        | .ok g => read g closed rest
        | .error r => r
      | [] => .misuse

def Request.ofArgs (args : List String) : Request := read .nothing false args

/-- What the program leaves behind. -/
structure Response where
  exit : Nat
  out : String
  err : String
  deriving DecidableEq, Repr

namespace Response

/-- Success or the report of an error, behind what was written before. A crash is not reported. -/
def ending (out : String) : Option Error → Response
  | none => ⟨0, out, ""⟩
  | some e => if e.isCrash then ⟨101, out, e.cause.message ++ "\n"⟩ else ⟨1, out, e.report ++ "\n"⟩

end Response

/-- One line per token: position, kind and text. -/
def tokenLine (t : Token) : String :=
  s!"{t.pos.render}\t{t.kind.spelling}\t{String.ofList (Quoted.text t.text)}\n"

/-- The tokens up to the end of the source or the first error. -/
def tokenLines : List Step → String × Option Error
  | [] => ("", none)
  | s :: steps =>
    match s.outcome with
    | .ok t =>
      let (out, e) := tokenLines steps
      (tokenLine t ++ out, e)
    | .error e => ("", some e)

/-- The outline of the file that `feed` delivers. -/
def answerFile (o : Options) (feed : Feed) (outline : File → Outline) : Response :=
  match parseFeed o.limit o.path feed with
  | .ok f => .ending ((outline f).render ++ "\n") none
  | .error e => .ending "" (some e)

/-- The lines of the tokens that `feed` delivers. -/
def answerTokens (o : Options) (feed : Feed) : Response :=
  match Lexer.ofFeed o.path feed with
  | .ok x =>
    let (out, e) := tokenLines x.run
    .ending out e
  | .error e => .ending "" (some e)

/-- Answers for the source that `feed` delivers. -/
def answer (o : Options) (feed : Feed) : Response :=
  match o.mode with
  | .tokens => answerTokens o feed
  | .tree => answerFile o feed File.outline
  | .statistics => answerFile o feed fun f => (Statistics.ofFile f).outline

def usage : String := "Usage: [--parse | --stats] [--max-depth N] [-v] FILE\n"

/-- Answers the arguments, `content` giving the source at a path. -/
def respond (content : String → Feed) (args : List String) : Response :=
  match Request.ofArgs args with
  | .run o => answer o (content o.path)
  | .help => ⟨0, usage, ""⟩
  | .misuse => ⟨2, "", usage⟩

end Command
end GoSyntax
