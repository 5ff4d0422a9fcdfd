import GoSyntax.Command

/-! The program: reads the named file and writes the answer. -/
namespace GoSyntax

/-- The reason for a failed read, as the operating system words it. -/
def failureReason : IO.Error → String
  | .noFileOrDirectory .. => "No such file or directory (os error 2)"
  | .inappropriateType .. => "Is a directory (os error 21)"
  | .permissionDenied .. => "Permission denied (os error 13)"
  | e => toString e

def load (path : String) : IO Feed := do
  try
    return .ofBytes (← IO.FS.readBinFile path).toList
  catch e =>
    return [.failure (failureReason e)]

end GoSyntax

def main (args : List String) : IO UInt32 := do
  let feed ← match GoSyntax.Command.Request.ofArgs args with
    | .run o => GoSyntax.load o.path
    | _ => pure []
  let response := GoSyntax.Command.respond (fun _ => feed) args
  IO.print response.out
  IO.eprint response.err
  return response.exit.toUInt32
