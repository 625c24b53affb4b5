import Cartosheet.Command

namespace Cartosheet

def readStylesheet (path : String) : IO (Except ReadFault String) := do
  try
    return decodeText (← IO.FS.readBinFile path)
  catch
    | .noFileOrDirectory .. => return .error .missing
    | .permissionDenied .. => return .error .forbidden
    | .inappropriateType .. => return .error .directory
    | e => return .error (.other (toString e))

end Cartosheet

open Cartosheet in
def main (arguments : List String) : IO UInt32 := do
  let outcome ← match Invocation.ofArguments? arguments with
    | none => pure Outcome.misuse
    | some i => pure (i.run (← readStylesheet i.file))
  IO.print outcome.output
  IO.eprint outcome.errors
  return UInt32.ofNat outcome.exitCode
