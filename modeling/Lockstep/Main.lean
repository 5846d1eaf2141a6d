import Lockstep.Command.Run
/-!
The program itself: it reads the files that its arguments name and prints what comes of them.
-/

set_option autoImplicit false
set_option relaxedAutoImplicit false

namespace Lockstep

/-- Why the system did not let a file be read. Its codes for a path of the wrong type come with
either sign. -/
def readFailure (e : IO.Error) : ReadFailure :=
  match e with
  | .noFileOrDirectory .. => .notFound
  | .inappropriateType _ code _ =>
    if code = 21 || code = -21 then .isDirectory
    else if code = 20 || code = -20 then .notADirectory
    else .other (toString e)
  | .invalidArgument _ code _ =>
    if code = 36 || code = -36 then .nameTooLong else .other (toString e)
  | _ => .other (toString e)

def readPath (path : String) : IO (String × Except ReadFailure String) := do
  try
    let bytes ← IO.FS.readBinFile path
    return (path, textOfBytes bytes)
  catch e => return (path, .error (readFailure e))

end Lockstep

def main (arguments : List String) : IO UInt32 := do
  let texts ← (Lockstep.requestedPaths arguments).mapM Lockstep.readPath
  let read (path : String) := (texts.lookup path).getD (.error .notFound)
  let outcome := Lockstep.run read arguments
  IO.print outcome.output
  IO.eprint outcome.messages
  return outcome.status.toUInt32
