import SyntaxWalk.CommandLine

/-!
# The program

Carries out the command line on the real file system.
-/

namespace SyntaxWalk

/-- The system's number of a failure; some calls give it negated. -/
def failureNumber (code : UInt32) : UInt32 := min code (0 - code)

def fileError : IO.Error → FileError
  | .noFileOrDirectory .. => .notFound
  | .inappropriateType _ code reason =>
    let number := failureNumber code
    if number = 20 then .notADirectory else if number = 21 then .isADirectory else .other reason
  | .invalidArgument _ code reason =>
    if failureNumber code = 36 then .nameTooLong else .other reason
  | e => .other (toString e)

def readDisk (path : String) : IO (Except FileError String) := do
  try
    let bytes ← IO.FS.readBinFile path
    match String.fromUTF8? bytes with
    | some text => return .ok text
    | none => return .error .notText
  catch e => return .error (fileError e)

def isDiskFile (path : String) : IO Bool := do
  match ← readDisk path with
  | .error .notFound | .error .notADirectory | .error .isADirectory | .error .nameTooLong =>
    return false
  | _ => return true

def disk : Files IO := ⟨readDisk, isDiskFile⟩

end SyntaxWalk

def main (arguments : List String) : IO UInt32 := do
  let result ← SyntaxWalk.CommandLine.execute SyntaxWalk.disk arguments
  (← IO.getStdout).putStr result.stdout
  (← IO.getStderr).putStr result.stderr
  return result.code.toUInt32
