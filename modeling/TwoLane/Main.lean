import TwoLane.Command.Answer

/-! # The command line

Reads the files that the arguments name, prints the answer, and saves what is to be saved.
-/

namespace TwoLane.CommandLine

def faultText (code : UInt32) (fallback : String) : String :=
  let text :=
    match code with
    | 1 => "Operation not permitted"
    | 2 => "No such file or directory"
    | 13 => "Permission denied"
    | 20 => "Not a directory"
    | 21 => "Is a directory"
    | 28 => "No space left on device"
    | 30 => "Read-only file system"
    | 36 => "File name too long"
    | 40 => "Too many levels of symbolic links"
    | _ => fallback
  text ++ " (os error " ++ toString code ++ ")"

def carriedCode? : IO.Error → Option UInt32
  | .noFileOrDirectory _ code _ | .permissionDenied _ code _ | .inappropriateType _ code _
  | .invalidArgument _ code _ | .alreadyExists _ code _ | .resourceExhausted _ code _
  | .noSuchThing _ code _ | .interrupted _ code _ => some code
  | .illegalOperation code _ | .resourceVanished code _ | .hardwareFault code _
  | .unsupportedOperation code _ | .unsatisfiedConstraints code _ | .protocolError code _
  | .timeExpired code _ | .otherError code _ | .resourceBusy code _ => some code
  | _ => none

/-- The number of a fault of the system, if it has one. An error may carry it with either sign. -/
def faultCode? (error : IO.Error) : Option UInt32 :=
  (carriedCode? error).map (fun code => if code < 0x80000000 then code else 0 - code)

/-- Why the system refuses something. -/
def reasonOf (error : IO.Error) : String :=
  match faultCode? error with
  | some code => faultText code error.toString
  | none => "stream did not contain valid UTF-8"

def view (path : String) : IO FileView := do
  try
    return .text (← IO.FS.readFile path)
  catch error =>
    match faultCode? error with
    | some 2 | some 20 | some 36 | some 40 => return .missing (reasonOf error)
    | _ => return .unreadable (reasonOf error)

def save (answer : Answer) : IO Answer := do
  match answer.save with
  | none => return answer
  | some (path, text) =>
      try
        IO.FS.withFile path .write (fun file => do
          file.putStr text
          file.flush)
        return answer.saved (.ok ())
      catch error => return answer.saved (.error (reasonOf error))

def run (arguments : List String) : IO UInt32 := do
  let request := Request.read? arguments
  let views ← (Request.inputs request).mapM (fun path => return (path, ← view path))
  let files : Files := fun path => (views.lookup path).getD (.missing (faultText 2 ""))
  let seed ← IO.rand 0 (UInt32.size - 1)
  let answer ← save (Request.answer files seed request)
  (← IO.getStdout).putStr answer.output
  let errors ← IO.getStderr
  answer.messages.forM errors.putStrLn
  return UInt32.ofNat answer.code

end TwoLane.CommandLine

def main (arguments : List String) : IO UInt32 :=
  TwoLane.CommandLine.run arguments
