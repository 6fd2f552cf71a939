import LinkedPath.CommandLine.Run

/-!
# The program

The files that a request names and the standard input are read here; the answer
is computed from their texts.
-/

namespace LinkedPath.CommandLine

/-- The number of an error of the system, which may come with the opposite
sign. -/
def errorNumber (code : UInt32) : Nat :=
  if code.toNat < Nat.pow 2 31 then code.toNat else Nat.pow 2 32 - code.toNat

/-- The fault that an error of the system stands for. -/
def ReadFault.ofError (error : IO.Error) : ReadFault :=
  let other := ReadFault.other error.toString
  match error with
  | .noFileOrDirectory _ code _ | .inappropriateType _ code _ | .invalidArgument _ code _ =>
      (ofCode? (errorNumber code)).getD other
  | .permissionDenied _ _ _ => .other "Permission denied (os error 13)"
  | _ => other

/-- The text of bytes. -/
def decode (bytes : ByteArray) : Except ReadFault String :=
  match String.fromUTF8? bytes with
  | some text => .ok text
  | none => .error .notText

/-- The text of a file. -/
def readFile (name : String) : IO (Except ReadFault String) := do
  try
    return decode (← IO.FS.readBinFile name)
  catch error =>
    return .error (ReadFault.ofError error)

/-- The text of the standard input. -/
def readInput : IO (Except ReadFault String) := do
  try
    return decode (← (← IO.getStdin).readBinToEnd)
  catch error =>
    return .error (ReadFault.ofError error)

/-- Read what a request needs. -/
def Surroundings.ofRequest (request : Request) : IO Surroundings := do
  let texts ← request.fileNames.mapM fun name => return (name, ← readFile name)
  let input ← if request.readsInput then readInput else pure (.ok "")
  return { files := fun name => (texts.lookup name).getD (.error .notFound), input }

end LinkedPath.CommandLine

open LinkedPath.CommandLine in
/-- Answer the command line. -/
def main (arguments : List String) : IO UInt32 := do
  let answer ←
    match Request.ofArguments arguments with
    | .error stop => pure stop.answer
    | .ok request => request.answer <$> Surroundings.ofRequest request
  IO.print answer.output
  if let some report := answer.report? then
    IO.eprintln report
  return answer.exitCode
