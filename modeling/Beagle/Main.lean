import Beagle.CommandLine

/-!
The command on the files of the system.
-/

namespace Beagle

def isCode (code given : UInt32) : Bool :=
  given = code || given = 0 - code

def FileFault.ofError (error : IO.Error) : FileFault :=
  match error with
  | .noFileOrDirectory .. => .missing
  | .inappropriateType _ given _ =>
    if isCode 20 given then .notDirectory
    else if isCode 21 given then .isDirectory
    else .other (toString error)
  | .invalidArgument _ given _ => if isCode 36 given then .nameTooLong else .other (toString error)
  | _ => .other (toString error)

namespace CommandLine

def readText (path : String) : IO (Except FileFault String) := do
  try
    match String.fromUTF8? (← IO.FS.readBinFile path) with
    | some text => return .ok text
    | none => return .error .notText
  catch error => return .error (FileFault.ofError error)

def writeText (path text : String) : IO (Except FileFault Unit) := do
  try
    IO.FS.writeFile path text
    return .ok ()
  catch error => return .error (FileFault.ofError error)

def Invocation.perform (invocation : Invocation) : IO UInt32 := do
  let report := invocation.report (← readText invocation.input)
  IO.eprint report.messages
  match report.output, invocation.output with
  | none, _ => return 1
  | some text, none =>
    IO.print text
    return 0
  | some text, some path =>
    match ← writeText path text with
    | .ok () => return 0
    | .error fault =>
      IO.eprint (writeFailure path fault)
      return 1

def perform (arguments : List String) : IO UInt32 := do
  match Command.ofArguments arguments with
  | .error error =>
    IO.eprintln ("error: " ++ error.message)
    return 2
  | .ok .showVersion =>
    IO.println version
    return 0
  | .ok (.compile invocation) => invocation.perform

end CommandLine

end Beagle

def main (arguments : List String) : IO UInt32 :=
  Beagle.CommandLine.perform arguments
