import Beagle.Text.Basic

/-!
A directory of files in memory.  What lies above the directory is not known: nothing is found there, and
what is written there is not seen again.  Paths are steps from one directory to the next.  A path is
refused if it is empty, too long, or holds a zero; a name in it is measured when the step down to it is
taken.
-/

namespace Beagle

inductive FileFault
  | missing
  | notDirectory
  | isDirectory
  | nameTooLong
  | zeroInName
  | notText
  | other (message : String)
deriving DecidableEq

def FileFault.message : FileFault → String
  | .missing => "No such file or directory (os error 2)"
  | .notDirectory => "Not a directory (os error 20)"
  | .isDirectory => "Is a directory (os error 21)"
  | .nameTooLong => "File name too long (os error 36)"
  | .zeroInName => "file name contained an unexpected NUL byte"
  | .notText => "stream did not contain valid UTF-8"
  | .other message => message

inductive Step
  | stay
  | up
  | down (name : String)
deriving DecidableEq

structure Route where
  steps : List Step
  absolute : Bool
  insistsDirectory : Bool

namespace Route

def maxName : Nat := 255

def maxPath : Nat := 4095

def isTooLong (name : String) : Bool :=
  maxName < name.utf8ByteSize

def stepsOf (path : String) : List Step :=
  ((Text.pieces '/' path.toList).filter fun part => !part.isEmpty).map fun part =>
    match part with
    | ['.'] => .stay
    | ['.', '.'] => .up
    | name => .down (String.ofList name)

def ofPath (path : String) : Except FileFault Route :=
  if path.toList.contains '\x00' then .error .zeroInName
  else if maxPath < path.utf8ByteSize then .error .nameTooLong
  else if path.isEmpty then .error .missing
  else .ok {
    steps := stepsOf path
    absolute := path.toList.head? = some '/'
    insistsDirectory := path.toList.getLast? = some '/' }

end Route

/-- Directories, and files, by the names on the way to them.  The directory itself is not listed. -/
structure Disk where
  directories : List (List String)
  files : List (List String × ByteArray)

namespace Disk

inductive Spot
  | file (path : List String)
  | directory (path : List String)
  | above

def startOf (route : Route) : Spot :=
  if route.absolute then .above else .directory []

def read? (disk : Disk) (path : List String) : Option ByteArray :=
  (disk.files.find? fun file => file.1 = path).map Prod.snd

def hasDirectory (disk : Disk) (path : List String) : Bool :=
  path.isEmpty || disk.directories.contains path

def lookup (disk : Disk) (path : List String) (name : String) : Except FileFault Spot :=
  let below := path ++ [name]
  if (disk.read? below).isSome then .ok (.file below)
  else if disk.hasDirectory below then .ok (.directory below)
  else .error .missing

def step (disk : Disk) : Spot → Step → Except FileFault Spot
  | .file _, _ => .error .notDirectory
  | .above, .down name => .error (if Route.isTooLong name then .nameTooLong else .missing)
  | .above, _ => .ok .above
  | .directory path, .stay => .ok (.directory path)
  | .directory path, .up => .ok (if path.isEmpty then .above else .directory path.dropLast)
  | .directory path, .down name =>
    if Route.isTooLong name then .error .nameTooLong else disk.lookup path name

def follow (disk : Disk) (start : Spot) (steps : List Step) : Except FileFault Spot :=
  steps.foldlM disk.step start

def readBytes (disk : Disk) (path : String) : Except FileFault ByteArray := do
  let route ← Route.ofPath path
  match ← disk.follow (startOf route) route.steps with
  | .file file =>
    if route.insistsDirectory then .error .notDirectory
    else match disk.read? file with
      | some bytes => .ok bytes
      | none => .error .missing
  | .directory _ | .above => .error .isDirectory

def readText (disk : Disk) (path : String) : Except FileFault String := do
  match String.fromUTF8? (← disk.readBytes path) with
  | some text => .ok text
  | none => .error .notText

def put (disk : Disk) (path : List String) (bytes : ByteArray) : Disk :=
  { disk with files := (disk.files.filter fun file => file.1 ≠ path) ++ [(path, bytes)] }

def write (disk : Disk) (path : String) (text : String) : Except FileFault Disk := do
  let route ← Route.ofPath path
  match ← disk.follow (startOf route) route.steps.dropLast, route.steps.getLast? with
  | .file _, _ => .error .notDirectory
  | spot, some (.down name) =>
    if route.insistsDirectory then .error .isDirectory
    else if Route.isTooLong name then .error .nameTooLong
    else match spot with
      | .directory parent =>
        if disk.hasDirectory (parent ++ [name]) then .error .isDirectory
        else .ok (disk.put (parent ++ [name]) text.toUTF8)
      | _ => .ok disk
  | _, _ => .error .isDirectory

end Disk

end Beagle
