import Beagle.Compile

/-!
The command line: one input file and options.  An option's value follows it as the next argument, or
behind an equals sign, or, for the short option, right behind its letter.  What a command does is decided
without touching files: it is given what reading its input gave, and answers with what to print and
write.
-/

namespace Beagle.CommandLine

inductive UsageError
  | noInput
  | extraInput (argument : String)
  | unknownOption (option : String)
  | noValue (option : String)
  | unwantedValue (option : String)
  | repeatedOption (option : String)
  | emptyPath
  | unknownOutput (value : String)
  | notNumber (value : String)
deriving DecidableEq

def UsageError.message : UsageError → String
  | .noInput => "no input file"
  | .extraInput argument => s!"unexpected argument '{argument}'"
  | .unknownOption option => s!"unknown option '{option}'"
  | .noValue option => s!"option '{option}' needs a value"
  | .unwantedValue option => s!"option '{option}' takes no value"
  | .repeatedOption option => s!"option '{option}' is given twice"
  | .emptyPath => "a path is empty"
  | .unknownOutput value => s!"unknown output '{value}'"
  | .notNumber value => s!"'{value}' is not a number of tokens"

inductive Setting
  | emit
  | output
  | header
  | lookahead
deriving DecidableEq

def Setting.name : Setting → String
  | .emit => "emit"
  | .output => "output"
  | .header => "header"
  | .lookahead => "lookahead"

def Setting.all : List Setting :=
  [.emit, .output, .header, .lookahead]

structure Given where
  input : Option String := none
  output : Option String := none
  emit : Option Emit := none
  header : Option String := none
  lookahead : Option Nat := none

structure Invocation where
  input : String
  output : Option String
  settings : Settings

inductive Command
  | showVersion
  | compile (invocation : Invocation)

namespace Given

def has (given : Given) : Setting → Bool
  | .emit => given.emit.isSome
  | .output => given.output.isSome
  | .header => given.header.isSome
  | .lookahead => given.lookahead.isSome

def assign (given : Given) (value : String) : Setting → Except UsageError Given
  | .emit =>
    match value with
    | "layout" => .ok { given with emit := some .layout }
    | "sketch" => .ok { given with emit := some .sketch }
    | _ => .error (.unknownOutput value)
  | .output => if value.isEmpty then .error .emptyPath else .ok { given with output := some value }
  | .header => .ok { given with header := some value }
  | .lookahead =>
    match Numeral.word64? value with
    | some number => .ok { given with lookahead := some number }
    | none => .error (.notNumber value)

def set (given : Given) (setting : Setting) (value : String) : Except UsageError Given :=
  if given.has setting then .error (.repeatedOption setting.name) else given.assign value setting

def setInput (given : Given) (path : String) : Except UsageError Given :=
  if given.input.isSome then .error (.extraInput path)
  else if path.isEmpty then .error .emptyPath
  else .ok { given with input := some path }

def command (given : Given) : Except UsageError Command :=
  match given.input with
  | none => .error .noInput
  | some input =>
    let default : Settings := {}
    .ok <| .compile {
      input
      output := given.output
      settings := {
        emit := given.emit.getD default.emit
        header := given.header.getD default.header
        lookahead := given.lookahead.getD default.lookahead } }

end Given

inductive Argument
  | input (path : String)
  | endOfOptions
  | version
  | setting (setting : Setting) (value : Option String)
  | wrong (error : UsageError)

def longOption (name : String) (value : Option String) : Argument :=
  if name = "version" then
    if value.isSome then .wrong (.unwantedValue name) else .version
  else match Setting.all.find? fun setting => setting.name = name with
    | some setting => .setting setting value
    | none => .wrong (.unknownOption name)

def shortOptions : List Char → Argument
  | 'V' :: _ => .version
  | ['o'] => .setting .output none
  | 'o' :: '=' :: value => .setting .output (some (String.ofList value))
  | 'o' :: value => .setting .output (some (String.ofList value))
  | letters => .wrong (.unknownOption (String.ofList letters))

def Argument.ofString (argument : String) : Argument :=
  match argument.toList with
  | ['-', '-'] => .endOfOptions
  | '-' :: '-' :: rest =>
    let name := rest.takeWhile (· ≠ '=')
    longOption (String.ofList name) ((rest.dropWhile (· ≠ '=')).tail?.map String.ofList)
  | '-' :: letter :: letters => shortOptions (letter :: letters)
  | _ => .input argument

def isValue (argument : String) : Bool :=
  match Argument.ofString argument with
  | .input _ => true
  | _ => false

/-- Reads arguments from left to right.  The version is shown as soon as it is asked for. -/
def read (given : Given) : (arguments : List String) → Except UsageError Command
  | [] => given.command
  | argument :: rest =>
    match Argument.ofString argument with
    | .input path => do read (← given.setInput path) rest
    | .endOfOptions => do (← rest.foldlM Given.setInput given).command
    | .version => .ok .showVersion
    | .setting setting (some value) => do read (← given.set setting value) rest
    | .setting setting none =>
      match rest with
      | value :: rest =>
        if isValue value then do read (← given.set setting value) rest
        else .error (.noValue setting.name)
      | [] => .error (.noValue setting.name)
    | .wrong error => .error error

def Command.ofArguments (arguments : List String) : Except UsageError Command :=
  read {} arguments

def version : String := "beaglec 0.1.0"

structure Report where
  messages : String
  output : Option String

def asLines (lines : List String) : String :=
  String.join (lines.map (· ++ "\n"))

def Invocation.report (invocation : Invocation) (content : Except FileFault String) : Report :=
  match content with
  | .error fault => ⟨s!"Error: cannot read '{invocation.input}': {fault.message}\n", none⟩
  | .ok text =>
    match compileIn .empty invocation.settings invocation.input text with
    | (.ok output, session) => ⟨asLines (session.diagnostics.map Diagnostic.text), some output⟩
    | (.error error, session) => ⟨asLines (error.report session), none⟩

def writeFailure (path : String) (fault : FileFault) : String :=
  s!"Error: failed to write {path}\n\nCaused by:\n    {fault.message}\n"

structure Outcome where
  exitCode : UInt8
  output : String
  messages : String
  disk : Disk

def Invocation.run (invocation : Invocation) (disk : Disk) : Outcome :=
  let report := invocation.report (disk.readText invocation.input)
  match report.output, invocation.output with
  | none, _ => ⟨1, "", report.messages, disk⟩
  | some text, none => ⟨0, text, report.messages, disk⟩
  | some text, some path =>
    match disk.write path text with
    | .ok after => ⟨0, "", report.messages, after⟩
    | .error fault => ⟨1, "", report.messages ++ writeFailure path fault, disk⟩

def run (disk : Disk) (arguments : List String) : Outcome :=
  match Command.ofArguments arguments with
  | .error error => ⟨2, "", asLines ["error: " ++ error.message], disk⟩
  | .ok .showVersion => ⟨0, version ++ "\n", "", disk⟩
  | .ok (.compile invocation) => invocation.run disk

end Beagle.CommandLine
