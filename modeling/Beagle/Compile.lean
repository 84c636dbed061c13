import Beagle.Disk
import Beagle.Grammar.Unit
import Beagle.Output
import Beagle.SourceText

/-!
Compiling a source text: parse it, and generate text from the unit if nothing was wrong.
-/

namespace Beagle

inductive Emit
  | layout
  | sketch
deriving DecidableEq

structure Settings where
  emit : Emit := .layout
  header : String := "beagle/base.h"
  lookahead : Nat := 16

inductive CompileError
  | rejected (diagnostics : List Diagnostic)
  | inheritance (error : InheritanceError)
  | unreadable (fault : FileFault)
  | misattached (fault : AttachFault)
deriving DecidableEq

namespace CompileError

def message : CompileError → String
  | .rejected diagnostics => s!"compilation failed with {Diagnostic.errorCount diagnostics} error(s)"
  | .inheritance error => error.message
  | .unreadable fault => "cannot read source: " ++ fault.message
  | .misattached fault => fault.message

def report (error : CompileError) (session : Session) : List String :=
  match error with
  | .rejected diagnostics => diagnostics.map Diagnostic.text
  | _ => session.diagnostics.map Diagnostic.text ++ ["error: " ++ error.message]

end CompileError

namespace SourceUnit

def generate (unit : SourceUnit) (settings : Settings) : Except CompileError String :=
  match settings.emit with
  | .layout => (unit.layout settings.header).mapError .inheritance
  | .sketch => .ok unit.sketch

end SourceUnit

/-- Compiles a text in a session.  A unit is generated only if the session has no errors, also from
before; otherwise its diagnostics are taken and returned. -/
def compileIn (session : Session) (settings : Settings) (file text : String) :
    Except CompileError String × Session :=
  let source := SourceText.ofString file text
  let (result, state) := (State.ofSource source settings.lookahead session).parse
  let session := state.session
  match result with
  | .error (.misattached fault) => (.error (.misattached fault), session)
  | .error .reported =>
    let (diagnostics, session) := session.takeDiagnostics
    (.error (.rejected diagnostics), session)
  | .ok unit =>
    if session.hasErrors then
      let (diagnostics, session) := session.takeDiagnostics
      (.error (.rejected diagnostics), session)
    else (unit.generate settings, session)

def compile (settings : Settings) (file text : String) : Except CompileError String :=
  (compileIn .empty settings file text).1

def compileFile (session : Session) (settings : Settings) (path : String)
    (content : Except FileFault String) : Except CompileError String × Session :=
  match content with
  | .error fault => (.error (.unreadable fault), session)
  | .ok text => compileIn session settings path text

end Beagle
