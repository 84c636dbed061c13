import Beagle.Tree.Basic

/-!
Sessions: what several parses share.  A session collects diagnostics, which say what is wrong with a
source, how bad it is, and where; and it hands out node ids, so that ids stay apart over all of its
parses.
-/

namespace Beagle

inductive Severity
  | error
  | warning
deriving DecidableEq

def Severity.text : Severity → String
  | .error => "error"
  | .warning => "warning"

inductive Complaint
  | expected (kinds : List Kind) (found : Token)
  | unqualifiedImport
  | initializerCount
  | integerRange (digits : String)
  | repeatedModifier (modifier : Modifier)
  | remark (message : String)
deriving DecidableEq

def Complaint.message : Complaint → String
  | .expected kinds found =>
    let wanted := " or ".intercalate (kinds.map fun kind => s!"'{kind.spelling}'")
    s!"Syntax error, expected {wanted} but found '{found.display}'"
  | .unqualifiedImport => "Invalid qualified type name"
  | .initializerCount => "Initializer count does not match declared names"
  | .integerRange digits => s!"Integer literal out of range for int32: {digits}"
  | .repeatedModifier modifier => s!"Duplicate modifier '{modifier.spelling}'"
  | .remark message => message

structure Diagnostic where
  severity : Severity
  file : String
  position : Option Position
  complaint : Complaint
deriving DecidableEq

namespace Diagnostic

def message (diagnostic : Diagnostic) : String :=
  diagnostic.complaint.message

def text (diagnostic : Diagnostic) : String :=
  let file := if diagnostic.file.isEmpty then "" else diagnostic.file ++ ":"
  let position := match diagnostic.position with
    | some position => position.text ++ ": "
    | none => if diagnostic.file.isEmpty then "" else " "
  file ++ position ++ diagnostic.severity.text ++ ": " ++ diagnostic.message

def isError (diagnostic : Diagnostic) : Bool :=
  diagnostic.severity = .error

def errorCount (diagnostics : List Diagnostic) : Nat :=
  diagnostics.countP isError

end Diagnostic

inductive Notice
  | started (file : String)
  | error (diagnostic : Diagnostic)
  | warning (diagnostic : Diagnostic)
  | finished (file : String)
deriving DecidableEq

def Notice.reported (diagnostic : Diagnostic) : Notice :=
  match diagnostic.severity with
  | .error => .error diagnostic
  | .warning => .warning diagnostic

/-- `notices` are all notices since the session began, oldest first; `diagnostics` are those that
nobody has taken yet. -/
structure Session where
  file : String
  diagnostics : List Diagnostic
  notices : List Notice
  nextId : Nat

namespace Session

def empty : Session :=
  ⟨"", [], [], 0⟩

def begin (session : Session) (file : String) : Session :=
  { session with file := file, notices := session.notices ++ [.started file] }

def finish (session : Session) : Session :=
  { session with notices := session.notices ++ [.finished session.file] }

def takeId (session : Session) : Nat × Session :=
  (session.nextId, { session with nextId := session.nextId + 1 })

def node (session : Session) (position : Position) : NodeInfo × Session :=
  let (id, session) := session.takeId
  (.fresh id position, session)

def report (session : Session) (severity : Severity) (position : Option Position)
    (complaint : Complaint) : Session :=
  let diagnostic := ⟨severity, session.file, position, complaint⟩
  { session with
    diagnostics := session.diagnostics ++ [diagnostic]
    notices := session.notices ++ [.reported diagnostic] }

def reportExpected (session : Session) (found : Token) (kinds : List Kind) : Session :=
  session.report .error (some found.position) (.expected kinds found)

def takeDiagnostics (session : Session) : List Diagnostic × Session :=
  (session.diagnostics, { session with diagnostics := [] })

def errorCount (session : Session) : Nat :=
  Diagnostic.errorCount session.diagnostics

def hasErrors (session : Session) : Bool :=
  0 < session.errorCount

structure Continues (before after : Session) : Prop where
  file : after.file = before.file
  nextId : before.nextId ≤ after.nextId
  reported : ∃ more : List Diagnostic, (∀ diagnostic ∈ more, diagnostic.file = before.file) ∧
    after.diagnostics = before.diagnostics ++ more ∧
    after.notices = before.notices ++ more.map .reported

theorem Continues.refl (session : Session) : session.Continues session :=
  ⟨rfl, Nat.le_refl _, [], by simp⟩

theorem Continues.trans {first second third : Session} (early : first.Continues second)
    (late : second.Continues third) : first.Continues third := by
  obtain ⟨more, tagged, diagnostics, notices⟩ := early.reported
  obtain ⟨others, othersTagged, othersDiagnostics, othersNotices⟩ := late.reported
  refine ⟨late.file.trans early.file, Nat.le_trans early.nextId late.nextId, more ++ others, ?_, ?_, ?_⟩
  · intro diagnostic member
    rcases List.mem_append.mp member with old | new
    · exact tagged diagnostic old
    · exact (othersTagged diagnostic new).trans early.file
  · rw [othersDiagnostics, diagnostics, List.append_assoc]
  · rw [othersNotices, notices, List.map_append, List.append_assoc]

theorem continues_node (session : Session) (position : Position) :
    session.Continues (session.node position).2 :=
  ⟨rfl, Nat.le_succ _, [], by simp [node, takeId]⟩

theorem continues_report (session : Session) (severity : Severity) (position : Option Position)
    (complaint : Complaint) : session.Continues (session.report severity position complaint) :=
  ⟨rfl, Nat.le_refl _, [⟨severity, session.file, position, complaint⟩], by simp [report]⟩

theorem Continues.errorCount_le {before after : Session} (continues : before.Continues after) :
    before.errorCount ≤ after.errorCount := by
  obtain ⟨more, _, diagnostics, _⟩ := continues.reported
  simp [errorCount, Diagnostic.errorCount, diagnostics]

@[simp] theorem errorCount_node (session : Session) (position : Position) :
    (session.node position).2.errorCount = session.errorCount := rfl

@[simp] theorem errorCount_report_error (session : Session) (position : Option Position)
    (complaint : Complaint) :
    (session.report .error position complaint).errorCount = session.errorCount + 1 := by
  simp [errorCount, Diagnostic.errorCount, report, Diagnostic.isError]

@[simp] theorem errorCount_report_warning (session : Session) (position : Option Position)
    (complaint : Complaint) :
    (session.report .warning position complaint).errorCount = session.errorCount := by
  simp [errorCount, Diagnostic.errorCount, report, Diagnostic.isError]

@[simp] theorem errorCount_reportExpected (session : Session) (found : Token) (kinds : List Kind) :
    (session.reportExpected found kinds).errorCount = session.errorCount + 1 :=
  errorCount_report_error _ _ _

end Session

end Beagle
