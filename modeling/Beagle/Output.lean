import Beagle.Inheritance
import Beagle.Tree.Node

/-!
Texts that are generated from a unit, put together from fragments.

A layout has every type of the unit as C records: a static record, a dynamic record for its instances, a
variable for the static record, and a procedure that fills it in.  Only the first base is a parent;
further bases are named in a comment.  In a symbol the segments of a name are joined by an underscore,
and an underscore inside a segment is written `_0`.  No identifier starts with a digit, so a join is
never taken for an underscore.

A sketch is an outline of the unit, line by line.  A type has one slot for each of its variables, and a
method is an empty stub that is named after the type around it.
-/

namespace Beagle

inductive Fragment
  | raw (text : String)
  | line (text : String)
  /-- One comment line for every line of the text, and one for an empty text. -/
  | comment (text : String)
  | blank
deriving DecidableEq

namespace Fragment

def commentLine (line : String) : String :=
  "// " ++ line ++ "\n"

def render : Fragment → String
  | .raw text => text
  | .line text => text ++ "\n"
  | .comment text => if text.isEmpty then commentLine "" else String.join ((Text.lines text).map commentLine)
  | .blank => "\n"

def renderAll (fragments : List Fragment) : String :=
  String.join (fragments.map render)

end Fragment

namespace Symbol

def mangleChars (chars : List Char) : List Char :=
  chars.flatMap fun char => if char = '_' then ['_', '0'] else [char]

def mangleSegment (segment : String) : String :=
  String.ofList (mangleChars segment.toList)

def mangle (name : DottedName) : String :=
  "_".intercalate (name.segments.map mangleSegment)

def staticRecord (name : DottedName) : String :=
  "static_" ++ mangle name ++ "_"

def dynamicRecord (name : DottedName) : String :=
  "dynamic_" ++ mangle name ++ "_"

def slot (name : DottedName) : String :=
  "type_" ++ mangle name ++ "_"

def setup (name : DottedName) : String :=
  "sinit_" ++ mangle name ++ "_"

end Symbol

namespace Layout

def opening (header : String) : List Fragment :=
  [.comment " Beagle Compiler",
    .comment " AUTO-GENERATED CODE - Do not edit!",
    .line s!"\n#include <{header}>",
    .blank,
    .comment "\nSTRUCTURES\n ",
    .blank]

def recordStart : Fragment :=
  .raw "typedef struct\n\x7b\n   "

def recordEnd (record : String) : Fragment :=
  .line ("\x7d " ++ record ++ ";")

def furtherBases (decl : TypeDecl) : List Fragment :=
  match decl.bases.drop 1 with
  | [] => []
  | bases => [.comment ("also extends: " ++ ", ".intercalate (bases.map (·.name.text)))]

def staticRecord (entry : Entry) : List Fragment :=
  .comment entry.name.text :: furtherBases entry.decl ++
    [recordStart,
      match entry.parent with
      | some parent => .line (Symbol.staticRecord parent ++ " *base__;")
      | none => .line "void *base__; // no base type",
      .line "   struct TypeInfo typeInfo__;",
      .line "   // no static fields",
      recordEnd (Symbol.staticRecord entry.name),
      .blank]

def dynamicRecord (entry : Entry) : List Fragment :=
  [.comment entry.name.text,
    recordStart,
    match entry.parent with
    | some parent => .line (Symbol.dynamicRecord parent ++ " base__;")
    | none => .comment "no base type",
    .line ("   " ++ Symbol.staticRecord entry.name ++ " *type__;"),
    .line "   // no dynamic fields",
    recordEnd (Symbol.dynamicRecord entry.name),
    .blank]

def slot (entry : Entry) : List Fragment :=
  [.line ("static " ++ Symbol.staticRecord entry.name ++ " " ++ Symbol.slot entry.name ++ ";"),
    .blank]

def setup (entry : Entry) : List Fragment :=
  let assign (member value : String) : Fragment :=
    .line ("   " ++ Symbol.slot entry.name ++ "." ++ member ++ " = " ++ value ++ ";")
  let parent := entry.parent.map Symbol.slot
  [.line ("static void " ++ Symbol.setup entry.name ++ "()\n\x7b"),
    assign "typeInfo__.base" (parent.elim "NULL" fun slot => "&(" ++ slot ++ ".typeInfo__)"),
    assign "typeInfo__.staticSize" "0",
    assign "typeInfo__.dynamicSize" "0",
    assign "typeInfo__.name" ("\"" ++ entry.name.text ++ "\""),
    assign "base__" (parent.elim "NULL" fun slot => "&" ++ slot),
    .line "\x7d",
    .blank]

def ofEntry (entry : Entry) : List Fragment :=
  staticRecord entry ++ dynamicRecord entry ++ slot entry ++ setup entry

def ofEntries (header : String) (entries : List Entry) : List Fragment :=
  opening header ++ entries.flatMap ofEntry

end Layout

namespace SourceUnit

def layout (unit : SourceUnit) (header : String) : Except InheritanceError String := do
  return Fragment.renderAll (Layout.ofEntries header (← unit.entries))

end SourceUnit

namespace Sketch

def isBareChar (char : Char) : Bool :=
  char.isAlphanum || char = '.' || char = '_' || char = '$' || char = '-'

def globalName (name : String) : String :=
  if name.toList.all isBareChar then "@" ++ name else "@\"" ++ Text.escapeBytes name ++ "\""

def moduleLines (name : String) : List Fragment :=
  [.line s!"; module '{name}'",
    .line (globalName (".module." ++ name) ++ " = private constant [" ++
      toString (name.utf8ByteSize + 1) ++ " x i8] c\"" ++ Text.escapeBytes name ++ "\\00\"")]

def slotType (field : Field) (declarator : Declarator) : String :=
  match field.type, declarator.initial with
  | some type, _ => type.name.text
  | none, some literal => literal.value.type.name
  | none, none => "object"

def slots (decl : TypeDecl) : List String :=
  decl.body.elim [] fun body =>
    body.vars.flatMap fun field => field.declarators.map (slotType field)

def typeLines (name : String) (decl : TypeDecl) : List Fragment :=
  [.line s!"; Type '{name}'",
    .raw ("%.dyn." ++ name ++ " = type \x7b %.classref")] ++
    (slots decl).map (fun slot => .raw (", %.dyn." ++ slot)) ++
    [.line " \x7d"]

def methodLines (owner name : String) : List Fragment :=
  let symbol := if owner.isEmpty then name else owner ++ "." ++ name
  [.line s!"; method of '{owner}'", .line ("define void @" ++ symbol ++ "() \x7b\x7d")]

def visitor (unit : SourceUnit) : Visitor (List Fragment) where
  enter node written :=
    match node with
    | .unit inner => (true, written ++ moduleLines inner.moduleName)
    | .type decl => (true, written ++ typeLines (unit.nameOf decl).text decl)
    | .body _ => (true, written)
    | .method method =>
      let owner := ((unit.enclosingType? method.info.id).map fun decl => (unit.nameOf decl).text).getD ""
      (false, written ++ methodLines owner method.name)
    | _ => (false, written)
  leave node written :=
    match node with
    | .type _ => written ++ [.blank]
    | _ => written

end Sketch

namespace SourceUnit

def sketch (unit : SourceUnit) : String :=
  Fragment.renderAll ((Node.unit unit).walk (Sketch.visitor unit) [])

end SourceUnit

end Beagle
