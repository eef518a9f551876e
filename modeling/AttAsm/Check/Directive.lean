import AttAsm.Log
import AttAsm.Text.Blank
import AttAsm.Text.Lines

/-!
# Check directives

A check file carries its expectations as comment lines, `# CHECK: …` or `; CHECK: …`. The other
lines of the file are its body.
-/

namespace AttAsm.Check

/-- An expectation about an output, or a remark. -/
inductive Directive where
  /-- Some later line has the pattern. -/
  | check (pattern : String)
  /-- Some later line has the pattern, which marks the start of a region. -/
  | label (pattern : String)
  /-- The next line has the pattern. -/
  | next (pattern : String)
  /-- The next line is blank, or there is none. -/
  | empty
  | comment (text : String)
deriving DecidableEq

namespace Directive

/-- What remains of a comment line after its leader and the blanks around it. -/
def comment? (line : List Char) : Option (List Char) :=
  match Text.trim line with
  | '#' :: r => some (Text.trimLeft r)
  | ';' :: r => some (Text.trimLeft r)
  | _ => none

/-- The keywords in the order in which they are tried, each with the directive that it makes of the
trimmed rest of the line. The one for an empty line has no colon and takes any rest. -/
def keywords : List (List Char × (String → Directive)) :=
  [("CHECK-LABEL:".toList, label), ("CHECK-NEXT:".toList, next),
    ("CHECK-EMPTY".toList, fun _ => empty), ("CHECK:".toList, check), ("COM:".toList, comment)]

/-- The directive on a line. -/
def parse? (line : List Char) : Option Directive := do
  let body ← comment? line
  keywords.findSome? fun (keyword, make) =>
    (keyword.isPrefixOf? body).map fun rest => make (String.ofList (Text.trim rest))

end Directive

/-- The directives of a check file and its other lines. -/
structure CheckFile where
  directives : List Directive
  body : String
deriving DecidableEq

namespace CheckFile

/-- Sorts the lines of a check file. -/
def parse (content : String) : CheckFile :=
  let lines := Text.lines content.toList
  ⟨lines.filterMap Directive.parse?,
    String.ofList (Text.joinLines (lines.filter fun l => (Directive.parse? l).isNone))⟩

/-- The record of a check file that was read. -/
def record (f : CheckFile) : Record :=
  ⟨.trace, "Parsed " ++ toString f.directives.length ++ " check directives"⟩

end CheckFile

end AttAsm.Check
