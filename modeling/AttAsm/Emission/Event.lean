import AttAsm.File
import AttAsm.Log
import AttAsm.Text.Utf8
import AttAsm.Text.Literal

/-!
# Emission as a list of events

Writing a file is a list of events, fixed by the file and the layout alone: bytes offered to a sink,
lines completed, records noted. What a failing sink makes of the list is a matter of `Sink`.
-/

namespace AttAsm

/-- How the bytes of a string constant are written. -/
inductive StringForm where
  | verbatim
  | escaped
deriving DecidableEq

/-- The choices that emission leaves open. -/
structure Layout where
  /-- Stands before every line that is no label. -/
  indent : String
  /-- An empty line precedes every section. -/
  spaced : Bool
  strings : StringForm
deriving DecidableEq

/-- One tab, no empty lines, strings as they are. -/
def Layout.standard : Layout := ⟨"\t", false, .verbatim⟩

/-- One step of writing. -/
inductive Event where
  | write (bytes : List UInt8)
  | endLine
  | note (record : Record)
deriving DecidableEq

namespace Event

/-- All that the events offer to a sink. -/
def offered (es : List Event) : List UInt8 :=
  es.flatMap fun
    | write bs => bs
    | _ => []

/-- All that the events note. -/
def noted (es : List Event) : List Record :=
  es.filterMap fun
    | note r => some r
    | _ => none

theorem offered_append (a b : List Event) : offered (a ++ b) = offered a ++ offered b := by
  simp [offered]

theorem noted_append (a b : List Event) : noted (a ++ b) = noted a ++ noted b := by
  simp [noted]

end Event

/-- The line feed. -/
def lineFeed : UInt8 := 0x0A

/-- The quote around string literals. -/
def quote : UInt8 := 0x22

namespace Layout

/-- A line from its first column. -/
def line (text : String) : List Event := [.write (Utf8.encode text), .write [lineFeed], .endLine]

/-- A line behind the indent. -/
def indented (l : Layout) (text : String) : List Event :=
  .write (Utf8.encode l.indent) :: line text

def emptyLine : List Event := [.write [lineFeed], .endLine]

/-- The alignment directive, where an alignment has to be written down. -/
def alignment (l : Layout) (a : Alignment) : List Event :=
  if a.isExplicit then l.indented (".align " ++ a.text) else []

/-- A symbol's directives and then its line. -/
def symbol (l : Layout) (name : String) (a : Alignment) (isGlobal : Bool) : List Event :=
  (if isGlobal then l.indented (".globl " ++ name) else []) ++ l.alignment a ++ line (name ++ ":")

/-- The line or lines of an instruction. -/
def emitInstruction (l : Layout) (i : Instruction) : List Event :=
  .note ⟨.trace, "emit: " ++ i.text⟩ ::
    match i with
    | .label name a g => l.symbol name a g
    | _ => l.indented i.text

/-- The bytes between the quotes of a string, after a warning where they may be misread. -/
def payload (l : Layout) (label : Option String) (bs : List UInt8) : List Event :=
  match l.strings with
  | .escaped => [.write (Literal.escape bs)]
  | .verbatim =>
    (if bs.any Literal.disturbs then
      [.note ⟨.warn, "String constant " ++ label.getD "<anonymous>"
        ++ " contains bytes emitted without escaping"⟩]
    else []) ++ [.write bs]

/-- The line of a constant's value. -/
def datum (l : Layout) (label : Option String) (v : Datum) : List Event :=
  match v with
  | .string bs =>
    .write (Utf8.encode (l.indent ++ v.directive ++ " \"")) :: l.payload label bs
      ++ [.write [quote, lineFeed], .endLine]
  | .word n => l.indented (v.directive ++ " " ++ toString n.toInt)
  | .long n => l.indented (v.directive ++ " " ++ toString n.toInt)
  | .quad n => l.indented (v.directive ++ " " ++ toString n.toInt)

/-- The lines of a constant. -/
def emitConstant (l : Layout) (c : Constant) : List Event :=
  (match c.label with
    | some name => l.symbol name c.alignment c.isGlobal
    | none => l.alignment c.alignment)
  ++ l.datum c.label c.value

/-- The contents of a section, after a record of their number. -/
def contents (l : Layout) : Section → List Event
  | .code c =>
    .note ⟨.debug, "Emitting code section: " ++ toString c.instructions.length
      ++ " instructions"⟩ :: c.instructions.flatMap l.emitInstruction
  | .data d =>
    .note ⟨.debug, "Emitting data section: " ++ toString d.constants.length ++ " constants"⟩ ::
      d.constants.flatMap l.emitConstant

/-- An opened section with its contents. -/
def emitSection (l : Layout) (s : Section) : List Event :=
  (if l.spaced then emptyLine else []) ++ l.indented s.directive ++ l.contents s

/-- All sections, after a record of their number. -/
def emitFile (l : Layout) (f : File) : List Event :=
  .note ⟨.debug, "Emitting file with " ++ toString f.sections.length ++ " sections"⟩ ::
    f.sections.flatMap l.emitSection

end Layout

end AttAsm
