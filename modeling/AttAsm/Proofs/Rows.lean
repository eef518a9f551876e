import AttAsm.Emission.Writer
import AttAsm.Proofs.InstructionText
import AttAsm.Proofs.LiteralText

/-!
# The output as rows

Emission writes one row after the other. A row knows what it is about, and `Row.bytes` is how it is
written under a layout. Where names are identifiers, strings are escaped and the indent is blank, a
row is read back from its bytes (`Row.read?_bytes`), and so the rows of a file are found again
between the line feeds of its output (`File.readRows?_bytes`).
-/

namespace AttAsm

/-- One line of output. -/
inductive Row where
  | empty
  | opening (directive : String)
  | globl (name : String)
  | align (a : Alignment)
  | name (name : String)
  | instruction (text : String)
  | datum (value : Datum)
deriving DecidableEq

/-- What stands between the quotes of a string. -/
def Layout.body (l : Layout) (bs : List UInt8) : List UInt8 :=
  match l.strings with
  | .verbatim => bs
  | .escaped => Literal.escape bs

/-- A value behind its directive. -/
def Layout.value (l : Layout) : Datum → List UInt8
  | .string bs => quote :: l.body bs ++ [quote]
  | .word n => Utf8.encode (toString n.toInt)
  | .long n => Utf8.encode (toString n.toInt)
  | .quad n => Utf8.encode (toString n.toInt)

/-- A row under a layout, without its line feed. -/
def Row.bytes (l : Layout) : Row → List UInt8
  | empty => []
  | opening d => Utf8.encode (l.indent ++ d)
  | globl n => Utf8.encode (l.indent ++ ".globl " ++ n)
  | align a => Utf8.encode (l.indent ++ ".align " ++ a.text)
  | name n => Utf8.encode (n ++ ":")
  | instruction t => Utf8.encode (l.indent ++ t)
  | datum v => Utf8.encode (l.indent ++ v.directive ++ " ") ++ l.value v

/-- Rows one after the other, each with its line feed. -/
def Layout.write (l : Layout) (rs : List Row) : List UInt8 :=
  rs.flatMap fun r => r.bytes l ++ [lineFeed]

@[simp] theorem Layout.write_nil (l : Layout) : l.write [] = [] := rfl

@[simp] theorem Layout.write_cons (l : Layout) (r : Row) (rs : List Row) :
    l.write (r :: rs) = r.bytes l ++ lineFeed :: l.write rs := by
  simp [write]

@[simp] theorem Layout.write_append (l : Layout) (a b : List Row) :
    l.write (a ++ b) = l.write a ++ l.write b := by
  simp [write]

theorem Layout.write_flatMap {α : Type} (l : Layout) (as : List α) (rows : α → List Row) :
    l.write (as.flatMap rows) = as.flatMap fun a => l.write (rows a) := by
  induction as with
  | nil => rfl
  | cons a as ih => rw [List.flatMap_cons, write_append, ih, List.flatMap_cons]

/-! ## Rows of files -/

def Alignment.rows (a : Alignment) : List Row := if a.isExplicit then [.align a] else []

/-- A symbol's directives and then its name. -/
def symbolRows (name : String) (a : Alignment) (isGlobal : Bool) : List Row :=
  (if isGlobal then [.globl name] else []) ++ a.rows ++ [.name name]

def Instruction.rows : Instruction → List Row
  | label name a g => symbolRows name a g
  | i => [.instruction i.text]

def Constant.rows (c : Constant) : List Row :=
  (match c.label with
    | some name => symbolRows name c.alignment c.isGlobal
    | none => c.alignment.rows) ++ [.datum c.value]

def Section.items : Section → List Row
  | code c => c.instructions.flatMap Instruction.rows
  | data d => d.constants.flatMap Constant.rows

def Section.rows (spaced : Bool) (s : Section) : List Row :=
  (if spaced then [.empty] else []) ++ [.opening s.directive] ++ s.items

def File.rows (spaced : Bool) (f : File) : List Row := f.sections.flatMap (Section.rows spaced)

/-! ## Emission writes the rows -/

namespace Event

@[simp] theorem offered_nil : offered [] = [] := rfl

@[simp] theorem offered_write (bs : List UInt8) (es : List Event) :
    offered (.write bs :: es) = bs ++ offered es := rfl

@[simp] theorem offered_endLine (es : List Event) : offered (.endLine :: es) = offered es := rfl

@[simp] theorem offered_note (r : Record) (es : List Event) :
    offered (.note r :: es) = offered es := rfl

theorem offered_flatMap {α : Type} (as : List α) (events : α → List Event) :
    offered (as.flatMap events) = as.flatMap fun a => offered (events a) := by
  induction as with
  | nil => rfl
  | cons a as ih => rw [List.flatMap_cons, offered_append, ih, List.flatMap_cons]

end Event

namespace Layout

open Event

@[simp] theorem offered_line (text : String) :
    offered (line text) = Utf8.encode text ++ [lineFeed] := by
  simp [line]

@[simp] theorem offered_indented (l : Layout) (text : String) :
    offered (l.indented text) = Utf8.encode (l.indent ++ text) ++ [lineFeed] := by
  simp [indented, Utf8.encode_append]

theorem offered_alignment (l : Layout) (a : Alignment) :
    offered (l.alignment a) = l.write a.rows := by
  unfold alignment Alignment.rows
  split_ifs
  · simp [Row.bytes, Utf8.encode_append]
  · rfl

theorem offered_symbol (l : Layout) (name : String) (a : Alignment) (g : Bool) :
    offered (l.symbol name a g) = l.write (symbolRows name a g) := by
  unfold symbol symbolRows
  rw [offered_append, offered_append, offered_alignment]
  cases g <;> simp [Row.bytes, Utf8.encode_append]

theorem offered_emitInstruction (l : Layout) (i : Instruction) :
    offered (l.emitInstruction i) = l.write i.rows := by
  unfold emitInstruction
  rw [offered_note]
  cases i with
  | label name a g => exact offered_symbol l name a g
  | _ => simp [Instruction.rows, Row.bytes]

theorem offered_payload (l : Layout) (label : Option String) (bs : List UInt8) :
    offered (l.payload label bs) = l.body bs := by
  unfold payload body
  cases l.strings with
  | escaped => simp
  | verbatim => split_ifs <;> simp

theorem offered_datum (l : Layout) (label : Option String) (v : Datum) :
    offered (l.datum label v) = l.write [.datum v] := by
  cases v with
  | string bs =>
    have hq : Utf8.encode " \"" = Utf8.encode " " ++ [quote] := by decide
    simp [datum, offered_append, offered_payload, Row.bytes, value, Utf8.encode_append, hq]
  | word n => simp [datum, Row.bytes, value, Utf8.encode_append]
  | long n => simp [datum, Row.bytes, value, Utf8.encode_append]
  | quad n => simp [datum, Row.bytes, value, Utf8.encode_append]

theorem offered_emitConstant (l : Layout) (c : Constant) :
    offered (l.emitConstant c) = l.write c.rows := by
  unfold emitConstant Constant.rows
  rw [offered_append, write_append, offered_datum]
  cases c.label with
  | none => rw [offered_alignment]
  | some name => rw [offered_symbol]

theorem offered_emitSection (l : Layout) (s : Section) :
    offered (l.emitSection s) = l.write (s.rows l.spaced) := by
  have hc : offered (l.contents s) = l.write s.items := by
    cases s with
    | code c => simp [contents, Section.items, offered_flatMap, write_flatMap,
        offered_emitInstruction]
    | data d => simp [contents, Section.items, offered_flatMap, write_flatMap,
        offered_emitConstant]
  unfold emitSection Section.rows
  rw [offered_append, offered_append, hc, write_append, write_append]
  cases l.spaced <;> simp [emptyLine, Row.bytes]

end Layout

/-- The output is the rows of the file. -/
theorem File.bytes_eq_write (l : Layout) (f : File) : f.bytes l = l.write (f.rows l.spaced) := by
  unfold File.bytes File.rows Layout.emitFile
  rw [Event.offered_note, Event.offered_flatMap, Layout.write_flatMap]
  simp only [Layout.offered_emitSection]

end AttAsm
