import AttAsm.Proofs.OutputLines

/-!
# Indent and spacing

The indent and the empty lines before sections are layout only. `condense` forgets them: it takes
the blanks from the front of each line and drops the lines that are left empty. Blanks in front of a
text make no difference to it, line feeds among them or not (`condense_append_of_blank`), so a row has
the same condensed lines under every blank indent (`Row.condense_bytes`), and an empty row has none.

Names, symbols and strings may be any texts; the lines that they break into are the same for both
layouts.

Main statement: `File.condense_emit_eq`.
-/

namespace AttAsm

/-- The blanks of ASCII: tab, line feed, form feed, carriage return and space. -/
def isAsciiBlank (b : UInt8) : Bool :=
  b == 0x09 || b == 0x0A || b == 0x0C || b == 0x0D || b == 0x20

/-- The lines without the blanks in front of them, and without those that are left empty. -/
def condenseLines (ls : List (List UInt8)) : List (List UInt8) :=
  (ls.map (List.dropWhile isAsciiBlank)).filter fun l => !l.isEmpty

/-- The condensed lines of some bytes. -/
def condense (bs : List UInt8) : List (List UInt8) := condenseLines (bs.splitOn lineFeed)

theorem condenseLines_append (a b : List (List UInt8)) :
    condenseLines (a ++ b) = condenseLines a ++ condenseLines b := by
  unfold condenseLines
  rw [List.map_append, List.filter_append]

theorem condenseLines_flatMap {α : Type} (as : List α) (lines : α → List (List UInt8)) :
    condenseLines (as.flatMap lines) = as.flatMap fun a => condenseLines (lines a) := by
  induction as with
  | nil => rfl
  | cons a as ih => rw [List.flatMap_cons, condenseLines_append, ih, List.flatMap_cons]

/-- A blank in front ends an empty line or is dropped from its line. -/
theorem condense_cons_of_blank {b : UInt8} (h : isAsciiBlank b = true) (bs : List UInt8) :
    condense (b :: bs) = condense bs := by
  unfold condense
  rw [List.splitOn_cons_eq_if_modifyHead]
  by_cases hb : (b == lineFeed) = true
  · rw [if_pos hb]
    rfl
  · rw [if_neg hb]
    cases bs.splitOn lineFeed with
    | nil => rfl
    | cons l ls =>
      show condenseLines ((b :: l) :: ls) = condenseLines (l :: ls)
      unfold condenseLines
      rw [List.map_cons, List.map_cons, List.dropWhile_cons_of_pos h]

theorem condense_append_of_blank {as : List UInt8} (h : ∀ b ∈ as, isAsciiBlank b = true)
    (bs : List UInt8) : condense (as ++ bs) = condense bs := by
  induction as with
  | nil => rfl
  | cons a as ih =>
    obtain ⟨ha, has⟩ := List.forall_mem_cons.1 h
    rw [List.cons_append, condense_cons_of_blank ha, ih has]

namespace Layout

/-- The indent is made of blanks. -/
def IsBlank (l : Layout) : Prop := ∀ b ∈ Utf8.encode l.indent, isAsciiBlank b = true

instance (l : Layout) : Decidable l.IsBlank := List.decidableBAll _ (Utf8.encode l.indent)

/-- A blank indent in front of a text is not shown. -/
theorem IsBlank.condense_indent {l : Layout} (h : l.IsBlank) (s : String) (bs : List UInt8) :
    condense (Utf8.encode (l.indent ++ s) ++ bs) = condense (Utf8.encode s ++ bs) := by
  rw [Utf8.encode_append, List.append_assoc, condense_append_of_blank h]

end Layout

/-- A row behind an indent is the same row behind another one. -/
theorem Row.condense_bytes {l m : Layout} (hs : l.strings = m.strings) (hl : l.IsBlank)
    (hm : m.IsBlank) (r : Row) : condense (r.bytes l) = condense (r.bytes m) := by
  have hindent (s : String) (bs : List UInt8) : condense (Utf8.encode (l.indent ++ s) ++ bs) =
      condense (Utf8.encode (m.indent ++ s) ++ bs) :=
    (hl.condense_indent s bs).trans (hm.condense_indent s bs).symm
  have hline (s : String) :
      condense (Utf8.encode (l.indent ++ s)) = condense (Utf8.encode (m.indent ++ s)) := by
    simpa using hindent s []
  cases r with
  | empty => rfl
  | opening d => exact hline d
  | globl n => simpa only [bytes, String.append_assoc] using hline (".globl " ++ n)
  | align a => simpa only [bytes, String.append_assoc] using hline (".align " ++ a.text)
  | name n => rfl
  | instruction t => exact hline t
  | datum v =>
    have hv : l.value v = m.value v := by
      cases v with
      | string bs => simp only [Layout.value, Layout.body, hs]
      | _ => rfl
    simpa only [bytes, String.append_assoc, hv] using hindent (v.directive ++ " ") (m.value v)

theorem Layout.condense_write (l : Layout) (rs : List Row) :
    condense (l.write rs) = rs.flatMap fun r => condense (r.bytes l) := by
  rw [condense, splitOn_write, condenseLines_append, lines, condenseLines_flatMap]
  exact List.append_nil _

/-- Empty rows show nothing. -/
theorem Section.flatMap_rows {α : Type} {F : Row → List α} (h : F .empty = []) (spaced : Bool)
    (s : Section) : (s.rows spaced).flatMap F = (s.rows false).flatMap F := by
  cases spaced with
  | false => rfl
  | true => simp [rows, h]

namespace File

theorem condense_bytes {l m : Layout} (hs : l.strings = m.strings) (hl : l.IsBlank)
    (hm : m.IsBlank) (f : File) : condense (f.bytes l) = condense (f.bytes m) := by
  rw [bytes_eq_write, bytes_eq_write, Layout.condense_write, Layout.condense_write, rows, rows,
    List.flatMap_assoc, List.flatMap_assoc]
  congr 1
  funext s
  rw [s.flatMap_rows rfl l.spaced, s.flatMap_rows rfl m.spaced]
  simp only [Row.condense_bytes hs hl hm]

/-- **Indent and spacing are layout only.** Under two layouts with the same form of strings and with
blank indents, the outputs of a file have the same lines, up to blanks in front of a line and up to
empty lines. -/
theorem condense_emit_eq {l m : Layout} (hs : l.strings = m.strings) (hl : l.IsBlank)
    (hm : m.IsBlank) (f : File) :
    ∃ a b, (f.emit l).result = .ok a ∧ (f.emit m).result = .ok b ∧ condense a = condense b :=
  ⟨f.bytes l, f.bytes m, emit_result l f, emit_result m f, condense_bytes hs hl hm f⟩

/-- An indent of two lines with spacing against a form feed without, for a name that begins with
blanks and a string that is cut by a line feed. -/
theorem condense_emit_eq_breaks :
    let l : Layout := ⟨"\t\n\r ", true, .verbatim⟩
    let m : Layout := ⟨"\x0c", false, .verbatim⟩
    let f : File :=
      ⟨[.code ⟨[.localLabel " \n a"]⟩, .data ⟨[⟨none, .one, true, .string [0x0A, 0x20, 0x62]⟩]⟩]⟩
    l.IsBlank ∧ m.IsBlank ∧ f.bytes l ≠ f.bytes m ∧
      ∃ a b, (f.emit l).result = .ok a ∧ (f.emit m).result = .ok b ∧ condense a = condense b := by
  intro l m f
  have hl : l.IsBlank := by decide
  have hm : m.IsBlank := by decide
  exact ⟨hl, hm, by decide, condense_emit_eq (l := l) (m := m) rfl hl hm f⟩

end File

end AttAsm
