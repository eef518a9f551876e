import AttAsm.Error

/-!
# Registers

A register is a view of a register family at one of the family's widths. The family decides the
name at each width; the two views of a vector register share one name.

Main statements: the views of a family are all its registers, in ascending width
(`Register.mem_members`, `Family.pairwise_members`), and `Register.find?` returns a register of
exactly the asked name and width (`Register.find?_eq_some`).
-/

namespace AttAsm

/-- The four registers whose low and high bytes have names of their own. -/
inductive Letter where
  | a
  | b
  | c
  | d
deriving DecidableEq

def Letter.text : Letter → String
  | a => "a"
  | b => "b"
  | c => "c"
  | d => "d"

/-- The index and pointer registers. -/
inductive Pointer where
  | si
  | di
  | sp
  | bp
deriving DecidableEq

def Pointer.text : Pointer → String
  | si => "si"
  | di => "di"
  | sp => "sp"
  | bp => "bp"

/-- Registers that are views of one storage. -/
inductive Family where
  | general (l : Letter)
  | pointer (p : Pointer)
  | numbered (n : Fin 8)
  | instruction
  | highByte (l : Letter)
  | vector (n : Fin 16)
deriving DecidableEq

namespace Family

/-- The families in the order of the register table. -/
def all : List Family :=
  [.general .a, .general .b, .general .c, .general .d,
    .pointer .si, .pointer .di, .pointer .sp, .pointer .bp]
  ++ (List.finRange 8).map numbered
  ++ [.instruction, .highByte .a, .highByte .b, .highByte .c, .highByte .d]
  ++ (List.finRange 16).map vector

theorem mem_all (f : Family) : f ∈ all := by
  match f with
  | .general l => cases l <;> decide
  | .pointer p => cases p <;> decide
  | .numbered n => simp [all]
  | .instruction => decide
  | .highByte l => cases l <;> decide
  | .vector n => simp [all]

/-- The name of the family itself. -/
def name : Family → String
  | general l => l.text
  | pointer p => p.text
  | numbered n => "r" ++ toString (n.val + 8)
  | instruction => "ip"
  | highByte l => l.text ++ "h"
  | vector n => "xmm" ++ toString n.val

/-- The widths at which the family can be used, in ascending order. -/
def widths : Family → List Width
  | general _ | pointer _ | numbered _ => [.byte, .word, .long, .quad]
  | instruction => [.word, .long, .quad]
  | highByte _ => [.byte]
  | vector _ => [.single, .double]

/-- The name of the family's view at a width. Only the family's own widths are asked for. -/
def view : Family → Width → String
  | general l, .byte => l.text ++ "l"
  | general l, .word => l.text ++ "x"
  | general l, .long => "e" ++ l.text ++ "x"
  | general l, _ => "r" ++ l.text ++ "x"
  | pointer p, .byte => p.text ++ "l"
  | pointer p, .word => p.text
  | pointer p, .long => "e" ++ p.text
  | pointer p, _ => "r" ++ p.text
  | numbered n, .byte => (numbered n).name ++ "b"
  | numbered n, .word => (numbered n).name ++ "w"
  | numbered n, .long => (numbered n).name ++ "d"
  | numbered n, _ => (numbered n).name
  | instruction, .word => "ip"
  | instruction, .long => "eip"
  | instruction, _ => "rip"
  | highByte l, _ => l.text ++ "h"
  | vector n, _ => (vector n).name

end Family

/-- A view of a family at one of its widths. -/
structure Register where
  family : Family
  width : Width
  mem_widths : width ∈ family.widths
deriving DecidableEq

namespace Register

/-- The name that is written after the percent sign. -/
def name (r : Register) : String := r.family.view r.width

/-- The register as an operand. -/
def operand (r : Register) : String := "%" ++ r.name

/-- A view of a vector register. -/
def isVector (r : Register) : Bool := r.width.isScalar

end Register

namespace Family

/-- The family's view at a width, if it has one. -/
def member? (f : Family) (w : Width) : Option Register :=
  if h : w ∈ f.widths then some ⟨f, w, h⟩ else none

/-- The views of a family, narrowest first. -/
def members (f : Family) : List Register := f.widths.filterMap f.member?

/-- The family has this register among its views. -/
def contains (f : Family) (r : Register) : Bool := r.family == f

/-- The family called so. -/
def find? (name : String) : Option Family := all.find? (·.name == name)

theorem member?_eq_some {f : Family} {w : Width} {r : Register} (h : f.member? w = some r) :
    r.family = f ∧ r.width = w := by
  unfold member? at h
  split at h
  · cases h; exact ⟨rfl, rfl⟩
  · cases h

theorem pairwise_widths (f : Family) : f.widths.Pairwise (·.bits < ·.bits) := by
  cases f <;> simp [widths, Width.bits]

/-- The views of a family are in ascending width. -/
theorem pairwise_members (f : Family) : f.members.Pairwise (·.width.bits < ·.width.bits) := by
  refine List.pairwise_filterMap.2 (f.pairwise_widths.imp ?_)
  intro v w h r hr s hs
  rw [(member?_eq_some hr).2, (member?_eq_some hs).2]
  exact h

end Family

namespace Register

theorem member?_width (r : Register) : r.family.member? r.width = some r := by
  unfold Family.member?
  rw [dif_pos r.mem_widths]

theorem mem_members (r : Register) : r ∈ r.family.members :=
  List.mem_filterMap.2 ⟨r.width, r.mem_widths, r.member?_width⟩

/-- The register table: every view of every family. -/
def all : List Register := Family.all.flatMap Family.members

theorem mem_all (r : Register) : r ∈ all :=
  List.mem_flatMap.2 ⟨r.family, Family.mem_all _, r.mem_members⟩

/-- The first register of the table with this name and width. -/
def find? (name : String) (width : Width) : Option Register :=
  all.find? fun r => r.name == name && r.width == width

theorem find?_eq_some {name : String} {width : Width} {r : Register}
    (h : find? name width = some r) : r.name = name ∧ r.width = width := by
  have := List.find?_some h
  simpa using this

/-- The view of the same family at another width. -/
def sibling? (r : Register) (w : Width) : Option Register := r.family.member? w

/-- The view of the same family at another width, or a refusal of a width that it lacks. -/
def atWidth (r : Register) (w : Width) : Except Error Register :=
  match r.sibling? w with
  | some s => .ok s
  | none => .error (.invalidWidth r.name w)

/-! ## Names used by the conventions -/

def rax : Register := ⟨.general .a, .quad, by decide⟩
def eax : Register := ⟨.general .a, .long, by decide⟩
def rbx : Register := ⟨.general .b, .quad, by decide⟩
def ebx : Register := ⟨.general .b, .long, by decide⟩
def rcx : Register := ⟨.general .c, .quad, by decide⟩
def rdx : Register := ⟨.general .d, .quad, by decide⟩
def rsi : Register := ⟨.pointer .si, .quad, by decide⟩
def esi : Register := ⟨.pointer .si, .long, by decide⟩
def rdi : Register := ⟨.pointer .di, .quad, by decide⟩
def edi : Register := ⟨.pointer .di, .long, by decide⟩
def rsp : Register := ⟨.pointer .sp, .quad, by decide⟩
def esp : Register := ⟨.pointer .sp, .long, by decide⟩
def rbp : Register := ⟨.pointer .bp, .quad, by decide⟩
def ebp : Register := ⟨.pointer .bp, .long, by decide⟩
def r8 : Register := ⟨.numbered 0, .quad, by decide⟩
def r9 : Register := ⟨.numbered 1, .quad, by decide⟩
def r12 : Register := ⟨.numbered 4, .quad, by decide⟩
def r13 : Register := ⟨.numbered 5, .quad, by decide⟩
def r14 : Register := ⟨.numbered 6, .quad, by decide⟩
def r15 : Register := ⟨.numbered 7, .quad, by decide⟩
def rip : Register := ⟨.instruction, .quad, by decide⟩

/-- The double-precision view of vector register `n`. -/
def xmm (n : Fin 16) : Register := ⟨.vector n, .double, by simp [Family.widths]⟩

end Register

end AttAsm
