import AttAsm.Constant

/-!
# Sections and files

A file is a sequence of sections; a section holds instructions or constants in the order in which
they are written.
-/

namespace AttAsm

/-- The instructions of a code section. -/
structure Code where
  instructions : List Instruction
deriving DecidableEq

namespace Code

def empty : Code := ⟨[]⟩

def push (c : Code) (i : Instruction) : Code := ⟨c.instructions ++ [i]⟩

def extend (c : Code) (is : List Instruction) : Code := ⟨c.instructions ++ is⟩

end Code

/-- The constants of a data section. -/
structure Data where
  constants : List Constant
deriving DecidableEq

namespace Data

def empty : Data := ⟨[]⟩

def push (d : Data) (c : Constant) : Data := ⟨d.constants ++ [c]⟩

end Data

inductive Section where
  | code (c : Code)
  | data (d : Data)
deriving DecidableEq

namespace Section

/-- The directive that opens a section. -/
def directive : Section → String
  | code _ => ".text"
  | data _ => ".data"

/-- The number of instructions or constants. -/
def length : Section → Nat
  | code c => c.instructions.length
  | data d => d.constants.length

end Section

structure File where
  sections : List Section
deriving DecidableEq

namespace File

def empty : File := ⟨[]⟩

def push (f : File) (s : Section) : File := ⟨f.sections ++ [s]⟩

/-- The sections in the opposite order. -/
def reverse (f : File) : File := ⟨f.sections.reverse⟩

end File

end AttAsm
