import AttAsm.Instruction

/-!
# Constants

A value in a data section, with an optional label in front of it.
-/

namespace AttAsm

/-- The value of a constant: a string of bytes or a signed integer of 16, 32 or 64 bits. -/
inductive Datum where
  | string (bytes : List UInt8)
  | word (value : Int16)
  | long (value : Int32)
  | quad (value : Int64)
deriving DecidableEq

/-- The directive that places a value. -/
def Datum.directive : Datum → String
  | string _ => ".asciz"
  | word _ => ".word"
  | long _ => ".long"
  | quad _ => ".quad"

/-- The bytes of a string. -/
def Datum.payload? : Datum → Option (List UInt8)
  | string bs => some bs
  | _ => none

/-- A value with its place. Without a label nothing can refer to it, and `isGlobal` has no
effect. -/
structure Constant where
  label : Option String
  alignment : Alignment
  isGlobal : Bool
  value : Datum
deriving DecidableEq

/-- A labelled string without alignment, seen only in its file. -/
def Constant.string (label : String) (bytes : List UInt8) : Constant :=
  ⟨some label, .one, false, .string bytes⟩

end AttAsm
