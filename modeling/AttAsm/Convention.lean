import AttAsm.File
import AttAsm.Log
import AttAsm.Target

/-!
# Calling conventions

Which registers a target passes arguments in, which a function has to keep, how large a stack frame
is, and the instructions that set a frame up and take it down.
-/

namespace AttAsm

inductive Convention where
  | sysV
  | win64
  | cdecl
deriving DecidableEq

namespace Target

/-- All 32-bit targets pass arguments on the stack. -/
def convention (t : Target) : Convention :=
  match t.arch, t.os with
  | .bits32, _ => .cdecl
  | .bits64, .windows => .win64
  | .bits64, _ => .sysV

/-- Registers for integer arguments, first argument first. -/
def argumentRegisters (t : Target) : List Register :=
  match t.convention with
  | .sysV => [.rdi, .rsi, .rdx, .rcx, .r8, .r9]
  | .win64 => [.rcx, .rdx, .r8, .r9]
  | .cdecl => []

/-- Registers for scalar arguments, in their double-precision views. -/
def scalarRegisters (t : Target) : List Register :=
  match t.convention with
  | .sysV => [.xmm 0, .xmm 1, .xmm 2, .xmm 3, .xmm 4, .xmm 5, .xmm 6, .xmm 7]
  | .win64 => [.xmm 0, .xmm 1, .xmm 2, .xmm 3]
  | .cdecl => []

/-- Registers whose values a function has to give back. -/
def savedRegisters (t : Target) : List Register :=
  match t.convention with
  | .sysV => [.rbx, .rbp, .r12, .r13, .r14, .r15]
  | .win64 => [.rbx, .rbp, .rdi, .rsi, .r12, .r13, .r14, .r15]
  | .cdecl => [.ebx, .esi, .edi, .ebp]

/-- The register of integer results. -/
def returnRegister (t : Target) : Register :=
  match t.arch with
  | .bits64 => .rax
  | .bits32 => .eax

def stackPointer (t : Target) : Register :=
  match t.arch with
  | .bits64 => .rsp
  | .bits32 => .esp

def framePointer (t : Target) : Register :=
  match t.arch with
  | .bits64 => .rbp
  | .bits32 => .ebp

/-- Bytes that a caller keeps free above the return address for the function it calls. -/
def shadowSpace (t : Target) : Nat :=
  match t.convention with
  | .win64 => 32
  | _ => 0

/-- The stack pointer is a multiple of this at every call. -/
def stackAlignment (t : Target) : Nat :=
  match t.os, t.arch with
  | _, .bits64 => 16
  | .macos, .bits32 => 16
  | _, .bits32 => 4

/-- Return address and saved frame pointer, which every frame has below its arguments. -/
def linkBytes (t : Target) : Nat := 2 * t.wordBytes

/-- The least multiple of `m` that is not below `n`. -/
def roundUp (n m : Nat) : Nat := (n + m - 1) / m * m

/-- The bytes to take from the stack pointer for `locals` bytes and the shadow space, so that calls
from the frame are aligned. -/
def frameSize (t : Target) (locals : Nat) : Nat :=
  roundUp (locals + t.shadowSpace + t.linkBytes) t.stackAlignment - t.linkBytes

/-- Where a function finds its stack argument number `index`, counted from the frame pointer. -/
def stackArgumentOffset (t : Target) (index : Nat) : Nat :=
  t.linkBytes + t.shadowSpace + index * t.wordBytes

/-- Sets up a frame for `locals` bytes. A frame that is no signed number of 64 bits, or that the
immediates of the stack pointer cannot hold, is refused. -/
def prologue (t : Target) (locals : Nat) : Logged Error (List Instruction) := do
  let frame := t.frameSize locals
  let move ← Instruction.mkBinary .mov t.stackPointer t.framePointer
  let reserve ←
    if 0 < frame then do
      let size ← addressable frame
      let i ← Instruction.mkImmediate .sub size t.stackPointer
      pure [i]
    else pure []
  Logged.note .trace (t.text ++ " prologue: " ++ toString frame ++ " byte frame")
  return [.unary .push t.framePointer, move] ++ reserve

/-- Takes a frame down and returns. -/
def epilogue : List Instruction := [.bare .leave, .bare .ret]

/-- Calls a function of the C language. -/
def call (t : Target) (name : String) : Instruction := .branch .call (t.symbol name)

end Target

end AttAsm
