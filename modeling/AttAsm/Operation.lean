import AttAsm.Error

/-!
# Operations

One type of operation for each operand form. An operation is written by its mnemonic, without the
width suffix; `Operation.parse` reads a mnemonic back among the operations of one form.

Main statement: an operation that is read is written by the text it was read from
(`Operation.mnemonic_of_parse`).
-/

namespace AttAsm

/-- A finite set of operations that share an operand form. -/
class Operation (α : Type) where
  /-- The name of the operand form, as refusals show it. -/
  kind : String
  all : List α
  mnemonic : α → String

namespace Operation

variable {α : Type} [Operation α]

/-- The first operation of the form with this mnemonic. -/
def find? (text : String) : Option α := (all : List α).find? fun op => mnemonic op == text

/-- The operation with this mnemonic, or a refusal of one that the form lacks. -/
def parse (text : String) : Except Error α :=
  match find? text with
  | some op => .ok op
  | none => .error (.unknownOperation (kind α) text)

theorem mnemonic_of_parse {text : String} {op : α} (h : parse text = .ok op) :
    mnemonic op = text := by
  unfold parse at h
  split at h
  next o heq =>
    cases h
    have := List.find?_some heq
    simpa using this
  next => cases h

end Operation

/-- Operations without operands. -/
inductive BareOp where
  | ret | leave | nop | hlt | cltd | cltq | cqto | syscall | ud2
deriving DecidableEq

instance : Operation BareOp where
  kind := "UnitOp"
  all := [.ret, .leave, .nop, .hlt, .cltd, .cltq, .cqto, .syscall, .ud2]
  mnemonic
    | .ret => "ret"
    | .leave => "leave"
    | .nop => "nop"
    | .hlt => "hlt"
    | .cltd => "cltd"
    | .cltq => "cltq"
    | .cqto => "cqto"
    | .syscall => "syscall"
    | .ud2 => "ud2"

/-- Operations on one register. -/
inductive UnaryOp where
  | push | pop | neg | not | inc | dec | mul | imul | div | idiv
deriving DecidableEq

instance : Operation UnaryOp where
  kind := "RegOp"
  all := [.push, .pop, .neg, .not, .inc, .dec, .mul, .imul, .div, .idiv]
  mnemonic
    | .push => "push"
    | .pop => "pop"
    | .neg => "neg"
    | .not => "not"
    | .inc => "inc"
    | .dec => "dec"
    | .mul => "mul"
    | .imul => "imul"
    | .div => "div"
    | .idiv => "idiv"

/-- Operations from one register to another. -/
inductive BinaryOp where
  | mov | add | sub | imul | mul | div | cmp | test | and | or | xor | xchg | adc | sbb
deriving DecidableEq

instance : Operation BinaryOp where
  kind := "RegRegOp"
  all := [.mov, .add, .sub, .imul, .mul, .div, .cmp, .test, .and, .or, .xor, .xchg, .adc, .sbb]
  mnemonic
    | .mov => "mov"
    | .add => "add"
    | .sub => "sub"
    | .imul => "imul"
    | .mul => "mul"
    | .div => "div"
    | .cmp => "cmp"
    | .test => "test"
    | .and => "and"
    | .or => "or"
    | .xor => "xor"
    | .xchg => "xchg"
    | .adc => "adc"
    | .sbb => "sbb"

/-- Operations from an immediate to a register. -/
inductive ImmediateOp where
  | mov | add | sub | imul | cmp | test | and | or | xor | shl | shr | sar | adc | sbb
deriving DecidableEq

instance : Operation ImmediateOp where
  kind := "ImmRegOp"
  all := [.mov, .add, .sub, .imul, .cmp, .test, .and, .or, .xor, .shl, .shr, .sar, .adc, .sbb]
  mnemonic
    | .mov => "mov"
    | .add => "add"
    | .sub => "sub"
    | .imul => "imul"
    | .cmp => "cmp"
    | .test => "test"
    | .and => "and"
    | .or => "or"
    | .xor => "xor"
    | .shl => "shl"
    | .shr => "shr"
    | .sar => "sar"
    | .adc => "adc"
    | .sbb => "sbb"

/-- Operations from memory at an offset to a register. -/
inductive LoadOp where
  | mov | add | sub | imul | cmp | and | or | xor | lea
deriving DecidableEq

instance : Operation LoadOp where
  kind := "ImmIndRegOp"
  all := [.mov, .add, .sub, .imul, .cmp, .and, .or, .xor, .lea]
  mnemonic
    | .mov => "mov"
    | .add => "add"
    | .sub => "sub"
    | .imul => "imul"
    | .cmp => "cmp"
    | .and => "and"
    | .or => "or"
    | .xor => "xor"
    | .lea => "lea"

/-- Operations from a register to memory at an offset. -/
inductive StoreOp where
  | mov | add | sub | cmp | and | or | xor
deriving DecidableEq

instance : Operation StoreOp where
  kind := "RegImmIndOp"
  all := [.mov, .add, .sub, .cmp, .and, .or, .xor]
  mnemonic
    | .mov => "mov"
    | .add => "add"
    | .sub => "sub"
    | .cmp => "cmp"
    | .and => "and"
    | .or => "or"
    | .xor => "xor"

/-- Jumps and calls to a symbol. -/
inductive BranchOp where
  | jmp | je | jne | jl | jle | jg | jge | jb | jbe | ja | jae | js | jns | call | loop
deriving DecidableEq

instance : Operation BranchOp where
  kind := "AddrOp"
  all := [.jmp, .je, .jne, .jl, .jle, .jg, .jge, .jb, .jbe, .ja, .jae, .js, .jns, .call, .loop]
  mnemonic
    | .jmp => "jmp"
    | .je => "je"
    | .jne => "jne"
    | .jl => "jl"
    | .jle => "jle"
    | .jg => "jg"
    | .jge => "jge"
    | .jb => "jb"
    | .jbe => "jbe"
    | .ja => "ja"
    | .jae => "jae"
    | .js => "js"
    | .jns => "jns"
    | .call => "call"
    | .loop => "loop"

/-- Operations from a symbol to a register. -/
inductive SymbolOp where
  | mov | lea
deriving DecidableEq

instance : Operation SymbolOp where
  kind := "AddrRegOp"
  all := [.mov, .lea]
  mnemonic
    | .mov => "mov"
    | .lea => "lea"

/-- Operations from a symbol relative to a base register to a register. -/
inductive BasedSymbolOp where
  | mov | lea
deriving DecidableEq

instance : Operation BasedSymbolOp where
  kind := "AddrRegRegOp"
  all := [.mov, .lea]
  mnemonic
    | .mov => "mov"
    | .lea => "lea"

end AttAsm
