import AttAsm.Register
import AttAsm.Operation

/-!
# Instructions

An instruction has one of ten operand forms and is written as one line of text, AT&T order: source
first, then target. The functions named `mk…` build the forms that can be ill-formed and refuse
those; the other forms are always well-formed.
-/

namespace AttAsm

/-- A positive number of bytes. -/
structure Alignment where
  bytes : Nat
  pos : 0 < bytes
deriving DecidableEq

namespace Alignment

/-- No alignment beyond single bytes. -/
def one : Alignment := ⟨1, by decide⟩

/-- Refuses zero. -/
def ofNat (n : Nat) : Except Error Alignment :=
  if h : 0 < n then .ok ⟨n, h⟩ else .error .zeroAlignment

/-- An alignment that has to be written down. -/
def isExplicit (a : Alignment) : Bool := a.bytes != 1

def text (a : Alignment) : String := toString a.bytes

end Alignment

/-- An instruction, or a label between instructions. -/
inductive Instruction where
  | label (name : String) (alignment : Alignment) (isGlobal : Bool)
  | bare (op : BareOp)
  | unary (op : UnaryOp) (operand : Register)
  | binary (op : BinaryOp) (left right : Register) (width : Width)
  | immediate (op : ImmediateOp) (value : Int) (target : Register)
  | load (op : LoadOp) (offset : Int) (base target : Register)
  | store (op : StoreOp) (source : Register) (offset : Int) (base : Register)
  | branch (op : BranchOp) (symbol : String)
  | symbol (op : SymbolOp) (symbol : String) (target : Register)
  | basedSymbol (op : BasedSymbolOp) (symbol : String) (base target : Register)
deriving DecidableEq

namespace Instruction

/-! ## Building -/

/-- A local label without alignment. -/
def localLabel (name : String) : Instruction := .label name .one false

/-- A label with its alignment in bytes, which may not be zero. -/
def mkLabel (name : String) (alignment : Nat) (isGlobal : Bool) : Except Error Instruction := do
  let a ← Alignment.ofNat alignment
  return .label name a isGlobal

/-- Refuses two registers that cannot meet in one instruction. -/
def mkBinary (op : BinaryOp) (left right : Register) : Except Error Instruction :=
  if left.width.compatible right.width then do
    let w ← left.width.join right.width
    return .binary op left right w
  else .error (.incompatibleWidths left.width right.width)

/-- Refuses a value that does not fit the target. -/
def mkImmediate (op : ImmediateOp) (value : Int) (target : Register) :
    Except Error Instruction := do
  target.width.checkImmediate value
  return .immediate op value target

/-- Refuses an offset that does not fit the target; any base will do. -/
def mkLoad (op : LoadOp) (offset : Int) (base target : Register) : Except Error Instruction := do
  target.width.checkImmediate offset
  return .load op offset base target

/-- Refuses an offset that does not fit the source; any base will do. -/
def mkStore (op : StoreOp) (source : Register) (offset : Int) (base : Register) :
    Except Error Instruction := do
  source.width.checkImmediate offset
  return .store op source offset base

/-! ## Writing -/

def isLabel : Instruction → Bool
  | label .. => true
  | _ => false

/-- A mnemonic with the suffix of a width. -/
def stem {α : Type} [Operation α] (op : α) (w : Width) : String :=
  Operation.mnemonic op ++ w.suffix

/-- A displacement in front of a base register in brackets. -/
def memory (displacement : String) (base : Register) : String :=
  displacement ++ "(" ++ base.operand ++ ")"

/-- The line without indentation and without its end. -/
def text : Instruction → String
  | label name _ _ => name ++ ":"
  | bare op => Operation.mnemonic op
  | unary op r => stem op r.width ++ " " ++ r.operand
  | binary op l r w => stem op w ++ " " ++ l.operand ++ ", " ++ r.operand
  | immediate op v t => stem op t.width ++ " $" ++ toString v ++ ", " ++ t.operand
  | load op v b t => stem op t.width ++ " " ++ memory (toString v) b ++ ", " ++ t.operand
  | store op s v b => stem op s.width ++ " " ++ s.operand ++ ", " ++ memory (toString v) b
  | branch op a => Operation.mnemonic op ++ " " ++ a
  | symbol op a t => stem op t.width ++ " " ++ a ++ ", " ++ t.operand
  | basedSymbol op a b t => stem op t.width ++ " " ++ memory a b ++ ", " ++ t.operand

end Instruction

end AttAsm
