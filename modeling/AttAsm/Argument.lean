import AttAsm.Convention

/-!
# Places of arguments

Arguments get their places from left to right: registers while there are some of the right kind,
then slots on the stack, each a whole number of words.
-/

namespace AttAsm

/-- Where an argument is passed. -/
inductive Place where
  | register (r : Register)
  /-- An offset from the stack pointer at the call. -/
  | stack (offset : Nat)
deriving DecidableEq

/-- The places given away so far. -/
structure Assigner where
  target : Target
  /-- Integer registers used. -/
  integers : Nat
  /-- Scalar registers used. -/
  scalars : Nat
  /-- Bytes of the stack used, the shadow space included. -/
  stack : Nat
deriving DecidableEq

namespace Assigner

def start (t : Target) : Assigner := ⟨t, 0, 0, t.shadowSpace⟩

/-- The bytes of a stack slot: whole words, at least one. -/
def slotBytes (t : Target) (w : Width) : Nat :=
  Target.roundUp (max w.bytes t.wordBytes) t.wordBytes

/-- The next register for an argument of width `w`, and the counts after it. On Win64 a position
uses up a register of both kinds, and positions are counted past the last register. -/
def nextRegister (a : Assigner) (w : Width) : Option Register × Assigner :=
  match a.target.convention with
  | .win64 =>
    let slot := max a.integers a.scalars
    let regs := if w.isScalar then a.target.scalarRegisters else a.target.argumentRegisters
    (regs[slot]?, { a with integers := slot + 1, scalars := slot + 1 })
  | _ =>
    if w.isScalar then
      match a.target.scalarRegisters[a.scalars]? with
      | some r => (some r, { a with scalars := a.scalars + 1 })
      | none => (none, a)
    else
      match a.target.argumentRegisters[a.integers]? with
      | some r => (some r, { a with integers := a.integers + 1 })
      | none => (none, a)

/-- The place of the next argument. An offset is a signed number of 64 bits; a stack that has grown
beyond them is refused and stays as it is. -/
def assign (a : Assigner) (w : Width) : Except Error Place × Assigner :=
  match a.nextRegister w with
  | (some r, a') => ((r.atWidth w).map .register, a')
  | (none, a') =>
    match addressable a'.stack with
    | .ok offset => (.ok (.stack offset), { a' with stack := a'.stack + slotBytes a'.target w })
    | .error e => (.error e, a')

/-- The places of a list of arguments, each with the assigner after it. -/
def assignAll (a : Assigner) : List Width → List (Except Error Place × Assigner)
  | [] => []
  | w :: ws => a.assign w :: (a.assign w).2.assignAll ws

end Assigner

/-- The place of a function's first argument. -/
def Target.firstPlace (t : Target) (w : Width) : Except Error Place :=
  ((Assigner.start t).assign w).1

end AttAsm
