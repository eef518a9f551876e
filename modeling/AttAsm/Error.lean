import AttAsm.Width

/-!
# Refusals

Why a width, a register, an operation name or an instruction was refused, and the text shown for
it.
-/

namespace AttAsm

/-- A refusal of the instruction model. -/
inductive Error where
  | incompatibleWidths (left right : Width)
  | immediateOutOfRange (value : Int) (width : Width) (low high : Int)
  | incomparableWidths (left right : Width)
  | zeroAlignment
  | invalidWidth (register : String) (width : Width)
  | unknownOperation (kind name : String)
  | frameTooLarge (bytes : Nat)
deriving DecidableEq

/-- The text shown for a refusal. -/
def Error.message : Error → String
  | incompatibleWidths l r =>
    "Register operands have incompatible widths: " ++ l.name ++ " and " ++ r.name
  | immediateOutOfRange v w low high =>
    "Immediate " ++ toString v ++ " does not fit into " ++ w.name ++ " (accepted range "
      ++ toString low ++ "..=" ++ toString high ++ ")"
  | incomparableWidths l r => "Incomparable widths: " ++ l.name ++ " and " ++ r.name
  | zeroAlignment => "Alignment must be a positive integer, got 0"
  | invalidWidth r w => "Register %" ++ r ++ " cannot be used at width " ++ w.name
  | unknownOperation k n => "Unknown " ++ k ++ " operation: " ++ n
  | frameTooLarge n => "Stack frame of " ++ toString n ++ " bytes cannot be addressed"

namespace Width

/-- The joined width, or a refusal of two widths that have none. -/
def join (l r : Width) : Except Error Width :=
  match join? l r with
  | some w => .ok w
  | none => .error (.incomparableWidths l r)

/-- The mnemonic suffix for operands of two widths. -/
def joinSuffix (l r : Width) : Except Error String := (join l r).map suffix

/-- Refuses a value that does not fit. -/
def checkImmediate (w : Width) (v : Int) : Except Error Unit :=
  if w.holds v then .ok () else .error (.immediateOutOfRange v w w.low w.high)

theorem checkImmediate_eq_ok_iff (w : Width) (v : Int) :
    w.checkImmediate v = .ok () ↔ w.holds v = true := by
  unfold checkImmediate
  split <;> simp_all

end Width

/-- A number of bytes that is a signed number of 64 bits, or a refusal of one that is not. -/
def addressable (bytes : Nat) : Except Error Nat :=
  if Width.quad.holds bytes then .ok bytes else .error (.frameTooLarge bytes)

theorem addressable_of_holds {bytes : Nat} (h : Width.quad.holds bytes = true) :
    addressable bytes = .ok bytes :=
  if_pos h

theorem addressable_of_not_holds {bytes : Nat} (h : ¬ Width.quad.holds bytes = true) :
    addressable bytes = .error (.frameTooLarge bytes) :=
  if_neg h

end AttAsm
