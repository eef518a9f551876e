/-!
# Operand widths

Four integer widths and the two scalar floating-point widths that live in vector registers. A
scalar width is an alias of the integer width of its size: the two may meet in one instruction,
and `join` then takes the integer one.
-/

namespace AttAsm

/-- The width of an operand, in the order in which widths compare. -/
inductive Width where
  | byte
  | word
  | long
  | quad
  | single
  | double
deriving DecidableEq

namespace Width

/-- The widths in ascending order. -/
def all : List Width := [byte, word, long, quad, single, double]

theorem mem_all (w : Width) : w ∈ all := by cases w <;> decide

/-- The width as messages name it. -/
def name : Width → String
  | byte => "byte"
  | word => "word"
  | long => "long"
  | quad => "quad"
  | single => "single"
  | double => "double"

/-- The position of a width in `all`. -/
def rank : Width → Nat
  | byte => 0
  | word => 1
  | long => 2
  | quad => 3
  | single => 4
  | double => 5

def bits : Width → Nat
  | byte => 8
  | word => 16
  | long | single => 32
  | quad | double => 64

def bytes (w : Width) : Nat := w.bits / 8

/-- A scalar floating-point width. -/
def isScalar : Width → Bool
  | single | double => true
  | _ => false

/-- The integer width of the same size. -/
def integer : Width → Width
  | single => long
  | double => quad
  | w => w

/-- Two widths may meet in one instruction when they are equal, or when one is the scalar alias
of the other. -/
def compatible (l r : Width) : Bool :=
  l == r ||
    match l, r with
    | quad, double | double, quad | long, single | single, long => true
    | _, _ => false

/-- The width of an instruction on operands of widths `l` and `r`. -/
def join? (l r : Width) : Option Width :=
  if l = r then some l
  else
    match l, r with
    | double, quad | quad, double => some quad
    | single, long | long, single => some long
    | _, _ => none

theorem join?_isSome (l r : Width) : (join? l r).isSome = l.compatible r := by
  cases l <;> cases r <;> rfl

/-- The letters that a mnemonic takes at this width. -/
def suffix : Width → String
  | byte => "b"
  | word => "w"
  | long => "l"
  | quad => "q"
  | single => "ss"
  | double => "sd"

/-- The least and the greatest immediate of this width. -/
def signedRange (w : Width) : Int × Int :=
  match w.integer with
  | byte => (-128, 127)
  | word => (-32768, 32767)
  | long => (-2147483648, 2147483647)
  | _ => (-9223372036854775808, 9223372036854775807)

/-- The least immediate of this width. -/
def low (w : Width) : Int := w.signedRange.1

/-- The greatest immediate of this width. -/
def high (w : Width) : Int := w.signedRange.2

/-- The signed values that an immediate of this width can hold. -/
def holds (w : Width) (v : Int) : Bool := decide (w.low ≤ v ∧ v ≤ w.high)

theorem holds_iff (w : Width) (v : Int) : w.holds v = true ↔ w.low ≤ v ∧ v ≤ w.high :=
  decide_eq_true_iff

/-- A value of 32 bits fits every width of at least 32 bits. -/
theorem holds_int32 {w : Width} (h : 32 ≤ w.bits) (n : Int32) : w.holds n.toInt = true := by
  have hl := n.le_toInt
  have hh := n.toInt_lt
  rw [holds_iff]
  cases w with
  | byte | word => exact absurd h (by decide)
  | long | single =>
    change -2147483648 ≤ n.toInt ∧ n.toInt ≤ 2147483647
    omega
  | quad | double =>
    change -9223372036854775808 ≤ n.toInt ∧ n.toInt ≤ 9223372036854775807
    omega

end Width

end AttAsm
