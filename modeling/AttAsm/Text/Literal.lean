/-!
# String literals of the assembler

`escape` writes bytes as the body of a quoted literal in printable ASCII: quote and backslash behind
a backslash, line feed, tab and carriage return by their letters, and every other byte that is not
printable by its three octal digits.
-/

namespace AttAsm.Literal

/-- The octal digit of the three low bits. -/
def octalDigit (n : Nat) : UInt8 := UInt8.ofNat (0x30 + n % 8)

/-- A byte that stands for itself in a literal whatever surrounds it. -/
def isPrintable (b : UInt8) : Bool := 0x20 ≤ b && b ≤ 0x7E

theorem isPrintable_iff (b : UInt8) :
    isPrintable b = true ↔ 0x20 ≤ b.toNat ∧ b.toNat ≤ 0x7E := by
  simp [isPrintable, UInt8.le_iff_toNat_le]

/-- One byte of a literal's body. -/
def escapeByte (b : UInt8) : List UInt8 :=
  if b = 0x22 then [0x5C, 0x22]
  else if b = 0x5C then [0x5C, 0x5C]
  else if b = 0x0A then [0x5C, 0x6E]
  else if b = 0x09 then [0x5C, 0x74]
  else if b = 0x0D then [0x5C, 0x72]
  else if isPrintable b then [b]
  else [0x5C, octalDigit (b.toNat / 64), octalDigit (b.toNat / 8), octalDigit b.toNat]

/-- The body of the literal for some bytes. -/
def escape (bs : List UInt8) : List UInt8 := bs.flatMap escapeByte

/-- A byte that changes how a literal is read when it is written as it stands: a quote, a backslash
or a control character. Bytes outside ASCII do not. -/
def disturbs (b : UInt8) : Bool := b == 0x22 || b == 0x5C || b < 0x20 || b == 0x7F

end AttAsm.Literal
