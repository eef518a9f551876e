import AttAsm.Emission.Event
import Mathlib.Tactic.SplitIfs

/-!
# Reading string literals

The assembler's reader of a literal's body: a backslash stands before a quote, a backslash, one of
three letters or up to three octal digits, all other bytes stand for themselves, and the first bare
quote ends the literal.

The octal reader is greedy, so it matters that `escape` always writes three digits: a digit that
follows them is not taken (`octal_digits`). One byte is then read back in front of whatever follows
(`read_escapeByte`), and a literal by induction over its bytes.

Main statement: the reader undoes `escape` and stops at the closing quote, and `escape` writes
printable ASCII only (`read_escape_quote_append`).
-/

namespace AttAsm.Literal

/-- The byte that a letter stands for behind a backslash. -/
def letter? (b : UInt8) : Option UInt8 :=
  if b = 0x22 then some 0x22
  else if b = 0x5C then some 0x5C
  else if b = 0x6E then some 0x0A
  else if b = 0x74 then some 0x09
  else if b = 0x72 then some 0x0D
  else none

def isOctal (b : UInt8) : Bool := 0x30 ≤ b && b ≤ 0x37

/-- Reads at most `k` octal digits after those that gave `v`. -/
def octal : Nat → Nat → List UInt8 → Nat × List UInt8
  | 0, v, bs => (v, bs)
  | _ + 1, v, [] => (v, [])
  | k + 1, v, b :: bs =>
    if isOctal b then octal k (v * 8 + (b.toNat - 0x30)) bs else (v, b :: bs)

theorem length_octal_le (k v : Nat) (bs : List UInt8) : (octal k v bs).2.length ≤ bs.length := by
  fun_induction octal k v bs with
  | case1 => exact Nat.le_refl _
  | case2 => exact Nat.le_refl _
  | case3 k v b bs h ih => exact Nat.le_succ_of_le ih
  | case4 => exact Nat.le_refl _

/-- Reads a literal's body up to its closing quote, and gives what follows the quote. A backslash
that stands before nothing it could change stands for itself. -/
def read : List UInt8 → Option (List UInt8 × List UInt8)
  | [] => none
  | b :: bs =>
    if b = 0x22 then some ([], bs)
    else if b = 0x5C then
      match bs with
      | [] => none
      | e :: bs =>
        match letter? e with
        | some c => (read bs).map fun p => (c :: p.1, p.2)
        | none =>
          if isOctal e then
            have : (octal 3 0 (e :: bs)).2.length < bs.length + 1 + 1 :=
              Nat.lt_succ_of_le (length_octal_le 3 0 (e :: bs))
            (read (octal 3 0 (e :: bs)).2).map fun p =>
              (UInt8.ofNat (octal 3 0 (e :: bs)).1 :: p.1, p.2)
          else (read (e :: bs)).map fun p => (b :: p.1, p.2)
    else (read bs).map fun p => (b :: p.1, p.2)
termination_by bs => bs.length

theorem read_quote (bs : List UInt8) : read (0x22 :: bs) = some ([], bs) := by
  rw [read.eq_def]
  exact if_pos rfl

theorem read_letter {e c : UInt8} (h : letter? e = some c) (bs : List UInt8) :
    read (0x5C :: e :: bs) = (read bs).map fun p => (c :: p.1, p.2) := by
  rw [read, if_neg (by decide), if_pos rfl, h]

theorem read_plain {b : UInt8} (hq : b ≠ 0x22) (hb : b ≠ 0x5C) (bs : List UInt8) :
    read (b :: bs) = (read bs).map fun p => (b :: p.1, p.2) := by
  rw [read.eq_def]
  exact (if_neg hq).trans (if_neg hb)

/-! ## Octal digits -/

theorem isOctal_octalDigit (n : Nat) : isOctal (octalDigit n) = true := by
  have h : ∀ d < 8, isOctal (UInt8.ofNat (0x30 + d)) = true := by decide
  exact h (n % 8) (Nat.mod_lt _ (by decide))

theorem letter?_octalDigit (n : Nat) : letter? (octalDigit n) = none := by
  have h : ∀ d < 8, letter? (UInt8.ofNat (0x30 + d)) = none := by decide
  exact h (n % 8) (Nat.mod_lt _ (by decide))

theorem toNat_octalDigit (n : Nat) : (octalDigit n).toNat - 0x30 = n % 8 := by
  have h : ∀ d < 8, (UInt8.ofNat (0x30 + d)).toNat - 0x30 = d := by decide
  exact h (n % 8) (Nat.mod_lt _ (by decide))

/-- Three digits are read even when a fourth one follows. -/
theorem octal_digits (a b c : Nat) (bs : List UInt8) :
    octal 3 0 (octalDigit a :: octalDigit b :: octalDigit c :: bs) =
      ((a % 8 * 8 + b % 8) * 8 + c % 8, bs) := by
  simp only [octal, isOctal_octalDigit, toNat_octalDigit, if_true, Nat.zero_mul, Nat.zero_add]

theorem read_octal (n : Nat) (hn : n < 256) (bs : List UInt8) :
    read (0x5C :: octalDigit (n / 64) :: octalDigit (n / 8) :: octalDigit n :: bs) =
      (read bs).map fun p => (UInt8.ofNat n :: p.1, p.2) := by
  have hv : (n / 64 % 8 * 8 + n / 8 % 8) * 8 + n % 8 = n := by omega
  rw [read, if_neg (by decide), if_pos rfl, letter?_octalDigit]
  simp only [isOctal_octalDigit, if_true, octal_digits, hv]

/-! ## Reading back -/

/-- One byte is read back, and no byte more. -/
theorem read_escapeByte (b : UInt8) (bs : List UInt8) :
    read (escapeByte b ++ bs) = (read bs).map fun p => (b :: p.1, p.2) := by
  unfold escapeByte
  split_ifs with h1 h2 h3 h4 h5 h6
  · rw [h1]; exact read_letter rfl bs
  · rw [h2]; exact read_letter rfl bs
  · rw [h3]; exact read_letter rfl bs
  · rw [h4]; exact read_letter rfl bs
  · rw [h5]; exact read_letter rfl bs
  · exact read_plain h1 h2 bs
  · have h := read_octal b.toNat b.toNat_lt bs
    rwa [UInt8.ofNat_toNat] at h

theorem read_escape (bs rest : List UInt8) :
    read (escape bs ++ 0x22 :: rest) = some (bs, rest) := by
  induction bs with
  | nil => exact read_quote rest
  | cons b bs ih =>
    rw [escape, List.flatMap_cons, List.append_assoc, read_escapeByte]
    exact congrArg (Option.map fun p => (b :: p.1, p.2)) ih

/-! ## Printable bytes -/

theorem isPrintable_octalDigit (n : Nat) : isPrintable (octalDigit n) = true := by
  have h : ∀ d < 8, isPrintable (UInt8.ofNat (0x30 + d)) = true := by decide
  exact h (n % 8) (Nat.mod_lt _ (by decide))

theorem isPrintable_escapeByte (b : UInt8) : (escapeByte b).all isPrintable = true := by
  unfold escapeByte
  split_ifs with h1 h2 h3 h4 h5 h6
  · decide
  · decide
  · decide
  · decide
  · decide
  · simpa using h6
  · simp only [List.all_cons, isPrintable_octalDigit, List.all_nil]
    decide

theorem isPrintable_of_mem_escape {bs : List UInt8} {b : UInt8} (h : b ∈ escape bs) :
    isPrintable b = true := by
  obtain ⟨c, -, hc⟩ := List.mem_flatMap.1 h
  exact List.all_eq_true.1 (isPrintable_escapeByte c) b hc

theorem lineFeed_not_mem_escape (bs : List UInt8) : lineFeed ∉ escape bs := by
  intro h
  exact absurd (isPrintable_of_mem_escape h) (by decide)

/-- **The reader undoes `escape`.** Whatever follows the closing quote of an escaped literal, the
bytes are read back and the rest is left. The escaped body is printable ASCII. -/
theorem read_escape_quote_append (bs rest : List UInt8) :
    read (escape bs ++ [0x22] ++ rest) = some (bs, rest) ∧
      ∀ b ∈ escape bs, 0x20 ≤ b.toNat ∧ b.toNat ≤ 0x7E := by
  refine ⟨?_, fun b hb => (isPrintable_iff b).1 (isPrintable_of_mem_escape hb)⟩
  rw [List.append_assoc]
  exact read_escape bs rest

-- A byte in octal digits in front of a digit, and an escaped quote in front of the closing one.
example : read (escape [0x01, 0x37, 0x22] ++ [0x22, 0x22]) = some ([0x01, 0x37, 0x22], [0x22]) := by
  cbv

end AttAsm.Literal
