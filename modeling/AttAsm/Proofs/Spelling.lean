import AttAsm.Instruction
import AttAsm.Text.Decimal
import Mathlib.Tactic.SplitIfs

/-!
# Spelling

The words that lines are made of, and their readers: decimals, identifiers, mnemonics with a width
suffix, and register names. Every reader undoes the writing of its word.

Main statements: a decimal is read back (`Decimal.integer?_repr`), a mnemonic is
(`LawfulOperation.find?_mnemonic`), a suffix is cut off again (`Width.unsuffix_append`), and a
register is read from its name and the size of its width (`Register.named?_name`) or, when it is no
vector register, from its name alone (`Register.plain?_name`).
-/

namespace AttAsm

/-! ## Decimals -/

namespace Decimal

theorem digit?_of_isDigit {c : Char} (h : c.isDigit = true) :
    digit? c = some (c.toNat - '0'.toNat) := by
  simp only [Char.isDigit, Bool.and_eq_true, decide_eq_true_eq] at h
  exact if_pos h

/-- Reading digits is the value of the digits. -/
theorem digitsFrom_eq (n : Nat) (cs : List Char) (h : ∀ c ∈ cs, c.isDigit = true) :
    digitsFrom n cs = some (Nat.ofDigitChars 10 cs n) := by
  induction cs generalizing n with
  | nil => rw [digitsFrom, Nat.ofDigitChars_nil]
  | cons c cs ih =>
    rw [digitsFrom, digit?_of_isDigit (h c List.mem_cons_self), Option.bind_some,
      ih _ fun d hd => h d (List.mem_cons_of_mem _ hd), Nat.ofDigitChars_cons, Nat.mul_comm]

theorem isDigit_of_mem_toDigits {n : Nat} {c : Char} (h : c ∈ Nat.toDigits 10 n) :
    c.isDigit = true :=
  Nat.isDigit_of_mem_toDigits (by decide) (by decide) h

theorem digits?_toDigits (n : Nat) : digits? (Nat.toDigits 10 n) = some n := by
  have hd := digitsFrom_eq 0 (Nat.toDigits 10 n) fun _ => isDigit_of_mem_toDigits
  rw [Nat.ofDigitChars_ten_toDigits] at hd
  unfold digits?
  split
  next h => exact absurd h Nat.toDigits_ne_nil
  next => exact hd

/-- A number is written as its digits, behind a minus sign when it is negative. -/
theorem toList_repr (v : Int) :
    v.repr.toList =
      if 0 ≤ v then Nat.toDigits 10 v.toNat else '-' :: Nat.toDigits 10 (-v).toNat := by
  rw [Int.repr_eq_if]
  split_ifs <;> simp

/-- The text of a number is not empty, and starts with a digit or a minus sign. -/
theorem exists_toList_repr (v : Int) :
    ∃ c r, v.repr.toList = c :: r ∧ (c = '-' ∨ c.isDigit = true) := by
  rw [toList_repr]
  split_ifs with h
  · obtain ⟨c, r, hc⟩ := List.exists_cons_of_ne_nil (Nat.toDigits_ne_nil (n := v.toNat) (b := 10))
    exact ⟨c, r, hc, .inr (isDigit_of_mem_toDigits (hc ▸ List.mem_cons_self))⟩
  · exact ⟨_, _, rfl, .inl rfl⟩

theorem eq_or_isDigit_of_mem_repr {v : Int} {c : Char} (h : c ∈ v.repr.toList) :
    c = '-' ∨ c.isDigit = true := by
  rw [toList_repr] at h
  split_ifs at h
  · exact .inr (isDigit_of_mem_toDigits h)
  · exact (List.mem_cons.1 h).imp id isDigit_of_mem_toDigits

/-- A text without a sign is read as digits. -/
theorem integer?_of_digits (n : Nat) : integer? (Nat.toDigits 10 n) = some (n : Int) := by
  obtain ⟨c, r, hc⟩ := List.exists_cons_of_ne_nil (Nat.toDigits_ne_nil (n := n) (b := 10))
  have hd : c.isDigit = true := isDigit_of_mem_toDigits (n := n) (hc ▸ List.mem_cons_self)
  have hm : c ≠ '-' := by rintro rfl; exact absurd hd (by decide)
  have hp : c ≠ '+' := by rintro rfl; exact absurd hd (by decide)
  rw [hc]
  unfold integer?
  split
  next h => exact absurd (List.cons.inj h).1 hm
  next h => exact absurd (List.cons.inj h).1 hp
  next => rw [← hc, digits?_toDigits]; rfl

theorem integer?_repr (v : Int) : integer? v.repr.toList = some v := by
  rw [toList_repr]
  split_ifs with h
  · rw [integer?_of_digits, Int.toNat_of_nonneg h]
  · have hv : -(((-v).toNat : Nat) : Int) = v := by omega
    rw [integer?, digits?_toDigits]
    exact congrArg some hv

end Decimal

/-! ## Identifiers -/

/-- The ASCII letters, by their codes. -/
theorem isAlpha_iff {c : Char} :
    c.isAlpha = true ↔ (65 ≤ c.toNat ∧ c.toNat ≤ 90) ∨ (97 ≤ c.toNat ∧ c.toNat ≤ 122) := by
  have h : c.isAlpha = (decide (c.val ≥ 'A'.val ∧ c.val ≤ 'Z'.val) ||
      (decide (c.val ≥ 'a'.val) && decide (c.val ≤ 'z'.val))) := rfl
  rw [h, Bool.or_eq_true, Bool.and_eq_true, decide_eq_true_eq, decide_eq_true_eq,
    decide_eq_true_eq]
  exact Iff.rfl

theorem isDigit_iff {c : Char} : c.isDigit = true ↔ 48 ≤ c.toNat ∧ c.toNat ≤ 57 :=
  Char.isDigit_iff_toNat

namespace Identifier

/-- An ASCII letter, an underscore or a full stop. -/
def isStart (c : Char) : Bool := c.isAlpha || c == '_' || c == '.'

/-- A character that may follow the first one. -/
def isPart (c : Char) : Bool := isStart c || c.isDigit || c == '$'

end Identifier

/-- A name that the assembler reads as one symbol. -/
def isIdentifier (name : String) : Bool :=
  match name.toList with
  | [] => false
  | c :: r => Identifier.isStart c && r.all Identifier.isPart

theorem isIdentifier_iff {name : String} :
    isIdentifier name = true ↔
      ∃ c r, name.toList = c :: r ∧ Identifier.isStart c = true ∧
        ∀ d ∈ r, Identifier.isPart d = true := by
  unfold isIdentifier
  cases name.toList with
  | nil => simp
  | cons c r =>
    rw [Bool.and_eq_true, List.all_eq_true]
    constructor
    · rintro ⟨hc, hr⟩
      exact ⟨c, r, rfl, hc, hr⟩
    · rintro ⟨d, q, hq, hd, hr⟩
      obtain ⟨rfl, rfl⟩ := List.cons.inj hq
      exact ⟨hd, hr⟩

namespace Identifier

theorem isPart_of_mem {name : String} (h : isIdentifier name = true) {c : Char}
    (hc : c ∈ name.toList) : isPart c = true := by
  obtain ⟨d, r, hr, hd, hp⟩ := isIdentifier_iff.1 h
  rw [hr, List.mem_cons] at hc
  rcases hc with rfl | hc
  · simp [isPart, hd]
  · exact hp c hc

/-- A character outside the alphabet of identifiers stands in no identifier. -/
theorem not_mem {name : String} (h : isIdentifier name = true) {c : Char}
    (hc : isPart c = false) : c ∉ name.toList := by
  intro hm
  rw [isPart_of_mem h hm] at hc
  exact Bool.noConfusion hc

theorem isPart_of_isAlphanum {c : Char} (h : c.isAlphanum = true) : isPart c = true := by
  simp only [Char.isAlphanum, Bool.or_eq_true] at h
  rcases h with h | h <;> simp [isPart, isStart, h]

/-- Digits come before all letters. -/
theorem isStart_eq_false_of_isDigit {c : Char} (h : c.isDigit = true) : isStart c = false := by
  rw [isDigit_iff] at h
  have ha : c.isAlpha = false := by
    rw [Bool.eq_false_iff, ne_eq, isAlpha_iff]
    omega
  have h1 : c ≠ '_' := by rintro rfl; exact absurd h.2 (by decide)
  have h2 : c ≠ '.' := by rintro rfl; exact absurd h.1 (by decide)
  simp [isStart, ha, h1, h2]

end Identifier

/-! ## Printable characters -/

/-- A visible ASCII character or a space. -/
def isPrintable (c : Char) : Bool := 0x20 ≤ c.toNat && c.toNat ≤ 0x7E

theorem isPrintable_of_isPart {c : Char} (h : Identifier.isPart c = true) :
    isPrintable c = true := by
  simp only [Identifier.isPart, Identifier.isStart, Bool.or_eq_true, isAlpha_iff, isDigit_iff,
    beq_iff_eq] at h
  have hr : isPrintable c = true ↔ 0x20 ≤ c.toNat ∧ c.toNat ≤ 0x7E := by simp [isPrintable]
  rw [hr]
  rcases h with (((h | rfl) | rfl) | h) | rfl
  · omega
  · decide
  · decide
  · omega
  · decide

theorem isPrintable_identifier {name : String} (h : isIdentifier name = true) :
    name.toList.all isPrintable = true :=
  List.all_eq_true.2 fun _ hc => isPrintable_of_isPart (Identifier.isPart_of_mem h hc)

theorem isPrintable_alphanum {cs : List Char} (h : cs.all Char.isAlphanum = true) :
    cs.all isPrintable = true :=
  List.all_eq_true.2 fun c hc =>
    isPrintable_of_isPart (Identifier.isPart_of_isAlphanum (List.all_eq_true.1 h c hc))

theorem isPrintable_repr (v : Int) : v.repr.toList.all isPrintable = true := by
  refine List.all_eq_true.2 fun c hc => ?_
  rcases Decimal.eq_or_isDigit_of_mem_repr hc with rfl | hc
  · decide
  · exact isPrintable_of_isPart (by simp [Identifier.isPart, hc])

theorem not_mem_of_isAlphanum {cs : List Char} (h : cs.all Char.isAlphanum = true) {c : Char}
    (hc : c.isAlphanum = false) : c ∉ cs := by
  intro hm
  rw [List.all_eq_true.1 h c hm] at hc
  exact Bool.noConfusion hc

/-! ## Mnemonics -/

/-- The mnemonics of a form differ from each other, and consist of letters and digits. -/
class LawfulOperation (α : Type) [Operation α] : Prop where
  find?_mnemonic (op : α) : Operation.find? (Operation.mnemonic op) = some op
  isAlphanum (op : α) : (Operation.mnemonic op).toList.all Char.isAlphanum = true
  ne_nil (op : α) : (Operation.mnemonic op).toList ≠ []

instance : LawfulOperation BareOp :=
  ⟨fun op => by cases op <;> rfl, fun op => by cases op <;> rfl, fun op => by cases op <;> decide⟩

instance : LawfulOperation UnaryOp :=
  ⟨fun op => by cases op <;> rfl, fun op => by cases op <;> rfl, fun op => by cases op <;> decide⟩

instance : LawfulOperation BinaryOp :=
  ⟨fun op => by cases op <;> rfl, fun op => by cases op <;> rfl, fun op => by cases op <;> decide⟩

instance : LawfulOperation ImmediateOp :=
  ⟨fun op => by cases op <;> rfl, fun op => by cases op <;> rfl, fun op => by cases op <;> decide⟩

instance : LawfulOperation LoadOp :=
  ⟨fun op => by cases op <;> rfl, fun op => by cases op <;> rfl, fun op => by cases op <;> decide⟩

instance : LawfulOperation StoreOp :=
  ⟨fun op => by cases op <;> rfl, fun op => by cases op <;> rfl, fun op => by cases op <;> decide⟩

instance : LawfulOperation BranchOp :=
  ⟨fun op => by cases op <;> rfl, fun op => by cases op <;> rfl, fun op => by cases op <;> decide⟩

instance : LawfulOperation SymbolOp :=
  ⟨fun op => by cases op <;> rfl, fun op => by cases op <;> rfl, fun op => by cases op <;> decide⟩

instance : LawfulOperation BasedSymbolOp :=
  ⟨fun op => by cases op <;> rfl, fun op => by cases op <;> rfl, fun op => by cases op <;> decide⟩

namespace Width

/-- Cuts the suffix of a width off a mnemonic. No two suffixes end in the same letter. -/
def unsuffix (stem : List Char) : Option (List Char × Width) :=
  match stem.reverse with
  | 'b' :: r => some (r.reverse, byte)
  | 'w' :: r => some (r.reverse, word)
  | 'l' :: r => some (r.reverse, long)
  | 'q' :: r => some (r.reverse, quad)
  | 's' :: 's' :: r => some (r.reverse, single)
  | 'd' :: 's' :: r => some (r.reverse, double)
  | _ => none

theorem unsuffix_append (cs : List Char) (w : Width) :
    unsuffix (cs ++ w.suffix.toList) = some (cs, w) := by
  cases w <;> simp [unsuffix, suffix]

theorem isAlphanum_suffix (w : Width) : w.suffix.toList.all Char.isAlphanum = true := by
  cases w <;> rfl

end Width

/-- Reads a mnemonic with a width suffix. -/
def readStem (α : Type) [Operation α] (stem : List Char) : Option (α × Width) := do
  let (cs, w) ← Width.unsuffix stem
  let op ← Operation.find? (String.ofList cs)
  return (op, w)

theorem readStem_stem {α : Type} [Operation α] [LawfulOperation α] (op : α) (w : Width) :
    readStem α (Instruction.stem op w).toList = some (op, w) := by
  rw [Instruction.stem, String.toList_append, readStem, Width.unsuffix_append]
  simp [LawfulOperation.find?_mnemonic]

theorem isAlphanum_stem {α : Type} [Operation α] [LawfulOperation α] (op : α) (w : Width) :
    (Instruction.stem op w).toList.all Char.isAlphanum = true := by
  rw [Instruction.stem, String.toList_append, List.all_append, LawfulOperation.isAlphanum,
    Width.isAlphanum_suffix]
  rfl

theorem stem_ne_nil {α : Type} [Operation α] [LawfulOperation α] (op : α) (w : Width) :
    (Instruction.stem op w).toList ≠ [] := by
  rw [Instruction.stem, String.toList_append]
  exact List.append_ne_nil_of_left_ne_nil (LawfulOperation.ne_nil op) _

/-! ## Registers -/

namespace Register

/-- The register of this name whose width has the size of `w`. -/
def named? (name : String) (w : Width) : Option Register :=
  all.find? fun r => r.name == name && r.width.integer == w.integer

/-- The register of this name outside the vector registers. -/
def plain? (name : String) : Option Register :=
  all.find? fun r => r.name == name && !r.isVector

theorem named?_name (r : Register) {w : Width} (h : r.width.integer = w.integer) :
    named? r.name w = some r := by
  have table : ∀ r ∈ all, named? r.name r.width = some r := by decide +kernel
  rw [← table r (mem_all r), named?, named?, h]

theorem plain?_name (r : Register) (h : r.isVector = false) : plain? r.name = some r := by
  have table : ∀ r ∈ all, r.isVector = false → plain? r.name = some r := by decide +kernel
  exact table r (mem_all r) h

theorem isAlphanum_name (r : Register) : r.name.toList.all Char.isAlphanum = true := by
  have table : ∀ r ∈ all, r.name.toList.all Char.isAlphanum = true := by decide +kernel
  exact table r (mem_all r)

end Register

end AttAsm
