import Mathlib.Data.BitVec

/-!
# Memory

A byte at each address. Addresses wrap around, and a number of several bytes stands with its lowest
byte first. A number that was written is read back (`Memory.number_write`), and writing leaves the
numbers that stand apart from it as they were (`Memory.number_write_of_apart`).
-/

namespace AttAsm

/-- A byte at each address of `n` bits. -/
abbrev Memory (n : Nat) : Type := BitVec n → BitVec 8

namespace Memory

variable {n : Nat}

/-- The number in `k` bytes from an address on. -/
def number (m : Memory n) : Nat → BitVec n → Nat
  | 0, _ => 0
  | k + 1, a => (m a).toNat + 256 * m.number k (a + 1)

/-- Writes a number into `k` bytes from `a` on. -/
def write (m : Memory n) (a : BitVec n) (k v : Nat) : Memory n := fun b =>
  if (b - a).toNat < k then BitVec.ofNat 8 (v / 256 ^ (b - a).toNat) else m b

/-- The `k` bytes from `a` and the `k` bytes from `b` have none in common. -/
def Apart (k : Nat) (a b : BitVec n) : Prop :=
  ∀ x, (x - a).toNat < k → k ≤ (x - b).toNat

/-! ## Reading -/

theorem add_one_add_ofNat (a : BitVec n) (i : Nat) :
    a + 1 + BitVec.ofNat n i = a + BitVec.ofNat n (i + 1) := by
  rw [BitVec.ofNat_add, BitVec.add_assoc, BitVec.add_comm 1 _]
  rfl

theorem number_congr {m m' : Memory n} {k : Nat} {a : BitVec n}
    (h : ∀ i < k, m (a + BitVec.ofNat n i) = m' (a + BitVec.ofNat n i)) :
    m.number k a = m'.number k a := by
  induction k generalizing a with
  | zero => rfl
  | succ k ih =>
    have h0 : m a = m' a := by simpa using h 0 (by omega)
    have hr : m.number k (a + 1) = m'.number k (a + 1) := ih fun i hi => by
      rw [add_one_add_ofNat]
      exact h (i + 1) (by omega)
    rw [number, number, h0, hr]

/-- The bytes of a number make it up, as far as they go. -/
theorem number_of_bytes {m : Memory n} {k v : Nat} {a : BitVec n}
    (h : ∀ i < k, m (a + BitVec.ofNat n i) = BitVec.ofNat 8 (v / 256 ^ i)) :
    m.number k a = v % 256 ^ k := by
  induction k generalizing a v with
  | zero => rw [number, pow_zero, Nat.mod_one]
  | succ k ih =>
    have h0 : m a = BitVec.ofNat 8 v := by simpa using h 0 (by omega)
    have hr : m.number k (a + 1) = v / 256 % 256 ^ k := ih fun i hi => by
      rw [add_one_add_ofNat, h (i + 1) (by omega), Nat.div_div_eq_div_mul, ← pow_succ']
    rw [pow_succ', Nat.mod_mul, number, h0, hr, BitVec.toNat_ofNat]

/-! ## Reading what was written -/

theorem toNat_add_ofNat_sub (a : BitVec n) {i : Nat} (hi : i < 2 ^ n) :
    (a + BitVec.ofNat n i - a).toNat = i := by
  rw [BitVec.add_comm, BitVec.add_sub_cancel, BitVec.toNat_ofNat, Nat.mod_eq_of_lt hi]

theorem number_write (m : Memory n) (a : BitVec n) {k : Nat} (hk : k ≤ 2 ^ n) (v : Nat) :
    (m.write a k v).number k a = v % 256 ^ k :=
  number_of_bytes fun i hi => by
    rw [write, toNat_add_ofNat_sub a (by omega), if_pos hi]

theorem write_of_le {m : Memory n} {a b : BitVec n} {k v : Nat} (h : k ≤ (b - a).toNat) :
    m.write a k v b = m b := if_neg (by omega)

theorem number_write_of_apart {m : Memory n} {a b : BitVec n} {k v : Nat} (h : Apart k b a)
    (hk : k ≤ 2 ^ n) : (m.write a k v).number k b = m.number k b :=
  number_congr fun i hi => write_of_le (h _ (by rwa [toNat_add_ofNat_sub b (by omega)]))

/-! ## Standing apart -/

theorem Apart.symm {k : Nat} {a b : BitVec n} (h : Apart k a b) : Apart k b a := by
  intro x hx
  by_contra hlt
  exact absurd (h x (by omega)) (by omega)

/-- Two places stand apart when the way from one to the other, around the end of memory too, is
long enough. -/
theorem apart_of_sub_eq {k e : Nat} {a b : BitVec n} (he : b - a = BitVec.ofNat n e) (hk : k ≤ e)
    (hn : e + k ≤ 2 ^ n) : Apart k a b := by
  intro x hx
  have hd : x - b = x - a - BitVec.ofNat n e := by rw [← he, sub_sub_sub_cancel_right]
  rw [hd, BitVec.toNat_sub, BitVec.toNat_ofNat]
  -- A way of the whole length of memory leaves no room for any byte.
  by_cases hz : e = 2 ^ n
  · have hk0 : k = 0 := by omega
    omega
  · rw [Nat.mod_eq_of_lt (show e < 2 ^ n by omega), Nat.mod_eq_of_lt (by omega)]
    omega

end Memory

end AttAsm
