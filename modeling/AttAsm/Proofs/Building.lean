import AttAsm.Instruction

/-!
# What can be built

The instructions that the building functions give, and what each of these functions accepts.
-/

namespace AttAsm

namespace Width

/-- A joined width has the size of both widths. -/
theorem integer_of_join? {l r w : Width} (h : l.join? r = some w) :
    l.integer = w.integer ∧ r.integer = w.integer := by
  cases l <;> cases r <;> cases h <;> exact ⟨rfl, rfl⟩

end Width

namespace Instruction

theorem mkLabel_eq_ok_iff {name : String} {n : Nat} {g : Bool} {i : Instruction} :
    mkLabel name n g = .ok i ↔ ∃ h : 0 < n, i = .label name ⟨n, h⟩ g := by
  unfold mkLabel Alignment.ofNat
  by_cases h : 0 < n
  · rw [dif_pos h]
    exact ⟨fun hi => ⟨h, (Except.ok.inj hi).symm⟩, fun ⟨_, hi⟩ => congrArg _ hi.symm⟩
  · rw [dif_neg h]
    exact ⟨nofun, fun ⟨hn, _⟩ => absurd hn h⟩

theorem mkBinary_eq_ok_iff {op : BinaryOp} {l r : Register} {i : Instruction} :
    mkBinary op l r = .ok i ↔ ∃ w, l.width.join? r.width = some w ∧ i = .binary op l r w := by
  have hc := Width.join?_isSome l.width r.width
  unfold mkBinary Width.join
  cases hj : l.width.join? r.width with
  | none =>
    rw [hj] at hc
    rw [← hc]
    exact ⟨nofun, fun ⟨_, hw, _⟩ => nomatch hw⟩
  | some w =>
    rw [hj] at hc
    rw [← hc]
    exact ⟨fun hi => ⟨w, rfl, (Except.ok.inj hi).symm⟩, fun ⟨v, hv, hi⟩ => by
      rw [hi, ← Option.some.inj hv]; rfl⟩

/-- A guard in front of a value. -/
theorem checkImmediate_bind_eq_ok_iff {w : Width} {v : Int} {i j : Instruction} :
    (do w.checkImmediate v; return j) = Except.ok i ↔ w.holds v = true ∧ i = j := by
  rw [← Width.checkImmediate_eq_ok_iff]
  cases w.checkImmediate v with
  | ok u => exact ⟨fun hi => ⟨rfl, (Except.ok.inj hi).symm⟩, fun hi => congrArg _ hi.2.symm⟩
  | error e => exact ⟨nofun, fun hi => nomatch hi.1⟩

theorem checkImmediate_bind_of_not_holds {w : Width} {v : Int} (h : ¬ w.holds v = true)
    (i : Instruction) :
    (do w.checkImmediate v; return i) = Except.error (.immediateOutOfRange v w w.low w.high) := by
  rw [Width.checkImmediate, if_neg h]
  rfl

theorem mkImmediate_eq_ok_iff {op : ImmediateOp} {v : Int} {t : Register} {i : Instruction} :
    mkImmediate op v t = .ok i ↔ t.width.holds v = true ∧ i = .immediate op v t :=
  checkImmediate_bind_eq_ok_iff

theorem mkLoad_eq_ok_iff {op : LoadOp} {v : Int} {b t : Register} {i : Instruction} :
    mkLoad op v b t = .ok i ↔ t.width.holds v = true ∧ i = .load op v b t :=
  checkImmediate_bind_eq_ok_iff

theorem mkStore_eq_ok_iff {op : StoreOp} {s : Register} {v : Int} {b : Register}
    {i : Instruction} :
    mkStore op s v b = .ok i ↔ s.width.holds v = true ∧ i = .store op s v b :=
  checkImmediate_bind_eq_ok_iff

/-- The instructions that the building functions give. -/
inductive Built : Instruction → Prop
  | localLabel (name : String) : Built (localLabel name)
  | label {name : String} {n : Nat} {g : Bool} {i : Instruction} (h : mkLabel name n g = .ok i) :
    Built i
  | bare (op : BareOp) : Built (bare op)
  | unary (op : UnaryOp) (r : Register) : Built (unary op r)
  | binary {op : BinaryOp} {l r : Register} {i : Instruction} (h : mkBinary op l r = .ok i) :
    Built i
  | immediate {op : ImmediateOp} {v : Int} {t : Register} {i : Instruction}
    (h : mkImmediate op v t = .ok i) : Built i
  | load {op : LoadOp} {v : Int} {b t : Register} {i : Instruction} (h : mkLoad op v b t = .ok i) :
    Built i
  | store {op : StoreOp} {s : Register} {v : Int} {b : Register} {i : Instruction}
    (h : mkStore op s v b = .ok i) : Built i
  | branch (op : BranchOp) (a : String) : Built (branch op a)
  | symbol (op : SymbolOp) (a : String) (t : Register) : Built (symbol op a t)
  | basedSymbol (op : BasedSymbolOp) (a : String) (b t : Register) : Built (basedSymbol op a b t)

/-- An instruction on two registers is built with their joined width. -/
theorem Built.join? {op : BinaryOp} {l r : Register} {w : Width} (h : Built (.binary op l r w)) :
    l.width.join? r.width = some w := by
  cases h with
  | label h => obtain ⟨_, h⟩ := mkLabel_eq_ok_iff.1 h; cases h
  | binary h => obtain ⟨_, hj, h⟩ := mkBinary_eq_ok_iff.1 h; cases h; exact hj
  | immediate h => cases (mkImmediate_eq_ok_iff.1 h).2
  | load h => cases (mkLoad_eq_ok_iff.1 h).2
  | store h => cases (mkStore_eq_ok_iff.1 h).2

end Instruction

end AttAsm
