import AttAsm.Proofs.Machine
import Mathlib.Logic.Relation

/-!
# Execution

Code is placed at addresses, one for each instruction; labels take no room. A configuration is an
address and a state, and a step executes the instruction at the address. Control goes on to the next
instruction, to the only label of the name that a branch gives, or to the address on the stack.

Main statement: instructions without a jump run through, one after another, with the effect that
they have together (`Placement.reaches_of_effects`).
-/

namespace AttAsm

/-- A label of this name. -/
def Instruction.isLabelOf (name : String) : Instruction → Bool
  | .label s _ _ => s == name
  | _ => false

/-- The position of the only label of a name. -/
def labelIndex? (code : List Instruction) (name : String) : Option Nat :=
  if code.countP (·.isLabelOf name) = 1 then code.findIdx? (·.isLabelOf name) else none

theorem labelIndex?_append {pre post : List Instruction} {name : String} {a : Alignment} {g : Bool}
    (hpre : ∀ i ∈ pre, i.isLabelOf name = false) (hpost : ∀ i ∈ post, i.isLabelOf name = false) :
    labelIndex? (pre ++ .label name a g :: post) name = some pre.length := by
  have hc : (pre ++ .label name a g :: post).countP (·.isLabelOf name) = 1 := by
    rw [List.countP_append, List.countP_cons, List.countP_eq_zero.2 (by simpa using hpre),
      List.countP_eq_zero.2 (by simpa using hpost)]
    simp [Instruction.isLabelOf]
  rw [labelIndex?, if_pos hc, List.findIdx?_append, List.findIdx?_eq_none_iff.2 hpre]
  simp [Instruction.isLabelOf, List.findIdx?_cons]

/-- Addresses for the instructions of a list. -/
structure Placement (t : Target) (code : List Instruction) where
  address : Nat → t.Word
  /-- A label has the address of what follows it. -/
  address_succ : ∀ i, code[i]?.any (·.isLabel) = true → address (i + 1) = address i
  /-- All other instructions have addresses of their own. -/
  address_inj : ∀ i j, code[i]?.any (!·.isLabel) = true → code[j]?.any (!·.isLabel) = true →
    address i = address j → i = j

/-- Where control is, and the state of the machine. -/
structure Config (t : Target) where
  ip : t.Word
  state : State t

namespace Placement

variable {t : Target} {code : List Instruction}

/-- The position of the instruction at an address. -/
def index? (p : Placement t code) (a : t.Word) : Option Nat :=
  (List.range code.length).find? fun i => p.address i == a && code[i]?.any (!·.isLabel)

/-- The instruction at an address. -/
def instruction? (p : Placement t code) (a : t.Word) : Option Instruction :=
  (p.index? a).bind (code[·]?)

/-- The address of the only label of a name. -/
def target? (p : Placement t code) (name : String) : Option t.Word :=
  (labelIndex? code name).map p.address

/-- Executes an instruction in front of the address `next`. -/
def execute (p : Placement t code) (next : t.Word) (s : State t) :
    Instruction → Option (Config t)
  | .bare .ret => some ⟨s.load s.top, s.drop⟩
  | .branch .jmp name => (p.target? name).map (⟨·, s⟩)
  | .branch .jle name => do
    let flags ← s.flags
    if flags.lessOrEqual then (p.target? name).map (⟨·, s⟩) else some ⟨next, s⟩
  | .branch .call name => (p.target? name).map (⟨·, s.push next⟩)
  | i => (s.effect i).map (⟨next, ·⟩)

/-- Executes the instruction that control is at. -/
def step (p : Placement t code) (c : Config t) : Option (Config t) := do
  let i ← p.index? c.ip
  let x ← code[i]?
  p.execute (p.address (i + 1)) c.state x

/-- A number of steps leads from the one configuration to the other. -/
def Reaches (p : Placement t code) : Config t → Config t → Prop :=
  Relation.ReflTransGen fun c d => p.step c = some d

instance (p : Placement t code) : Trans p.Reaches p.Reaches p.Reaches :=
  ⟨Relation.ReflTransGen.trans⟩

/-- Execution comes to a return, which leads to `d`. -/
def Returns (p : Placement t code) (c d : Config t) : Prop :=
  ∃ e, p.Reaches c e ∧ p.instruction? e.ip = some (.bare .ret) ∧ p.step e = some d

/-! ## Steps -/

variable {p : Placement t code} {n : Nat} {x : Instruction} {s s' : State t}

theorem index?_address (p : Placement t code) (h : code[n]? = some x) (hx : x.isLabel = false) :
    p.index? (p.address n) = some n := by
  have hn : code[n]?.any (!·.isLabel) = true := by simp [h, hx]
  have hlt : n < code.length := (List.getElem?_eq_some_iff.1 h).1
  cases hf : p.index? (p.address n) with
  | none =>
    have := List.find?_eq_none.1 hf n (List.mem_range.2 hlt)
    simp [hn] at this
  | some j =>
    have hj := List.find?_some hf
    rw [Bool.and_eq_true, beq_iff_eq] at hj
    rw [p.address_inj j n hj.2 hn hj.1]

theorem instruction?_address (p : Placement t code) (h : code[n]? = some x)
    (hx : x.isLabel = false) : p.instruction? (p.address n) = some x := by
  rw [instruction?, p.index?_address h hx]
  exact h

theorem step_address (p : Placement t code) (h : code[n]? = some x) (hx : x.isLabel = false)
    (s : State t) : p.step ⟨p.address n, s⟩ = p.execute (p.address (n + 1)) s x := by
  simp [step, p.index?_address h hx, h]

/-- Instructions that have an effect lead to the next one. -/
theorem execute_of_effect (p : Placement t code) {next : t.Word} (h : s.effect x = some s') :
    p.execute next s x = some ⟨next, s'⟩ := by
  unfold execute
  split
  case h_5 => rw [h]; rfl
  all_goals cases h

theorem reaches_of_effect (p : Placement t code) (h : code[n]? = some x)
    (he : s.effect x = some s') :
    p.Reaches ⟨p.address n, s⟩ ⟨p.address (n + 1), s'⟩ := by
  cases hx : x.isLabel with
  | true =>
    obtain ⟨_, _, _, rfl⟩ : ∃ name a g, x = .label name a g := by
      cases x <;> first | exact ⟨_, _, _, rfl⟩ | cases hx
    cases he
    rw [p.address_succ n (by rw [h]; rfl)]
    exact .refl
  | false =>
    exact .single ((p.step_address h hx s).trans (p.execute_of_effect he))

/-- Instructions without a jump run through. -/
theorem reaches_of_effects (p : Placement t code) {pre is post : List Instruction}
    (hc : code = pre ++ is ++ post) (he : s.effects is = some s') :
    p.Reaches ⟨p.address pre.length, s⟩ ⟨p.address (pre ++ is).length, s'⟩ := by
  -- Each step moves one instruction from `is` to the end of `pre`.
  induction is generalizing pre s with
  | nil =>
    cases he
    rw [List.append_nil]
    exact .refl
  | cons i is ih =>
    obtain ⟨u, hu, hr⟩ := Option.bind_eq_some_iff.1 (he : (s.effect i).bind _ = _)
    have hi : code[pre.length]? = some i := by simp [hc]
    have hc' : code = pre ++ [i] ++ is ++ post := by simp [hc]
    have hrest := ih hc' hr
    have hl : (pre ++ [i]).length = pre.length + 1 := List.length_append
    rw [List.append_assoc, hl] at hrest
    exact (p.reaches_of_effect hi hu).trans hrest

/-! ## Branches -/

section

variable {pre post : List Instruction} {name : String} {a : t.Word}

theorem target?_append (p : Placement t code) {b : Alignment} {g : Bool}
    (hc : code = pre ++ .label name b g :: post) (hpre : ∀ i ∈ pre, i.isLabelOf name = false)
    (hpost : ∀ i ∈ post, i.isLabelOf name = false) :
    p.target? name = some (p.address pre.length) := by
  subst hc
  rw [target?, labelIndex?_append hpre hpost]
  rfl

theorem step_append (p : Placement t code) (hc : code = pre ++ x :: post)
    (hx : x.isLabel = false) (s : State t) :
    p.step ⟨p.address pre.length, s⟩ = p.execute (p.address (pre ++ [x]).length) s x := by
  rw [p.step_address (by simp [hc]) hx, List.length_append, List.length_singleton]

theorem reaches_jmp (p : Placement t code) (hc : code = pre ++ .branch .jmp name :: post)
    (ha : p.target? name = some a) (s : State t) :
    p.Reaches ⟨p.address pre.length, s⟩ ⟨a, s⟩ := by
  refine .single ((p.step_append hc rfl s).trans ?_)
  show (p.target? name).map _ = _
  rw [ha]
  rfl

theorem reaches_jle (p : Placement t code) (hc : code = pre ++ .branch .jle name :: post)
    (ha : p.target? name = some a) {f : Flags} (hf : s.flags = some f)
    (hle : f.lessOrEqual = true) : p.Reaches ⟨p.address pre.length, s⟩ ⟨a, s⟩ := by
  refine .single ((p.step_append hc rfl s).trans ?_)
  show s.flags.bind _ = _
  rw [hf, Option.bind_some, if_pos hle, ha]
  rfl

theorem reaches_jle_of_not (p : Placement t code) (hc : code = pre ++ .branch .jle name :: post)
    {f : Flags} (hf : s.flags = some f) (hle : f.lessOrEqual = false) :
    p.Reaches ⟨p.address pre.length, s⟩
      ⟨p.address (pre ++ [Instruction.branch .jle name]).length, s⟩ := by
  refine .single ((p.step_append hc rfl s).trans ?_)
  show s.flags.bind _ = _
  rw [hf, Option.bind_some, if_neg (by simp [hle])]

theorem reaches_call (p : Placement t code) (hc : code = pre ++ .branch .call name :: post)
    (ha : p.target? name = some a) (s : State t) :
    p.Reaches ⟨p.address pre.length, s⟩
      ⟨a, s.push (p.address (pre ++ [Instruction.branch .call name]).length)⟩ := by
  refine .single ((p.step_append hc rfl s).trans ?_)
  show (p.target? name).map _ = _
  rw [ha]
  rfl

theorem returns_ret (p : Placement t code) (hc : code = pre ++ .bare .ret :: post) (s : State t) :
    p.Returns ⟨p.address pre.length, s⟩ ⟨s.load s.top, s.drop⟩ :=
  ⟨_, .refl, p.instruction?_address (by simp [hc]) rfl, p.step_append hc rfl s⟩

theorem Reaches.returns {c d e : Config t} (h : p.Reaches c d) (hr : p.Returns d e) :
    p.Returns c e := by
  obtain ⟨f, hf, hi, hs⟩ := hr
  exact ⟨f, h.trans hf, hi, hs⟩

theorem Returns.reaches {c d : Config t} (h : p.Returns c d) : p.Reaches c d := by
  obtain ⟨e, he, -, hs⟩ := h
  exact he.tail hs

end

/-! ## Code that is placed instruction after instruction -/

/-- The instructions other than labels in front of a position. -/
def instructionsBefore (code : List Instruction) (i : Nat) : Nat :=
  (code.take i).countP (!·.isLabel)

theorem instructionsBefore_succ {i : Nat} (h : code[i]? = some x) :
    instructionsBefore code (i + 1) = instructionsBefore code i + if x.isLabel then 0 else 1 := by
  rw [instructionsBefore, List.take_add_one, h, List.countP_append]
  cases hx : x.isLabel <;> simp [instructionsBefore, hx]

theorem instructionsBefore_lt {i j : Nat} (h : code[i]? = some x) (hx : x.isLabel = false)
    (hij : i < j) : instructionsBefore code i < instructionsBefore code j := by
  have hs := instructionsBefore_succ h
  rw [hx] at hs
  have hle : instructionsBefore code (i + 1) ≤ instructionsBefore code j :=
    (List.take_sublist_take_left (by omega)).countP_le
  simp at hs
  omega

/-- Gives the instructions consecutive addresses. -/
def consecutive (t : Target) (code : List Instruction) (h : code.length < 2 ^ t.wordWidth.bits) :
    Placement t code where
  address i := BitVec.ofNat _ (instructionsBefore code i)
  address_succ i hi := by
    cases hx : code[i]? with
    | none => simp [hx] at hi
    | some x =>
      rw [hx, Option.any_some] at hi
      rw [instructionsBefore_succ hx, if_pos hi, Nat.add_zero]
  address_inj i j hi hj ha := by
    have hlt (k : Nat) : instructionsBefore code k < 2 ^ t.wordWidth.bits :=
      lt_of_le_of_lt (List.countP_le_length.trans (List.length_take_le' _ _)) h
    have hn := congrArg BitVec.toNat ha
    rw [BitVec.toNat_ofNat, BitVec.toNat_ofNat, Nat.mod_eq_of_lt (hlt i),
      Nat.mod_eq_of_lt (hlt j)] at hn
    cases hx : code[i]? with
    | none => simp [hx] at hi
    | some x =>
      cases hy : code[j]? with
      | none => simp [hy] at hj
      | some y =>
        simp only [hx, hy, Option.any_some, Bool.not_eq_true'] at hi hj
        rcases Nat.lt_trichotomy i j with hij | hij | hij
        · exact absurd hn (instructionsBefore_lt hx hi hij).ne
        · exact hij
        · exact absurd hn (instructionsBefore_lt hy hj hij).ne'

/-- Short code can be placed. -/
theorem nonempty_of_length_le (t : Target) (h : code.length ≤ 64) : Nonempty (Placement t code) := by
  have := t.two_pow_le
  exact ⟨consecutive t code (by omega)⟩

end Placement

end AttAsm
