import AttAsm.Program
import AttAsm.Proofs.Frames
import Mathlib.Data.Nat.Factorial.Basic

/-!
# The factorial function

The code of `Program.factorialFunction` computes factorials of words, on every target and wherever
it is placed. One turn of its loop multiplies the product by the counter and counts down
(`Program.Looping.reaches_turn`), so that the product times the factorial of the counter stays the
same until the counter is at most one (`Program.Looping.reaches_done`).
-/

namespace AttAsm

/-! ## Factorials of words -/

/-- The factorial of a word that is read as signed; it is one for words below one. -/
def wordFactorial {n : Nat} (x : BitVec n) : BitVec n :=
  if x.toInt ≤ 1 then 1 else BitVec.ofNat n x.toInt.toNat.factorial

section

variable {n : Nat} {x : BitVec n}

theorem wordFactorial_of_pos (h : 0 < x.toInt) :
    wordFactorial x = BitVec.ofNat n x.toInt.toNat.factorial := by
  unfold wordFactorial
  split_ifs with h1
  · rw [show x.toInt.toNat = 1 by omega]
    rfl
  · rfl

theorem toInt_sub_one (h : 1 < x.toInt) : (x - 1).toInt = x.toInt - 1 := by
  have hx := x.toInt_eq_toNat_cond
  have hlt := x.isLt
  have hs : 2 * x.toNat < 2 ^ n := by
    by_contra hge
    rw [if_neg hge] at hx
    omega
  rw [if_pos hs] at hx
  have h1 : (1 : BitVec n).toNat = 1 :=
    (BitVec.toNat_ofNat 1 n).trans (Nat.mod_eq_of_lt (by omega))
  have hd : (x - 1).toNat = x.toNat - 1 := by
    rw [BitVec.toNat_sub_of_le (by rw [BitVec.le_def, h1]; omega), h1]
  rw [BitVec.toInt_eq_toNat_cond, hd, if_pos (by omega)]
  omega

theorem mul_wordFactorial_sub_one (h : 1 < x.toInt) :
    x * wordFactorial (x - 1) = wordFactorial x := by
  have hx : x = BitVec.ofNat n x.toInt.toNat := by
    rw [← BitVec.ofInt_natCast, Int.toNat_of_nonneg (by omega), BitVec.ofInt_toInt]
  rw [wordFactorial_of_pos (by rw [toInt_sub_one h]; omega), wordFactorial_of_pos (by omega),
    toInt_sub_one h, ← Nat.mul_factorial_pred (show x.toInt.toNat ≠ 0 by omega),
    BitVec.ofNat_mul, ← hx, show (x.toInt - 1).toNat = x.toInt.toNat - 1 by omega]

end

/-- A function's first argument, in the state that the function is entered with. -/
def State.firstArgument {t : Target} (s : State t) : t.Word :=
  match t.convention with
  | .sysV => s.registers (.pointer .di)
  | .win64 => s.registers (.general .c)
  | .cdecl => s.load (s.top + t.wordStep)

namespace Program

/-! ## The code -/

/-- The register that counts down. -/
def counter (t : Target) : Register :=
  match t.arch with
  | .bits64 => .rcx
  | .bits32 => ⟨.general .c, .long, by decide⟩

theorem whole_counter (t : Target) : t.Whole (counter t) (.general .c) := by
  obtain ⟨_, _ | _⟩ := t <;> exact ⟨rfl, rfl, rfl⟩

/-- Brings the first argument into the counter. -/
def fetch (t : Target) : List Instruction :=
  match t.convention with
  | .sysV => [.binary .mov .rdi (counter t) t.wordWidth]
  | .win64 => []
  | .cdecl => [.load .mov (t.stackArgumentOffset 0) t.framePointer (counter t)]

/-- The code in front of the loop. -/
def opening (t : Target) (name : String) : List Instruction :=
  .label name ⟨16, by decide⟩ false :: (t.frame (t.frameSize 0) ++ fetch t
    ++ [.immediate .mov 1 t.returnRegister])

/-- The start of the loop. -/
def test (t : Target) (name : String) : List Instruction :=
  [.localLabel (loopLabel name), .immediate .cmp 1 (counter t)]

/-- The body of the loop. -/
def body (t : Target) : List Instruction :=
  [.binary .imul (counter t) t.returnRegister t.wordWidth, .unary .dec (counter t)]

/-- The loop. -/
def loop (t : Target) (name : String) : List Instruction :=
  test t name ++ .branch .jle (doneLabel name) :: (body t ++ [.branch .jmp (loopLabel name)])

/-- The whole function. -/
def factorialCode (t : Target) (name : String) : List Instruction :=
  opening t name ++ loop t name ++ .localLabel (doneLabel name) :: Target.epilogue

theorem result_factorialFunction (t : Target) (name : String) :
    (factorialFunction t name).result = .ok ⟨factorialCode t name⟩ := by
  obtain ⟨_ | _ | _, _ | _⟩ := t <;> rfl

theorem length_factorialCode (t : Target) (name : String) :
    (factorialCode t name).length ≤ 64 := by
  obtain ⟨_ | _ | _, _ | _⟩ := t <;> exact Nat.le_of_ble_eq_true rfl

/-! ## Labels -/

theorem loopLabel_ne (name : String) : loopLabel name ≠ name := by
  intro h
  have hl := congrArg String.length h
  rw [loopLabel, String.length_append, String.length_append, show ".L".length = 2 from rfl] at hl
  omega

theorem doneLabel_ne (name : String) : doneLabel name ≠ name := by
  intro h
  have hl := congrArg String.length h
  rw [doneLabel, String.length_append, String.length_append, show ".L".length = 2 from rfl] at hl
  omega

/-- A local label gives back its name and its ending, among endings of one length. -/
theorem localName_inj {m n e f : String} (hl : e.length = f.length)
    (h : ".L" ++ m ++ e = ".L" ++ n ++ f) : m = n ∧ e = f := by
  have hchars := congrArg String.toList h
  rw [String.toList_append, String.toList_append, String.toList_append, String.toList_append]
    at hchars
  rw [← String.length_toList, ← String.length_toList] at hl
  obtain ⟨hfront, hend⟩ := List.append_inj' hchars hl
  exact ⟨String.toList_inj.1 (List.append_cancel_left hfront), String.toList_inj.1 hend⟩

theorem doneLabel_ne_loopLabel (m n : String) : doneLabel m ≠ loopLabel n := by
  intro h
  have hl : "_done".length = "_loop".length := by decide
  have hend : "_done" = "_loop" := (localName_inj hl h).2
  exact absurd hend (by decide)

theorem isLabelOf_fetch {t : Target} {label : String} :
    ∀ i ∈ fetch t, i.isLabelOf label = false := by
  unfold fetch
  split <;> simp [Instruction.isLabelOf]

/-- Only the first instruction in front of the loop is a label. -/
theorem isLabelOf_opening {t : Target} {name label : String} (h : label ≠ name) :
    ∀ i ∈ opening t name, i.isLabelOf label = false := by
  have hs : Instruction.isLabelOf label (.label name ⟨16, by decide⟩ false) = false :=
    beq_eq_false_iff_ne.2 h.symm
  refine List.forall_mem_cons.2 ⟨hs, List.forall_mem_append.2 ⟨List.forall_mem_append.2
    ⟨Target.isLabelOf_frame, isLabelOf_fetch⟩, List.forall_mem_singleton.2 rfl⟩⟩

/-- Behind the first instruction, the function has the labels of its loop only. -/
theorem isLabelOf_tail {t : Target} {name label : String} (hl : label ≠ loopLabel name)
    (hd : label ≠ doneLabel name) :
    ∀ i ∈ (factorialCode t name).tail, i.isLabelOf label = false := by
  have he : (factorialCode t name).tail = t.frame (t.frameSize 0) ++ fetch t
      ++ [.immediate .mov 1 t.returnRegister] ++ loop t name
      ++ .localLabel (doneLabel name) :: Target.epilogue := rfl
  rw [he]
  refine List.forall_mem_append.2 ⟨List.forall_mem_append.2 ⟨List.forall_mem_append.2
    ⟨List.forall_mem_append.2 ⟨Target.isLabelOf_frame, isLabelOf_fetch⟩, ?_⟩, ?_⟩, ?_⟩ <;>
    simp [loop, test, body, Target.epilogue, Instruction.localLabel, Instruction.isLabelOf,
      hl.symm, hd.symm]

/-! ## The loop -/

section

variable {t : Target} {code pre post : List Instruction} {name : String} {s : State t}

theorem toInt_ofInt_one (t : Target) : (BitVec.ofInt t.wordWidth.bits 1).toInt = 1 := by
  obtain ⟨_, _ | _⟩ := t <;> rfl

/-- The comparison at the loop's start. -/
theorem effects_test (s : State t) :
    s.effects (test t name) = some { s with
      flags := some (.ofSub (s.registers (.general .c)) (BitVec.ofInt _ 1)) } := by
  rw [test, State.effects_cons rfl,
    State.effects_cons (State.effect_cmp_immediate (whole_counter t) s), State.effects_nil]

/-- `u` differs from `s` at most in the product, the counter and the flags. -/
structure Counts (s u : State t) : Prop where
  memory : u.memory = s.memory
  registers : ∀ f, f ≠ .general .a → f ≠ .general .c → u.registers f = s.registers f

theorem effects_body (s : State t) :
    ∃ u, s.effects (body t) = some u ∧ Counts s u ∧
      u.registers (.general .a) = s.registers (.general .a) * s.registers (.general .c) ∧
      u.registers (.general .c) = s.registers (.general .c) - 1 := by
  rw [body, State.effects_cons (State.effect_imul (whole_counter t) t.whole_returnRegister s),
    State.effects_cons (State.effect_dec (whole_counter t) _), State.effects_nil]
  refine ⟨_, rfl, ⟨rfl, fun f ha hc => ?_⟩, ?_, ?_⟩ <;> simp [*]

/-- The loop, in code where its labels can be found. -/
structure Looping (p : Placement t code) (name : String) (pre post : List Instruction) : Prop where
  code_eq : code = pre ++ loop t name ++ post
  target_loop : p.target? (loopLabel name) = some (p.address pre.length)
  target_done : p.target? (doneLabel name) = some (p.address (pre ++ loop t name).length)

variable {p : Placement t code}

/-- The comparison at the loop's start decides between a turn and the end. -/
theorem lessOrEqual_test (s : State t) :
    (Flags.ofSub (s.registers (.general .c)) (BitVec.ofInt _ 1)).lessOrEqual =
      decide ((s.registers (.general .c)).toInt ≤ 1) := by
  rw [Flags.lessOrEqual_ofSub, toInt_ofInt_one]

/-- A counter of at most one ends the loop. -/
theorem Looping.reaches_done_of_le (h : Looping p name pre post)
    (hle : (s.registers (.general .c)).toInt ≤ 1) :
    ∃ fl, p.Reaches ⟨p.address pre.length, s⟩
      ⟨p.address (pre ++ loop t name).length, { s with flags := fl }⟩ := by
  have hc : code = pre ++ test t name ++
      .branch .jle (doneLabel name) :: (body t ++ [.branch .jmp (loopLabel name)] ++ post) := by
    simp [h.code_eq, loop]
  have hend := (lessOrEqual_test s).trans (decide_eq_true hle)
  exact ⟨_, (p.reaches_of_effects hc (effects_test s)).trans
    (p.reaches_jle hc h.target_done rfl hend)⟩

/-- With a greater counter one turn leads back to the loop's start. -/
theorem Looping.reaches_turn (h : Looping p name pre post)
    (hlt : 1 < (s.registers (.general .c)).toInt) :
    ∃ u, p.Reaches ⟨p.address pre.length, s⟩ ⟨p.address pre.length, u⟩ ∧ Counts s u ∧
      u.registers (.general .a) = s.registers (.general .a) * s.registers (.general .c) ∧
      u.registers (.general .c) = s.registers (.general .c) - 1 := by
  have hc : code = pre ++ test t name ++
      .branch .jle (doneLabel name) :: (body t ++ [.branch .jmp (loopLabel name)] ++ post) := by
    simp [h.code_eq, loop]
  have hb : code = pre ++ test t name ++ [.branch .jle (doneLabel name)] ++ body t ++
      .branch .jmp (loopLabel name) :: post := by
    simp [h.code_eq, loop]
  have hgo := (lessOrEqual_test s).trans (decide_eq_false (by omega))
  obtain ⟨u, hu, hs, ha, hcount⟩ := effects_body { s with
    flags := some (.ofSub (s.registers (.general .c)) (BitVec.ofInt _ 1)) }
  refine ⟨u, ?_, ⟨hs.memory, hs.registers⟩, ha, hcount⟩
  calc p.Reaches _ _ := p.reaches_of_effects hc (effects_test s)
    p.Reaches _ _ := p.reaches_jle_of_not hc rfl hgo
    p.Reaches _ _ := p.reaches_of_effects hb hu
    p.Reaches _ _ := p.reaches_jmp hb h.target_loop u

/-- The loop multiplies the product by the factorial of the counter. -/
theorem Looping.reaches_done (h : Looping p name pre post) (s : State t) :
    ∃ u, p.Reaches ⟨p.address pre.length, s⟩ ⟨p.address (pre ++ loop t name).length, u⟩ ∧
      Counts s u ∧ u.registers (.general .a) =
        s.registers (.general .a) * wordFactorial (s.registers (.general .c)) := by
  -- Induction on the counter; a turn keeps the product of product and factorial.
  induction hm : (s.registers (.general .c)).toInt.toNat using Nat.strong_induction_on
    generalizing s with
  | _ m ih =>
    by_cases hle : (s.registers (.general .c)).toInt ≤ 1
    · obtain ⟨fl, hr⟩ := h.reaches_done_of_le hle
      refine ⟨_, hr, ⟨rfl, fun _ _ _ => rfl⟩, ?_⟩
      rw [wordFactorial, if_pos hle, mul_one]
    · have hlt : 1 < (s.registers (.general .c)).toInt := by omega
      obtain ⟨v, hv, hs, ha, hc⟩ := h.reaches_turn hlt
      have hcount : (v.registers (.general .c)).toInt.toNat < m := by
        rw [hc, toInt_sub_one hlt]
        omega
      obtain ⟨u, hu, hvu, hua⟩ := ih _ hcount v rfl
      refine ⟨u, hv.trans hu, ⟨hvu.memory.trans hs.memory, fun f hfa hfc => ?_⟩, ?_⟩
      · rw [hvu.registers f hfa hfc, hs.registers f hfa hfc]
      · rw [hua, ha, hc, mul_assoc, mul_wordFactorial_sub_one hlt]

/-! ## In front of the loop -/

theorem whole_rdi (h : t.convention = .sysV) : t.Whole .rdi (.pointer .di) := by
  obtain ⟨_ | _ | _, _ | _⟩ := t <;> first | exact ⟨rfl, rfl, rfl⟩ | cases h

/-- The first argument on the stack, seen from the frame pointer. -/
theorem stackArgumentOffset_zero (h : t.convention = .cdecl) :
    t.stackArgumentOffset 0 = t.wordBytes + t.wordBytes := by
  have hs : t.shadowSpace = 0 := by rw [Target.shadowSpace, h]
  rw [Target.stackArgumentOffset, Target.linkBytes, hs]
  omega

theorem effects_fetch (s : State t) (size : Nat) (fl : Option Flags) :
    ∃ u, State.effects { s.enter size with flags := fl } (fetch t) = some u ∧
      u.memory = (s.enter size).memory ∧
      (∀ f, f ≠ .general .c → u.registers f = (s.enter size).registers f) ∧
      u.registers (.general .c) = s.firstArgument := by
  cases hcv : t.convention with
  | sysV =>
    have he := State.effect_mov (w := t.wordWidth) (whole_rdi hcv) (whole_counter t)
      { s.enter size with flags := fl }
    rw [fetch, State.firstArgument, hcv]
    refine ⟨_, (State.effects_cons he).trans rfl, rfl, fun f hf => ?_, ?_⟩
    · rw [State.registers_assign, if_neg hf]
    · rw [State.registers_assign, if_pos rfl]
      exact s.registers_enter_of_ne size (f := .pointer .di) (by decide) (by decide)
  | win64 =>
    rw [fetch, State.firstArgument, hcv]
    exact ⟨_, rfl, rfl, fun _ _ => rfl,
      s.registers_enter_of_ne size (f := .general .c) (by decide) (by decide)⟩
  | cdecl =>
    have he := State.effect_load (v := t.stackArgumentOffset 0) t.whole_framePointer
      (whole_counter t) { s.enter size with flags := fl }
    rw [fetch, State.firstArgument, hcv]
    refine ⟨_, (State.effects_cons he).trans rfl, rfl, fun f hf => ?_, ?_⟩
    · rw [State.registers_assign, if_neg hf]
    -- Two words above the frame pointer is one above the stack pointer at the entry.
    · have ha : (s.enter size).registers (.pointer .bp) +
          BitVec.ofInt _ (t.stackArgumentOffset 0) = s.top + t.wordStep := by
        rw [s.registers_enter, if_neg (by decide), if_pos rfl, BitVec.ofInt_natCast,
          stackArgumentOffset_zero hcv, BitVec.ofNat_add]
        exact sub_add_add_cancel ..
      rw [State.registers_assign, if_pos rfl, ha]
      exact s.load_enter_above size

/-- In front of the loop the function sets up its frame, the counter and the product. -/
theorem effects_opening (s : State t) (name : String) :
    ∃ u, s.effects (opening t name) = some u ∧ s.Inside u ∧
      u.memory = (s.push s.base).memory ∧
      (∀ f, f ∉ [.general .a, .general .c, .pointer .sp, .pointer .bp] →
        u.registers f = s.registers f) ∧
      u.registers (.general .a) = 1 ∧ u.registers (.general .c) = s.firstArgument := by
  obtain ⟨fl, hframe⟩ := s.effects_frame (t.frameSize 0)
  obtain ⟨v, hv, hm, hr, hc⟩ := effects_fetch s (t.frameSize 0) fl
  have hone : v.effects [.immediate .mov 1 t.returnRegister] =
      some (v.assign (.general .a) 1) := by
    rw [State.effects_cons (State.effect_mov_immediate t.whole_returnRegister v),
      State.effects_nil]
    rfl
  refine ⟨v.assign (.general .a) 1, ?_, ?_, hm, fun f hf => ?_, ?_, ?_⟩
  · rw [opening, State.effects_cons rfl, State.effects_append (State.effects_append hframe ▸ hv),
      hone]
  · refine (s.inside_enter (t.frameSize 0) fl).of_memory_eq ?_ hm
    rw [State.base, State.registers_assign, if_neg (by decide), hr _ (by decide)]
    rfl
  · simp only [List.mem_cons, List.not_mem_nil, or_false, not_or] at hf
    rw [State.registers_assign, if_neg hf.1, hr f hf.2.1,
      s.registers_enter_of_ne _ hf.2.2.1 hf.2.2.2]
  · rw [State.registers_assign, if_pos rfl]
  · rw [State.registers_assign, if_neg (by decide), hc]

/-! ## The whole function -/

/-- Other code does not have the labels of the function's loop. -/
def LabelsFree (name : String) (code : List Instruction) : Prop :=
  ∀ i ∈ code, i.isLabelOf (loopLabel name) = false ∧ i.isLabelOf (doneLabel name) = false

/-- The loop's labels are found, whatever code without them follows the function. -/
theorem looping {rest : List Instruction} (hc : code = factorialCode t name ++ rest)
    (hrest : LabelsFree name rest) (p : Placement t code) :
    Looping p name (opening t name) (.localLabel (doneLabel name) :: Target.epilogue ++ rest) where
  code_eq := by simp [hc, factorialCode]
  target_loop := by
    have hl : code = opening t name ++ .label (loopLabel name) .one false ::
        ((loop t name).tail ++ .localLabel (doneLabel name) :: Target.epilogue ++ rest) := by
      simp [hc, factorialCode, loop, test, Instruction.localLabel]
    refine p.target?_append hl (isLabelOf_opening (loopLabel_ne name))
      (List.forall_mem_append.2 ⟨?_, fun i hi => (hrest i hi).1⟩)
    simp [loop, test, body, Target.epilogue, Instruction.localLabel, Instruction.isLabelOf,
      doneLabel_ne_loopLabel]
  target_done := by
    have hl : code = opening t name ++ loop t name ++ .label (doneLabel name) .one false ::
        (Target.epilogue ++ rest) := by
      simp [hc, factorialCode, Instruction.localLabel]
    refine p.target?_append hl
      (List.forall_mem_append.2 ⟨isLabelOf_opening (doneLabel_ne name), ?_⟩)
      (List.forall_mem_append.2 ⟨?_, fun i hi => (hrest i hi).2⟩)
    · simp [loop, test, body, Instruction.localLabel, Instruction.isLabelOf,
        (doneLabel_ne_loopLabel name name).symm]
    · simp [Target.epilogue, Instruction.isLabelOf]

/-- What a call of the function changes, from the state that it is entered with. -/
structure Computes (s u : State t) : Prop where
  result : u.registers (.general .a) = wordFactorial s.firstArgument
  top : u.top = s.top + t.wordStep
  registers : ∀ f, f ∉ [.general .a, .general .c, .pointer .sp] → u.registers f = s.registers f
  memory : ∀ b, t.wordBytes ≤ (b - (s.top - t.wordStep)).toNat → u.memory b = s.memory b

/-- The function returns with the factorial of its argument, whatever code without its labels
follows it. -/
theorem returns_factorialCode {rest : List Instruction} (hc : code = factorialCode t name ++ rest)
    (hrest : LabelsFree name rest) (p : Placement t code) (s : State t) :
    ∃ u, p.Returns ⟨p.address 0, s⟩ ⟨s.load s.top, u⟩ ∧ Computes s u := by
  have hl := looping hc hrest p
  obtain ⟨v, hv, hin, hm, hr, ha, hcount⟩ := effects_opening s name
  obtain ⟨u, hu, hvu, hprod⟩ := hl.reaches_done v
  have hin' : s.Inside u :=
    hin.of_memory_eq (hvu.registers _ (by decide) (by decide)) hvu.memory
  have hopen : code = [] ++ opening t name ++
      (loop t name ++ .localLabel (doneLabel name) :: Target.epilogue ++ rest) := by
    simp [hc, factorialCode]
  have hdone : code = opening t name ++ loop t name ++ [.localLabel (doneLabel name)] ++
      (Target.epilogue ++ rest) := by
    simp [hc, factorialCode]
  have hlabel := p.reaches_of_effects (s := u) hdone (State.effects_cons rfl)
  refine ⟨u.leave.drop, ?_, ?_, ?_, fun f hf => ?_, fun b hb => ?_⟩
  · have hreach := calc
      p.Reaches ⟨p.address 0, s⟩ _ := p.reaches_of_effects hopen hv
      p.Reaches _ _ := hu
      p.Reaches _ _ := hlabel
    exact hreach.returns (p.returns_epilogue (hdone.trans (List.append_assoc ..).symm) hin')
  · rw [hin'.registers_leave_drop, if_neg (by decide), if_neg (by decide), hprod, ha, hcount,
      one_mul]
  · rw [State.top, hin'.registers_leave_drop, if_pos rfl]
  · simp only [List.mem_cons, List.not_mem_nil, or_false, not_or] at hf
    rw [hin'.registers_leave_drop, if_neg hf.2.2]
    by_cases hbp : f = .pointer .bp
    · rw [if_pos hbp, hbp, State.base]
    · rw [if_neg hbp, hvu.registers f hf.1 hf.2.1, hr f (by simp [hf, hbp])]
  · show u.memory b = s.memory b
    rw [hvu.memory, hm]
    exact Memory.write_of_le hb

end

/-- The factorial function returns, on every target, under every name, wherever its code stands and
from every state. The return register then holds the factorial of the first argument, control is at
the return address and the stack pointer above it; no other register changes than the counter, and
no other word of memory than the one below the stack. -/
theorem factorialFunction_returns (t : Target) (name : String) :
    ∃ code : Code, (factorialFunction t name).result = .ok code ∧
      Nonempty (Placement t code.instructions) ∧
      ∀ (p : Placement t code.instructions) (s : State t), ∃ u : State t,
        p.Returns ⟨p.address 0, s⟩ ⟨s.load s.top, u⟩ ∧
        u.get t.returnRegister = wordFactorial s.firstArgument ∧
        u.get t.stackPointer = s.get t.stackPointer + t.wordStep ∧
        (∀ f : Family, f.isStored = true →
          f ∉ [t.returnRegister.family, .general .c, t.stackPointer.family] →
          u.registers f = s.registers f) ∧
        ∀ b : t.Word, t.wordBytes ≤ (b - (s.top - t.wordStep)).toNat →
          u.memory b = s.memory b := by
  refine ⟨_, result_factorialFunction t name,
    Placement.nonempty_of_length_le t (length_factorialCode t name), fun p s => ?_⟩
  have hc : factorialCode t name = factorialCode t name ++ [] := (List.append_nil _).symm
  obtain ⟨u, hu, h⟩ := returns_factorialCode hc (fun _ hi => nomatch hi) p s
  refine ⟨u, hu, ?_, ?_, fun f _ hf => h.registers f ?_, h.memory⟩
  · rw [State.get_of_whole t.whole_returnRegister, h.result]
  · rw [State.get_of_whole t.whole_stackPointer, State.get_of_whole t.whole_stackPointer]
    exact h.top
  · rwa [t.whole_returnRegister.family, t.whole_stackPointer.family] at hf

end Program

end AttAsm
