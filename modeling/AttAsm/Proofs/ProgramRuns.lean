import AttAsm.Proofs.FactorialFunction

/-!
# Running the programs

The programs that return a code and a factorial, run from `main`. Caller and callee agree on where
the argument is (`Program.effects_passing`), and the function that is called leaves the frame of
`main` alone (`Program.Computes.load_above`). Main statement: `Program.programs_return`.
-/

namespace AttAsm

namespace Program

/-! ## The code -/

/-- The label at which a program starts. -/
def mainLabel (t : Target) : Instruction :=
  .label (t.symbol "main") ⟨entryAlignment t, by unfold entryAlignment; split <;> decide⟩ true

theorem entry_eq (t : Target) : entry t = .ok (mainLabel t) := by
  obtain ⟨_, _ | _⟩ := t <;> rfl

/-- The low half of the return register. -/
def lowReturn : Register := .eax

theorem giveBack_eq (t : Target) (n : Int32) :
    giveBack t n.toInt = .ok (.immediate .mov n.toInt lowReturn) := by
  have h : Instruction.mkImmediate .mov n.toInt lowReturn =
      .ok (.immediate .mov n.toInt lowReturn) :=
    Instruction.mkImmediate_eq_ok_iff.2 ⟨Width.holds_int32 (by decide) n, rfl⟩
  obtain ⟨_, _ | _⟩ := t <;> exact h

/-- The code of the program that returns `n`. -/
def exitCode (t : Target) (n : Int32) : List Instruction :=
  mainLabel t :: (t.frame (t.frameSize 0) ++ [.immediate .mov n.toInt lowReturn]
    ++ Target.epilogue)

/-- The bytes of the stack that the argument takes. -/
def argumentBytes (t : Target) : Nat :=
  match t.convention with
  | .cdecl => t.wordBytes
  | _ => 0

/-- Gives the argument to the function that is called. -/
def give (t : Target) (n : Int32) : List Instruction :=
  match t.convention with
  | .sysV => [.immediate .mov n.toInt .rdi]
  | .win64 => [.immediate .mov n.toInt .rcx]
  | .cdecl =>
    [.immediate .mov n.toInt t.returnRegister, .store .mov t.returnRegister 0 t.stackPointer]

/-- A frame for `main`, and the argument of the call. -/
def passing (t : Target) (n : Int32) : List Instruction :=
  t.frame (t.frameSize (argumentBytes t)) ++ give t n

/-- The code that calls the function. -/
def mainCode (t : Target) (n : Int32) : List Instruction :=
  mainLabel t :: (passing t n ++ .branch .call (t.symbol "factorial") :: Target.epilogue)

theorem holds_frameSize {t : Target} {locals : Nat} (h : locals ≤ t.wordBytes) :
    t.wordWidth.holds (t.frameSize locals) = true := by
  have hw : t.wordWidth.low ≤ 0 ∧ 56 ≤ t.wordWidth.high := by
    obtain ⟨_ | _ | _, _ | _⟩ := t <;> exact ⟨by decide, by decide⟩
  have := t.frameSize_lt locals
  have := t.shadowSpace_le
  have := t.stackAlignment_le
  have := t.wordBytes_eq
  rw [Width.holds_iff]
  omega

theorem result_bind_of_ok {α β : Type} {x : Logged Error α} {a : α} (h : x.result = .ok a)
    (f : α → Logged Error β) : (x >>= f).result = (f a).result := by
  rw [Logged.result_bind, h]
  rfl

theorem result_exitProgram (t : Target) (n : Int32) :
    (exitProgram t n).result = .ok ⟨[.code ⟨exitCode t n⟩]⟩ := by
  have hf := Target.result_prologue (holds_frameSize (Nat.zero_le t.wordBytes))
  have he : (liftM (entry t) : Logged Error Instruction).result = .ok (mainLabel t) := entry_eq t
  have hg : (liftM (giveBack t n.toInt) : Logged Error Instruction).result = _ := giveBack_eq t n
  rw [exitProgram, result_bind_of_ok rfl, result_bind_of_ok he, result_bind_of_ok hf,
    result_bind_of_ok hg]
  rfl

/-- Where the first argument of a word is passed. -/
def firstPlace (t : Target) : Place :=
  match t.convention with
  | .sysV => .register .rdi
  | .win64 => .register .rcx
  | .cdecl => .stack 0

theorem firstPlace_eq (t : Target) : t.firstPlace t.wordWidth = .ok (firstPlace t) := by
  obtain ⟨_ | _ | _, _ | _⟩ := t <;> rfl

theorem result_mkImmediate {r : Register} (h : 32 ≤ r.width.bits) (n : Int32) :
    (liftM (Instruction.mkImmediate .mov n.toInt r) : Logged Error Instruction).result =
      .ok (.immediate .mov n.toInt r) :=
  Instruction.mkImmediate_eq_ok_iff.2 ⟨Width.holds_int32 h n, rfl⟩

theorem result_passNumber (t : Target) (n : Int32) :
    (passNumber t n.toInt).result = .ok (passing t n) := by
  have hp : (liftM (t.firstPlace t.wordWidth) : Logged Error Place).result = .ok (firstPlace t) :=
    firstPlace_eq t
  have hf := Target.result_prologue (holds_frameSize (Nat.zero_le t.wordBytes))
  have hw := Target.result_prologue (holds_frameSize (Nat.le_refl t.wordBytes))
  rw [passNumber, result_bind_of_ok hp, passing, firstPlace, argumentBytes, give]
  cases t.convention with
  | sysV =>
    exact (result_bind_of_ok hf _).trans
      (result_bind_of_ok (result_mkImmediate (by decide) n) _)
  | win64 =>
    exact (result_bind_of_ok hf _).trans
      (result_bind_of_ok (result_mkImmediate (by decide) n) _)
  | cdecl =>
    have hr : 32 ≤ t.returnRegister.width.bits := by
      obtain ⟨_, _ | _⟩ := t <;> exact Nat.le_of_ble_eq_true rfl
    have hs : (liftM (Instruction.mkStore .mov t.returnRegister ((0 : Nat) : Int) t.stackPointer) :
        Logged Error Instruction).result = .ok (.store .mov t.returnRegister 0 t.stackPointer) := by
      obtain ⟨_, _ | _⟩ := t <;> rfl
    exact (result_bind_of_ok hw _).trans ((result_bind_of_ok (result_mkImmediate hr n) _).trans
      (result_bind_of_ok hs _))

theorem result_factorialProgram (t : Target) (n : Int32) :
    (factorialProgram t n).result =
      .ok ⟨[.code ⟨factorialCode t (t.symbol "factorial") ++ mainCode t n⟩]⟩ := by
  have he : (liftM (entry t) : Logged Error Instruction).result = .ok (mainLabel t) := entry_eq t
  rw [factorialProgram, result_bind_of_ok rfl,
    result_bind_of_ok (result_factorialFunction t _), result_bind_of_ok he,
    result_bind_of_ok (result_passNumber t n)]
  simp [mainCode, Logged.result_pure]

theorem length_program (t : Target) (n : Int32) :
    (factorialCode t (t.symbol "factorial") ++ mainCode t n).length ≤ 64 := by
  obtain ⟨_ | _ | _, _ | _⟩ := t <;> exact Nat.le_of_ble_eq_true rfl

theorem length_exitCode (t : Target) (n : Int32) : (exitCode t n).length ≤ 64 := by
  obtain ⟨_ | _ | _, _ | _⟩ := t <;> exact Nat.le_of_ble_eq_true rfl

/-! ## Passing the argument -/

variable {t : Target} {s : State t}

theorem family_of_mem_savedRegisters {r : Register} (h : r ∈ t.savedRegisters) :
    r.family ∉ [.general .a, .general .c, .pointer .sp] := by
  revert r
  obtain ⟨_ | _ | _, _ | _⟩ := t <;> decide

theorem family_ne_di {r : Register} (hs : t.convention = .sysV) (h : r ∈ t.savedRegisters) :
    r.family ≠ .pointer .di := by
  revert r
  obtain ⟨_ | _ | _, _ | _⟩ := t <;> first | decide | cases hs

theorem whole_rcx (h : t.convention = .win64) : t.Whole .rcx (.general .c) := by
  obtain ⟨_ | _ | _, _ | _⟩ := t <;> first | exact ⟨rfl, rfl, rfl⟩ | cases h

theorem frameSize_argument (t : Target) :
    argumentBytes t ≤ t.frameSize (argumentBytes t) ∧ t.frameSize (argumentBytes t) < 56 := by
  have hb : argumentBytes t ≤ t.wordBytes := by
    unfold argumentBytes
    split <;> omega
  have := t.le_frameSize (argumentBytes t)
  have := t.frameSize_lt (argumentBytes t)
  have := t.shadowSpace_le
  have := t.stackAlignment_le
  have := t.wordBytes_eq
  omega

/-- A frame, and a register that need not be saved, leave the registers to save alone. -/
theorem saved_enter_assign (s : State t) (size : Nat) (fl : Option Flags) {f : Family}
    (hf : ∀ r ∈ t.savedRegisters, r.family ≠ f) (v : t.Word) :
    ∀ r ∈ t.savedRegisters, r.family ≠ .pointer .bp →
      (State.assign { s.enter size with flags := fl } f v).registers r.family =
        s.registers r.family := by
  intro r hr hb
  have hs : r.family ≠ .pointer .sp := fun h => family_of_mem_savedRegisters hr (by simp [h])
  rw [State.registers_assign, if_neg (hf r hr)]
  exact s.registers_enter_of_ne size hs hb

theorem family_ne_a {r : Register} (h : r ∈ t.savedRegisters) : r.family ≠ .general .a :=
  fun hf => family_of_mem_savedRegisters h (by simp [hf])

/-- `u` is a state of `main`, entered with `s`, in front of the call: a frame is set up, and `n` is
where the function expects it. -/
structure Passed (s u : State t) (n : Int32) : Prop where
  inside : s.Inside u
  top : u.top = s.top - t.wordStep - BitVec.ofNat _ (t.frameSize (argumentBytes t))
  saved : ∀ r ∈ t.savedRegisters, r.family ≠ .pointer .bp →
    u.registers r.family = s.registers r.family
  argument : ∀ v, (u.push v).firstArgument = BitVec.ofInt _ n.toInt

/-- An argument in a register that `main` need not save. -/
theorem passed_assign {f : Family} {n : Int32} {fl : Option Flags} (hs : f ≠ .pointer .sp)
    (hb : f ≠ .pointer .bp) (hf : ∀ r ∈ t.savedRegisters, r.family ≠ f)
    (ha : ∀ u : State t, u.firstArgument = u.registers f) :
    Passed s (State.assign { s.enter (t.frameSize (argumentBytes t)) with flags := fl } f
      (BitVec.ofInt _ n.toInt)) n where
  inside := s.inside_enter_assign _ fl hb _
  top := s.top_enter_assign _ fl hs _
  saved := saved_enter_assign s _ fl hf _
  argument v := by
    rw [ha, State.registers_push, if_neg hs, State.registers_assign, if_pos rfl]

/-- The place of an argument on the stack is apart from what `main` needs for its return. -/
theorem apart_argument (hcv : t.convention = .cdecl) (s : State t) :
    Memory.Apart t.wordBytes (s.top - t.wordStep)
      (s.top - t.wordStep - BitVec.ofNat _ (t.frameSize (argumentBytes t))) ∧
    Memory.Apart t.wordBytes s.top
      (s.top - t.wordStep - BitVec.ofNat _ (t.frameSize (argumentBytes t))) := by
  have hb : argumentBytes t = t.wordBytes := by rw [argumentBytes, hcv]
  have hf := frameSize_argument t
  have := t.wordBytes_eq
  have := t.two_pow_le
  constructor
  · exact (Memory.apart_of_sub_eq (sub_sub_self ..) (by omega) (by omega)).symm
  · refine (Memory.apart_of_sub_eq (e := t.wordBytes + t.frameSize (argumentBytes t)) ?_
      (by omega) (by omega)).symm
    rw [sub_sub, sub_sub_self, BitVec.ofNat_add]
    rfl

/-- An argument on top of the stack. -/
theorem passed_store {n : Int32} {fl : Option Flags} (hcv : t.convention = .cdecl) :
    Passed s ((State.assign { s.enter (t.frameSize (argumentBytes t)) with flags := fl }
      (.general .a) (BitVec.ofInt _ n.toInt)).store
        (s.top - t.wordStep - BitVec.ofNat _ (t.frameSize (argumentBytes t)))
        (BitVec.ofInt _ n.toInt)) n where
  inside := (s.inside_enter_assign _ fl (by decide) _).store (apart_argument hcv s).1
    (apart_argument hcv s).2
  top := s.top_enter_assign _ fl (f := .general .a) (by decide) (BitVec.ofInt _ n.toInt)
  saved := saved_enter_assign s _ fl (fun _ => family_ne_a) _
  argument v := by
    rw [State.firstArgument, hcv]
    show State.load _ (State.top _ + t.wordStep) = _
    rw [State.top_push, sub_add_cancel, State.load_push_of_sub_eq (e := 0) (sub_self _) (by
      have := t.two_pow_le
      have := t.wordBytes_eq
      omega)]
    have ht := s.top_enter_assign (t.frameSize (argumentBytes t)) fl (f := .general .a)
      (by decide) (BitVec.ofInt _ n.toInt)
    exact (congrArg _ ht).trans (State.load_store ..)

theorem effects_passing (s : State t) (n : Int32) :
    ∃ u, s.effects (passing t n) = some u ∧ Passed s u n := by
  obtain ⟨fl, hframe⟩ := s.effects_frame (t.frameSize (argumentBytes t))
  rw [passing, State.effects_append hframe]
  cases hcv : t.convention with
  | sysV =>
    rw [give, hcv]
    refine ⟨_, State.effects_cons (State.effect_mov_immediate (whole_rdi hcv) _),
      passed_assign (by decide) (by decide) (fun r hr => family_ne_di hcv hr) fun u => ?_⟩
    rw [State.firstArgument, hcv]
  | win64 =>
    rw [give, hcv]
    refine ⟨_, State.effects_cons (State.effect_mov_immediate (whole_rcx hcv) _),
      passed_assign (by decide) (by decide)
        (fun r hr h => family_of_mem_savedRegisters hr (by simp [h])) fun u => ?_⟩
    rw [State.firstArgument, hcv]
  | cdecl =>
    rw [give, hcv]
    refine ⟨_, (State.effects_cons (State.effect_mov_immediate t.whole_returnRegister _)).trans
      (State.effects_cons (State.effect_store t.whole_stackPointer t.whole_returnRegister _)), ?_⟩
    have ht := s.top_enter_assign (t.frameSize (argumentBytes t)) fl (f := .general .a)
      (by decide) (BitVec.ofInt _ n.toInt)
    rw [State.top] at ht
    have h0 : BitVec.ofInt t.wordWidth.bits 0 = 0 := BitVec.ofInt_natCast _ 0
    rw [ht, State.registers_assign, if_pos rfl, h0, add_zero]
    exact passed_store hcv

/-! ## Labels -/

theorem isLabelOf_give {n : Int32} {label : String} :
    ∀ i ∈ give t n, i.isLabelOf label = false := by
  unfold give
  split <;> simp [Instruction.isLabelOf]

/-- Behind the first instruction, `main` has no labels. -/
theorem isLabelOf_tail_mainCode {n : Int32} {label : String} :
    ∀ i ∈ (mainCode t n).tail, i.isLabelOf label = false :=
  List.forall_mem_append.2 ⟨List.forall_mem_append.2 ⟨Target.isLabelOf_frame, isLabelOf_give⟩,
    by simp [Target.epilogue, Instruction.isLabelOf]⟩

/-- The function's labels are not `main`. -/
theorem symbol_main_ne (t : Target) :
    t.symbol "main" ≠ t.symbol "factorial" ∧
    t.symbol "main" ≠ loopLabel (t.symbol "factorial") ∧
    t.symbol "main" ≠ doneLabel (t.symbol "factorial") := by
  obtain ⟨_ | _ | _, _ | _⟩ := t <;> decide

theorem isLabelOf_mainCode {n : Int32} {label : String} (h : t.symbol "main" ≠ label) :
    ∀ i ∈ mainCode t n, i.isLabelOf label = false :=
  List.forall_mem_cons.2 ⟨beq_eq_false_iff_ne.2 h, isLabelOf_tail_mainCode⟩

section

variable {code : List Instruction} {n : Int32}

theorem target?_factorial (hc : code = factorialCode t (t.symbol "factorial") ++ mainCode t n)
    (p : Placement t code) : p.target? (t.symbol "factorial") = some (p.address 0) := by
  have hc' : code = [] ++ .label (t.symbol "factorial") ⟨16, by decide⟩ false ::
      ((factorialCode t (t.symbol "factorial")).tail ++ mainCode t n) := hc
  exact p.target?_append hc' (List.forall_mem_nil _) (List.forall_mem_append.2
    ⟨isLabelOf_tail (loopLabel_ne _).symm (doneLabel_ne _).symm,
      isLabelOf_mainCode (symbol_main_ne t).1⟩)

theorem target?_main (hc : code = factorialCode t (t.symbol "factorial") ++ mainCode t n)
    (p : Placement t code) : p.target? (t.symbol "main") =
      some (p.address (factorialCode t (t.symbol "factorial")).length) := by
  obtain ⟨hn, hl, hd⟩ := symbol_main_ne t
  exact p.target?_append hc (List.forall_mem_cons.2
    ⟨beq_eq_false_iff_ne.2 hn.symm, isLabelOf_tail hl hd⟩) isLabelOf_tail_mainCode

end

/-! ## Running `main` -/

/-- The function that is called changes nothing above the stack. -/
theorem Computes.load_above {u w : State t} {v a : t.Word} {e : Nat} (h : Computes (u.push v) w)
    (he : a - u.top = BitVec.ofNat _ e) (hn : e + 3 * t.wordBytes ≤ 2 ^ t.wordWidth.bits) :
    w.load a = u.load a := by
  -- Below `u.top` the call writes the return address and the function its caller's frame pointer.
  have hd : a - ((u.push v).top - t.wordStep) =
      BitVec.ofNat _ (e + (t.wordBytes + t.wordBytes)) := by
    rw [State.top_push, BitVec.ofNat_add, BitVec.ofNat_add, ← he, sub_sub, ← sub_add]
    rfl
  have ha := (Memory.apart_of_sub_eq (k := t.wordBytes) hd (by omega) (by omega)).symm
  have hw : w.load a = (u.push v).load a := by
    refine congrArg _ (Memory.number_congr fun i hi => h.memory _ (ha _ ?_))
    rwa [Memory.toNat_add_ofNat_sub a (by omega)]
  rw [hw, State.load_push_of_sub_eq he (by omega)]

/-- A function that is called from `main` leaves `main` able to return. -/
theorem Passed.inside_of_computes {n : Int32} {u w : State t} {v : t.Word} (hp : Passed s u n)
    (h : Computes (u.push v) w) : s.Inside w := by
  have hf := frameSize_argument t
  have := t.wordBytes_eq
  have := t.two_pow_le
  have hb : s.top - t.wordStep - u.top =
      BitVec.ofNat _ (t.frameSize (argumentBytes t)) := by rw [hp.top, sub_sub_self]
  have ht : s.top - u.top =
      BitVec.ofNat _ (t.wordBytes + t.frameSize (argumentBytes t)) := by
    rw [hp.top, sub_sub, sub_sub_self, BitVec.ofNat_add]
    rfl
  refine ⟨?_, ?_, ?_⟩
  · rw [State.base, h.registers _ (by decide), State.registers_push, if_neg (by decide)]
    exact hp.inside.base_eq
  · rw [h.load_above hb (by omega), hp.inside.load_base]
  · rw [h.load_above ht (by omega), hp.inside.load_top]

/-- In front of the call the stack is aligned, if it was when `main` was called. -/
theorem Passed.aligned {n : Int32} {u : State t} (h : Passed s u n)
    (ha : t.stackAlignment ∣ (s.top + t.wordStep).toNat) : t.stackAlignment ∣ u.top.toNat := by
  rw [h.top]
  exact State.aligned_below_frame ha _

/-- In front of the call there is room for the shadow space. -/
theorem Passed.shadowSpace_le {n : Int32} {u : State t} (h : Passed s u n) :
    t.shadowSpace ≤ (u.base - u.top).toNat := by
  have hf := frameSize_argument t
  have := t.le_frameSize (argumentBytes t)
  have := t.two_pow_le
  rw [h.inside.base_eq, h.top, sub_sub_self, BitVec.toNat_ofNat, Nat.mod_eq_of_lt (by omega)]
  omega

/-- `main` was entered with `s` and has returned with `u`. -/
structure Returned (s u : State t) : Prop where
  top : u.get t.stackPointer = s.get t.stackPointer + t.wordStep
  saved : ∀ r ∈ t.savedRegisters, u.get r = s.get r

theorem whole_of_mem_savedRegisters {r : Register} (h : r ∈ t.savedRegisters) :
    t.Whole r r.family := by
  have hr : r.width = t.wordWidth ∧ t.operates r = true := by
    revert r
    obtain ⟨_ | _ | _, _ | _⟩ := t <;> decide
  exact ⟨rfl, hr.1, hr.2⟩

theorem returned_leave_drop {u : State t} (h : s.Inside u)
    (hs : ∀ r ∈ t.savedRegisters, r.family ≠ .pointer .bp →
      u.registers r.family = s.registers r.family) : Returned s u.leave.drop where
  top := by
    rw [State.get_stackPointer, State.get_stackPointer, State.top, h.registers_leave_drop, if_pos rfl]
  saved r hr := by
    have hsp : r.family ≠ .pointer .sp := fun hf =>
      family_of_mem_savedRegisters hr (by simp [hf])
    have hw := whole_of_mem_savedRegisters hr
    rw [State.get_of_whole hw, State.get_of_whole hw, h.registers_leave_drop, if_neg hsp]
    by_cases hb : r.family = .pointer .bp
    · rw [if_pos hb, hb, State.base]
    · rw [if_neg hb, hs r hr hb]

/-- `main` calls the function and returns what that gives back. -/
theorem returns_mainCode {code : List Instruction} {n : Int32}
    (hc : code = factorialCode t (t.symbol "factorial") ++ mainCode t n) (p : Placement t code)
    (s : State t) :
    ∃ c u, p.Reaches ⟨p.address (factorialCode t (t.symbol "factorial")).length, s⟩ c ∧
      p.instruction? c.ip = some (t.call "factorial") ∧ Passed s c.state n ∧
      p.Returns c ⟨s.load s.top, u⟩ ∧
      u.registers (.general .a) = wordFactorial (BitVec.ofInt _ n.toInt) ∧ Returned s u := by
  obtain ⟨v, hv, hp⟩ := effects_passing s n
  have hfree : LabelsFree (t.symbol "factorial") (mainCode t n) := fun i hi =>
    ⟨isLabelOf_mainCode (symbol_main_ne t).2.1 i hi,
      isLabelOf_mainCode (symbol_main_ne t).2.2 i hi⟩
  have hcall : code = factorialCode t (t.symbol "factorial") ++ mainLabel t :: passing t n ++
      .branch .call (t.symbol "factorial") :: Target.epilogue := by
    simp [hc, mainCode]
  have hend : code = factorialCode t (t.symbol "factorial") ++ mainLabel t :: passing t n ++
      [.branch .call (t.symbol "factorial")] ++ Target.epilogue ++ [] := by
    simp [hc, mainCode]
  have hmain : s.effects (mainLabel t :: passing t n) = some v :=
    (State.effects_cons rfl).trans hv
  obtain ⟨w, hw, hcomp⟩ := returns_factorialCode hc hfree p
    (v.push (p.address (factorialCode t (t.symbol "factorial") ++ mainLabel t :: passing t n ++
      [Instruction.branch .call (t.symbol "factorial")]).length))
  -- The function returns to the address that the call pushed, in front of the epilogue.
  rw [State.top_push, State.load_push_top] at hw
  have hin := hp.inside_of_computes hcomp
  refine ⟨_, w.leave.drop, p.reaches_of_effects hcall hmain,
    p.instruction?_address (by simp [hcall, Target.call]) rfl, hp, ?_, ?_, ?_⟩
  · exact (p.reaches_call hcall (target?_factorial hc p) v).returns
      (hw.reaches.returns (p.returns_epilogue hend hin))
  · rw [hin.registers_leave_drop, if_neg (by decide), if_neg (by decide), hcomp.result,
      hp.argument]
  · refine returned_leave_drop hin fun r hr hb => ?_
    have h := family_of_mem_savedRegisters hr
    have hsp : r.family ≠ .pointer .sp := fun hf => h (by simp [hf])
    rw [hcomp.registers _ h, State.registers_push, if_neg hsp, hp.saved r hr hb]

/-! ## Returning a code -/

theorem effect_mov_low (s : State t) (v : Int) :
    s.effect (.immediate .mov v lowReturn) = some (s.assign (.general .a)
      (((BitVec.ofInt t.wordWidth.bits v).setWidth 32).setWidth _)) := by
  obtain ⟨_, _ | _⟩ := t <;> rfl

theorem setWidth_low (t : Target) (v : Int) :
    (((BitVec.ofInt t.wordWidth.bits v).setWidth 32).setWidth t.wordWidth.bits).setWidth 32 =
      BitVec.ofInt 32 v := by
  have hb : 32 ≤ t.wordWidth.bits := by
    have := t.bits_eq
    have := t.wordBytes_eq
    omega
  rw [BitVec.setWidth_setWidth_of_le _ hb, BitVec.setWidth_setWidth_of_le _ (Nat.le_refl 32)]
  apply BitVec.eq_of_toNat_eq
  rw [BitVec.toNat_setWidth, BitVec.toNat_ofInt, BitVec.toNat_ofInt]
  obtain ⟨_, _ | _⟩ := t <;> simp only [Target.wordWidth, Width.bits] <;> omega

theorem returns_exitCode {n : Int32} (p : Placement t (exitCode t n)) (s : State t) :
    ∃ u, p.target? (t.symbol "main") = some (p.address 0) ∧
      p.Returns ⟨p.address 0, s⟩ ⟨s.load s.top, u⟩ ∧
      (u.registers (.general .a)).setWidth 32 = BitVec.ofInt 32 n.toInt ∧ Returned s u := by
  obtain ⟨fl, hframe⟩ := s.effects_frame (t.frameSize 0)
  have hmain : s.effects (mainLabel t :: (t.frame (t.frameSize 0) ++
      [.immediate .mov n.toInt lowReturn])) = some (State.assign
        { s.enter (t.frameSize 0) with flags := fl } (.general .a)
        (((BitVec.ofInt t.wordWidth.bits n.toInt).setWidth 32).setWidth _)) := by
    rw [State.effects_cons rfl, State.effects_append hframe,
      State.effects_cons (effect_mov_low _ _), State.effects_nil]
  have hc : exitCode t n = [] ++ mainLabel t :: (t.frame (t.frameSize 0) ++
      [.immediate .mov n.toInt lowReturn]) ++ Target.epilogue := rfl
  have hin := s.inside_enter_assign (t.frameSize 0) fl (f := .general .a) (by decide)
    (((BitVec.ofInt t.wordWidth.bits n.toInt).setWidth 32).setWidth _)
  have hlabel : exitCode t n = [] ++ mainLabel t :: (exitCode t n).tail := rfl
  refine ⟨_, p.target?_append hlabel (List.forall_mem_nil _) ?_,
    (p.reaches_of_effects hc hmain).returns
      (p.returns_epilogue (hc.trans (List.append_nil _).symm) hin), ?_,
    returned_leave_drop hin (saved_enter_assign s _ fl (fun _ => family_ne_a) _)⟩
  · exact List.forall_mem_append.2 ⟨List.forall_mem_append.2 ⟨Target.isLabelOf_frame,
      List.forall_mem_singleton.2 rfl⟩, by simp [Target.epilogue, Instruction.isLabelOf]⟩
  · rw [hin.registers_leave_drop, if_neg (by decide), if_neg (by decide), State.registers_assign,
      if_pos rfl, setWidth_low]

/-! ## Both programs -/

theorem wordFactorial_ofInt (t : Target) (n : Int32) :
    wordFactorial (BitVec.ofInt t.wordWidth.bits n.toInt) =
      if n.toInt ≤ 1 then 1 else BitVec.ofNat _ n.toInt.toNat.factorial := by
  have hb : 32 ≤ t.wordWidth.bits := by
    have := t.bits_eq
    have := t.wordBytes_eq
    omega
  obtain ⟨hl, hh⟩ := (Width.holds_iff ..).1 (Width.holds_int32 hb n)
  rw [Width.low_eq] at hl
  rw [Width.high_eq] at hh
  rw [wordFactorial, BitVec.toInt_ofInt_eq_self (by omega) hl (Int.lt_of_le_sub_one hh)]

/-- Both programs return from `main`, on every target, wherever their code stands. The program for
the factorial of `n` comes to its call with an aligned stack and room for the shadow space, if the
stack was aligned when `main` was called, and returns the factorial; the program for the code `n`
returns `n` in the low half of the return register. Both give the stack and the saved registers
back. -/
theorem programs_return (t : Target) (n : Int32) :
    (∃ code : Code, (factorialProgram t n).result = .ok ⟨[.code code]⟩ ∧
      Nonempty (Placement t code.instructions) ∧
      ∀ (p : Placement t code.instructions) (s : State t),
        t.stackAlignment ∣ (s.get t.stackPointer + t.wordStep).toNat →
        ∃ (main : t.Word) (c : Config t) (u : State t),
          p.target? (t.symbol "main") = some main ∧
          p.Reaches ⟨main, s⟩ c ∧
          p.instruction? c.ip = some (t.call "factorial") ∧
          t.stackAlignment ∣ (c.state.get t.stackPointer).toNat ∧
          t.shadowSpace ≤ (c.state.get t.framePointer - c.state.get t.stackPointer).toNat ∧
          p.Returns c ⟨s.load s.top, u⟩ ∧
          u.get t.returnRegister =
            (if n.toInt ≤ 1 then 1 else BitVec.ofNat _ n.toInt.toNat.factorial) ∧
          Returned s u) ∧
    ∃ code : Code, (exitProgram t n).result = .ok ⟨[.code code]⟩ ∧
      Nonempty (Placement t code.instructions) ∧
      ∀ (p : Placement t code.instructions) (s : State t),
        ∃ (main : t.Word) (u : State t),
          p.target? (t.symbol "main") = some main ∧
          p.Returns ⟨main, s⟩ ⟨s.load s.top, u⟩ ∧
          (u.get t.returnRegister).setWidth 32 = BitVec.ofInt 32 n.toInt ∧
          Returned s u := by
  constructor
  · refine ⟨_, result_factorialProgram t n,
      Placement.nonempty_of_length_le t (length_program t n), fun p s ha => ?_⟩
    obtain ⟨c, u, hr, hi, hp, hu, hres, hret⟩ := returns_mainCode rfl p s
    refine ⟨_, c, u, target?_main rfl p, hr, hi, ?_, ?_, hu, ?_, hret⟩
    · rw [State.get_of_whole t.whole_stackPointer] at ha ⊢
      exact hp.aligned ha
    · rw [State.get_of_whole t.whole_stackPointer, State.get_of_whole t.whole_framePointer]
      exact hp.shadowSpace_le
    · rw [State.get_of_whole t.whole_returnRegister, hres, wordFactorial_ofInt]
  · refine ⟨_, result_exitProgram t n,
      Placement.nonempty_of_length_le t (length_exitCode t n), fun p s => ?_⟩
    obtain ⟨u, hmain, hu, hres, hret⟩ := returns_exitCode p s
    refine ⟨_, u, hmain, hu, ?_, hret⟩
    rw [State.get_of_whole t.whole_returnRegister, hres]

/-- From a stack that is aligned as a caller leaves it, the program for five returns 120. -/
theorem programs_return_five :
    ∃ (code : Code) (p : Placement .standard code.instructions) (s u : State .standard)
      (main : Target.standard.Word),
      (factorialProgram .standard 5).result = .ok ⟨[.code code]⟩ ∧
      Target.standard.stackAlignment ∣ (s.get .rsp + Target.standard.wordStep).toNat ∧
      p.target? "main" = some main ∧ p.Returns ⟨main, s⟩ ⟨s.load s.top, u⟩ ∧
      u.get .rax = 120 := by
  obtain ⟨⟨code, hcode, ⟨p⟩, h⟩, -⟩ := programs_return .standard 5
  have ha : Target.standard.stackAlignment ∣
      (State.get (t := .standard) ⟨fun _ => 8, fun _ => 0, none⟩ .rsp
        + Target.standard.wordStep).toNat := by decide
  obtain ⟨main, c, u, hmain, hr, -, -, -, hu, hres, -⟩ := h p _ ha
  exact ⟨code, p, _, u, main, hcode, ha, hmain, hr.returns hu, hres.trans (by decide)⟩

end Program

end AttAsm
