import AttAsm.Proofs.FrameSizes

/-!
# Balance of frames

A prologue that is not refused takes exactly the bytes of its frame, aligns the stack and writes
nothing but the caller's frame pointer (`State.entered_enter`). From then on the stack pointer does
not matter: a state that has kept the frame pointer and the two words from there on is inside the
function (`State.Inside.of_load_eq`), and an epilogue takes the function back to its caller.

Main statement: `Target.epilogue_undoes_prologue`.
-/

namespace AttAsm

/-- A prologue that is not refused is that of its frame, whose size is a word. -/
theorem Target.eq_frame_of_result_prologue {t : Target} {locals : Nat} {opening : List Instruction}
    (h : (t.prologue locals).result = .ok opening) :
    opening = t.frame (t.frameSize locals) ∧ t.frameSize locals < 2 ^ t.wordWidth.bits := by
  by_cases hh : t.wordWidth.holds (t.frameSize locals) = true
  · rw [result_prologue hh] at h
    cases h
    refine ⟨rfl, (Width.holds_natCast_iff.1 hh).trans_le ?_⟩
    exact Nat.pow_le_pow_right Nat.two_pos (Nat.sub_le ..)
  · by_cases hq : Width.quad.holds (t.frameSize locals) = true
    · rw [result_prologue_of_not_holds hq hh] at h
      cases h
    · rw [result_prologue_of_not_addressable hq] at h
      cases h

namespace State

variable {t : Target} {s u v : State t}

/-- `u` is the state of a function that was entered with `s` and has taken `size` bytes for its
frame. -/
structure Entered (s u : State t) (size : Nat) : Prop where
  aligned : t.stackAlignment ∣ (u.get t.stackPointer).toNat
  framePointer_eq : u.get t.framePointer = s.get t.stackPointer - t.wordStep
  size_eq : (u.get t.framePointer - u.get t.stackPointer).toNat = size
  /-- No byte changes outside of the word below the return address. -/
  memory_eq : ∀ a, t.wordBytes ≤ (a - (s.get t.stackPointer - t.wordStep)).toNat →
    u.memory a = s.memory a

theorem top_enter (s : State t) (size : Nat) (fl : Option Flags) :
    State.top { s.enter size with flags := fl } =
      s.top - t.wordStep - BitVec.ofNat _ size :=
  (s.registers_enter ..).trans (if_pos rfl)

/-- A prologue leads into its function. -/
theorem entered_enter {locals : Nat} (ha : t.stackAlignment ∣ (s.top + t.wordStep).toNat)
    (hlt : t.frameSize locals < 2 ^ t.wordWidth.bits) (fl : Option Flags) :
    s.Entered { s.enter (t.frameSize locals) with flags := fl } (t.frameSize locals) where
  aligned := by
    rw [get_stackPointer, top_enter]
    exact aligned_below_frame ha locals
  framePointer_eq := by
    rw [get_framePointer, get_stackPointer]
    exact (s.inside_enter _ fl).base_eq
  size_eq := by
    rw [get_framePointer, get_stackPointer, top_enter, (s.inside_enter _ fl).base_eq, sub_sub_self,
      BitVec.toNat_ofNat, Nat.mod_eq_of_lt hlt]
  memory_eq a h := by
    rw [get_stackPointer] at h
    exact Memory.write_of_le h

/-- Inside a function everything can change but the frame pointer and the two words that a return
needs. -/
theorem Inside.of_load_eq (h : s.Inside u) (hb : v.base = u.base)
    (hl : v.load (s.top - t.wordStep) = u.load (s.top - t.wordStep))
    (ht : v.load s.top = u.load s.top) : s.Inside v :=
  ⟨hb.trans h.base_eq, hl.trans h.load_base, ht.trans h.load_top⟩

end State

namespace Target

/-- **An epilogue undoes a prologue.** A prologue that is not refused sets up its frame: the stack
is aligned, the frame lies between stack pointer and frame pointer, has room for the locals and the
shadow space, and of the memory only the word below the return address changes. From every state `v`
that has kept the frame pointer and the two words from there on, wherever its stack pointer is, the
epilogue returns to the return address with the caller's stack pointer and frame pointer. -/
theorem epilogue_undoes_prologue (t : Target) (locals : UInt32) (opening : List Instruction)
    (h : (t.prologue locals.toNat).result = .ok opening) (s : State t)
    (ha : t.stackAlignment ∣ (s.get t.stackPointer + t.wordStep).toNat)
    (pre body post : List Instruction)
    (p : Placement t (pre ++ opening ++ body ++ epilogue ++ post)) :
    ∃ u : State t,
      p.Reaches ⟨p.address pre.length, s⟩ ⟨p.address (pre ++ opening).length, u⟩ ∧
      s.Entered u (t.frameSize locals.toNat) ∧
      locals.toNat + t.shadowSpace ≤ t.frameSize locals.toNat ∧
      ∀ v : State t, v.get t.framePointer = u.get t.framePointer →
        v.load (s.get t.stackPointer - t.wordStep) = u.load (s.get t.stackPointer - t.wordStep) →
        v.load (s.get t.stackPointer) = u.load (s.get t.stackPointer) →
        ∃ w : State t,
          p.Returns ⟨p.address (pre ++ opening ++ body).length, v⟩
            ⟨s.load (s.get t.stackPointer), w⟩ ∧
          w.get t.stackPointer = s.get t.stackPointer + t.wordStep ∧
          w.get t.framePointer = s.get t.framePointer := by
  obtain ⟨rfl, hlt⟩ := eq_frame_of_result_prologue h
  obtain ⟨fl, hframe⟩ := s.effects_frame (t.frameSize locals.toNat)
  have hc : pre ++ t.frame (t.frameSize locals.toNat) ++ body ++ epilogue ++ post =
      pre ++ t.frame (t.frameSize locals.toNat) ++ (body ++ epilogue ++ post) := by
    simp only [List.append_assoc]
  rw [s.get_stackPointer] at ha ⊢
  refine ⟨_, p.reaches_of_effects hc hframe, State.entered_enter ha hlt fl, t.le_frameSize _, ?_⟩
  intro v hb hl ht
  rw [State.get_framePointer, State.get_framePointer] at hb
  have hv : s.Inside v := (s.inside_enter _ fl).of_load_eq hb hl ht
  refine ⟨v.leave.drop, p.returns_epilogue rfl hv, ?_, ?_⟩
  · rw [State.get_stackPointer, State.top, hv.registers_leave_drop, if_pos rfl]
  · rw [State.get_framePointer, State.get_framePointer, State.base, hv.registers_leave_drop,
      if_neg (by decide), if_pos rfl]

/-- The largest frame of a 32-bit target, left with a stack pointer that is not aligned. -/
theorem epilogue_undoes_prologue_largest :
    let t : Target := ⟨.macos, .bits32⟩
    let opening : List Instruction := [.unary .push .ebp, .binary .mov .esp .ebp .long,
      .immediate .sub 2147483640 .esp]
    let s : State t := ⟨fun f => if f = .pointer .sp then 12 else 7, fun _ => 1, none⟩
    (t.prologue 2147483640).result = .ok opening ∧
    ∃ (p : Placement t (opening ++ epilogue)) (u w : State t),
      p.Reaches ⟨p.address 0, s⟩ ⟨p.address 3, u⟩ ∧ s.Entered u 2147483640 ∧
      p.Returns ⟨p.address 3, u.assign (.pointer .sp) 5⟩ ⟨s.load 12, w⟩ ∧
      w.get .esp = 16 ∧ w.get .ebp = 7 := by
  intro t opening s
  have h : (t.prologue (2147483640 : UInt32).toNat).result = .ok opening := by decide
  have hf : t.frameSize (2147483640 : UInt32).toNat = 2147483640 := by decide
  obtain ⟨p⟩ : Nonempty (Placement t (opening ++ epilogue)) :=
    Placement.nonempty_of_length_le t (by decide)
  obtain ⟨u, hu, he, -, hv⟩ :=
    epilogue_undoes_prologue t 2147483640 opening h s (by decide) [] [] [] p
  obtain ⟨w, hw, hsp, hbp⟩ := hv (u.assign (.pointer .sp) 5) rfl rfl rfl
  rw [hf] at he
  exact ⟨h, p, u, w, hu, he, hw, hsp.trans (by decide), hbp.trans (by decide)⟩

end Target

end AttAsm
