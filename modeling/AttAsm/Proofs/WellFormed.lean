import AttAsm.Proofs.ProgramRuns

/-!
# Well-formed instructions

What the building functions accept, said without them: the widths of two registers meet, a value
lies in the signed range of its register, an alignment is positive. The functions give an
instruction exactly where this holds and name the fault elsewhere, so the instructions that can be
built are the well-formed ones (`Instruction.built_iff`). Frames and programs build their instructions
in this way only, and so does every sequence of operations on code (`Code.built_iff`).

Main statement: `Instruction.building_admits_wellFormed`.
-/

namespace AttAsm

/-! ## The conditions -/

namespace Width

/-- Equal widths meet, and so do a scalar width and the integer width of the same size. -/
def Meets (l r : Width) : Prop := l = r ∨ (l.isScalar ≠ r.isScalar ∧ l.bits = r.bits)

instance (l r : Width) : Decidable (l.Meets r) :=
  inferInstanceAs (Decidable (l = r ∨ (l.isScalar ≠ r.isScalar ∧ l.bits = r.bits)))

/-- The signed values of the width's size. -/
def Fits (w : Width) (v : Int) : Prop := -2 ^ (w.bits - 1) ≤ v ∧ v ≤ 2 ^ (w.bits - 1) - 1

/-- The refusal of a value that does not fit. -/
def outOfRange (w : Width) (v : Int) : Error :=
  .immediateOutOfRange v w (-2 ^ (w.bits - 1)) (2 ^ (w.bits - 1) - 1)

theorem compatible_iff (l r : Width) : l.compatible r = true ↔ l.Meets r := by
  cases l <;> cases r <;> decide

theorem holds_iff_fits (w : Width) (v : Int) : w.holds v = true ↔ w.Fits v := by
  rw [holds_iff, low_eq, high_eq, Fits]

theorem outOfRange_eq (w : Width) (v : Int) :
    w.outOfRange v = .immediateOutOfRange v w w.low w.high := by
  rw [low_eq, high_eq, outOfRange]

/-- Widths meet exactly where they have a joined width. -/
theorem meets_of_join {l r w : Width} (h : l.join r = .ok w) : l.Meets r := by
  rw [← compatible_iff, ← join?_isSome]
  unfold join at h
  cases hj : l.join? r with
  | none => rw [hj] at h; exact nomatch h
  | some v => rfl

theorem exists_join {l r : Width} (h : l.Meets r) : ∃ w, l.join r = .ok w := by
  rw [← compatible_iff, ← join?_isSome] at h
  obtain ⟨w, hw⟩ := Option.isSome_iff_exists.1 h
  exact ⟨w, by rw [join, hw]⟩

end Width

namespace Instruction

/-- Widths that meet, with their joined width, values that fit, and positive alignments. -/
def WellFormed : Instruction → Prop
  | label _ a _ => a.bytes ≠ 0
  | binary _ l r w => l.width.Meets r.width ∧ l.width.join r.width = .ok w
  | immediate _ v t => t.width.Fits v
  | load _ v _ t => t.width.Fits v
  | store _ s v _ => s.width.Fits v
  | _ => True

/-! ## What is accepted and what is refused -/

theorem mkBinary_of_join {op : BinaryOp} {l r : Register} {w : Width}
    (h : l.width.join r.width = .ok w) : mkBinary op l r = .ok (.binary op l r w) := by
  have hc := (Width.compatible_iff _ _).2 (Width.meets_of_join h)
  rw [mkBinary, if_pos hc, h]
  rfl

theorem mkBinary_of_not_meets {op : BinaryOp} {l r : Register} (h : ¬ l.width.Meets r.width) :
    mkBinary op l r = .error (.incompatibleWidths l.width r.width) := by
  rw [← Width.compatible_iff] at h
  rw [mkBinary, if_neg h]

/-- `x` gives `i` where `p` holds and is refused with `e` elsewhere. -/
structure Admits (x : Except Error Instruction) (p : Prop) (i : Instruction) (e : Error) :
    Prop where
  ok : p → x = .ok i
  error : ¬ p → x = .error e

/-- A guard in front of an instruction admits the values that fit. -/
theorem admits_checkImmediate (w : Width) (v : Int) (i : Instruction) :
    Admits (do w.checkImmediate v; return i) (w.Fits v) i (w.outOfRange v) where
  ok h := checkImmediate_bind_eq_ok_iff.2 ⟨(w.holds_iff_fits v).2 h, rfl⟩
  error h := by
    rw [← Width.holds_iff_fits] at h
    rw [Width.outOfRange_eq]
    exact checkImmediate_bind_of_not_holds h i

theorem mkLabel_of_pos (name : String) {n : Nat} (h : 0 < n) (g : Bool) :
    mkLabel name n g = .ok (.label name ⟨n, h⟩ g) :=
  mkLabel_eq_ok_iff.2 ⟨h, rfl⟩

/-- The instructions that can be built are the well-formed ones. -/
theorem built_iff (i : Instruction) : i.Built ↔ i.WellFormed := by
  constructor
  · intro h
    cases h with
    | label h =>
      obtain ⟨hn, rfl⟩ := mkLabel_eq_ok_iff.1 h
      exact Nat.ne_of_gt hn
    | @binary op l r _ h =>
      by_cases hm : l.width.Meets r.width
      · obtain ⟨w, hw⟩ := Width.exists_join hm
        rw [mkBinary_of_join hw] at h
        cases h
        exact ⟨hm, hw⟩
      · rw [mkBinary_of_not_meets hm] at h
        exact nomatch h
    | immediate h =>
      obtain ⟨hv, rfl⟩ := mkImmediate_eq_ok_iff.1 h
      exact (Width.holds_iff_fits _ _).1 hv
    | load h =>
      obtain ⟨hv, rfl⟩ := mkLoad_eq_ok_iff.1 h
      exact (Width.holds_iff_fits _ _).1 hv
    | store h =>
      obtain ⟨hv, rfl⟩ := mkStore_eq_ok_iff.1 h
      exact (Width.holds_iff_fits _ _).1 hv
    | localLabel name => exact Nat.one_ne_zero
    | _ => trivial
  · intro h
    cases i with
    | label name a g => exact .label (mkLabel_of_pos name a.pos g)
    | bare op => exact .bare op
    | unary op r => exact .unary op r
    | binary op l r w => exact .binary (mkBinary_of_join h.2)
    | immediate op v t => exact .immediate ((admits_checkImmediate ..).ok h)
    | load op v b t => exact .load ((admits_checkImmediate ..).ok h)
    | store op s v b => exact .store ((admits_checkImmediate ..).ok h)
    | branch op a => exact .branch op a
    | symbol op a t => exact .symbol op a t
    | basedSymbol op a b t => exact .basedSymbol op a b t

end Instruction

/-! ## Frames and programs -/

theorem Target.built_prologue {t : Target} {locals : Nat} {is : List Instruction}
    (h : (t.prologue locals).result = .ok is) : ∀ i ∈ is, i.Built := by
  unfold prologue at h
  obtain ⟨move, hm, h⟩ := Logged.lift_bind_eq_ok_iff.1 h
  have hlink : ∀ i ∈ [.unary .push t.framePointer, move], i.Built :=
    List.forall_mem_cons.2 ⟨.unary _ _, List.forall_mem_singleton.2 (.binary hm)⟩
  by_cases hf : 0 < t.frameSize locals
  · simp only [if_pos hf] at h
    obtain ⟨size, -, h⟩ := Logged.lift_bind_eq_ok_iff.1 h
    obtain ⟨reserve, hr, h⟩ := Logged.lift_bind_eq_ok_iff.1 h
    cases h
    exact List.forall_mem_append.2 ⟨hlink, List.forall_mem_singleton.2 (.immediate hr)⟩
  · simp only [if_neg hf] at h
    cases h
    simpa using hlink

theorem Target.built_epilogue : ∀ i ∈ epilogue, i.Built :=
  List.forall_mem_cons.2 ⟨.bare _, List.forall_mem_singleton.2 (.bare _)⟩

namespace Program

theorem built_giveBack {t : Target} {n : Int} {i : Instruction} (h : giveBack t n = .ok i) :
    i.Built := by
  obtain ⟨r, -, h⟩ := except_bind_eq_ok_iff.1 h
  exact .immediate h

theorem built_passMessage {t : Target} {is : List Instruction}
    (h : (passMessage t).result = .ok is) : ∀ i ∈ is, i.Built := by
  unfold passMessage at h
  obtain ⟨place, -, h⟩ := Logged.lift_bind_eq_ok_iff.1 h
  cases place with
  | register r =>
    obtain ⟨frame, hf, h⟩ := Logged.bind_eq_ok_iff.1 h
    cases h
    exact List.forall_mem_append.2
      ⟨Target.built_prologue hf, List.forall_mem_singleton.2 (.basedSymbol ..)⟩
  | stack offset =>
    obtain ⟨frame, hf, h⟩ := Logged.bind_eq_ok_iff.1 h
    obtain ⟨store, hs, h⟩ := Logged.lift_bind_eq_ok_iff.1 h
    cases h
    exact List.forall_mem_append.2 ⟨Target.built_prologue hf,
      List.forall_mem_cons.2 ⟨.symbol .., List.forall_mem_singleton.2 (.store hs)⟩⟩

theorem built_passNumber {t : Target} {n : Int} {is : List Instruction}
    (h : (passNumber t n).result = .ok is) : ∀ i ∈ is, i.Built := by
  unfold passNumber at h
  obtain ⟨place, -, h⟩ := Logged.lift_bind_eq_ok_iff.1 h
  cases place with
  | register r =>
    obtain ⟨frame, hf, h⟩ := Logged.bind_eq_ok_iff.1 h
    obtain ⟨move, hm, h⟩ := Logged.lift_bind_eq_ok_iff.1 h
    cases h
    exact List.forall_mem_append.2
      ⟨Target.built_prologue hf, List.forall_mem_singleton.2 (.immediate hm)⟩
  | stack offset =>
    obtain ⟨frame, hf, h⟩ := Logged.bind_eq_ok_iff.1 h
    obtain ⟨move, hm, h⟩ := Logged.lift_bind_eq_ok_iff.1 h
    obtain ⟨store, hs, h⟩ := Logged.lift_bind_eq_ok_iff.1 h
    cases h
    exact List.forall_mem_append.2 ⟨Target.built_prologue hf,
      List.forall_mem_cons.2 ⟨.immediate hm, List.forall_mem_singleton.2 (.store hs)⟩⟩

theorem built_fetchArgument {t : Target} {counter : Register} {is : List Instruction}
    (h : fetchArgument t counter = .ok is) : ∀ i ∈ is, i.Built := by
  obtain ⟨place, -, h⟩ := except_bind_eq_ok_iff.1 h
  cases place with
  | register r =>
    by_cases hr : r = counter
    · simp only [if_pos hr] at h
      cases h
      exact List.forall_mem_nil _
    · simp only [if_neg hr] at h
      obtain ⟨move, hm, h⟩ := except_bind_eq_ok_iff.1 h
      cases h
      exact List.forall_mem_singleton.2 (.binary hm)
  | stack offset =>
    obtain ⟨load, hl, h⟩ := except_bind_eq_ok_iff.1 h
    cases h
    exact List.forall_mem_singleton.2 (.load hl)

theorem built_factorialFunction {t : Target} {name : String} {c : Code}
    (h : (factorialFunction t name).result = .ok c) : ∀ i ∈ c.instructions, i.Built := by
  obtain ⟨counter, -, h⟩ := Logged.lift_bind_eq_ok_iff.1 h
  obtain ⟨start, hs, h⟩ := Logged.lift_bind_eq_ok_iff.1 h
  obtain ⟨frame, hf, h⟩ := Logged.bind_eq_ok_iff.1 h
  obtain ⟨fetch, hg, h⟩ := Logged.lift_bind_eq_ok_iff.1 h
  obtain ⟨one, ho, h⟩ := Logged.lift_bind_eq_ok_iff.1 h
  obtain ⟨compare, hc, h⟩ := Logged.lift_bind_eq_ok_iff.1 h
  obtain ⟨multiply, hm, h⟩ := Logged.lift_bind_eq_ok_iff.1 h
  cases h
  simp only [List.forall_mem_append, List.forall_mem_cons]
  exact ⟨⟨⟨⟨⟨.label hs, List.forall_mem_nil _⟩, Target.built_prologue hf⟩, built_fetchArgument hg⟩,
    .immediate ho, .localLabel _, .immediate hc, .branch .., .binary hm, .unary .., .branch ..,
    .localLabel _, List.forall_mem_nil _⟩, Target.built_epilogue⟩

/-- What a program has besides its code. -/
def data (p : Program) (message : String) : List Section :=
  match p with
  | hello => [.data ⟨[.string messageLabel (Utf8.encode message)]⟩]
  | _ => []

theorem exitProgram_spec {t : Target} {n : Int32} {f : File}
    (h : (exitProgram t n).result = .ok f) :
    ∃ c : Code, f.sections = [.code c] ∧ ∀ i ∈ c.instructions, i.Built := by
  obtain ⟨-, -, h⟩ := Logged.bind_eq_ok_iff.1 h
  obtain ⟨main, hm, h⟩ := Logged.lift_bind_eq_ok_iff.1 h
  obtain ⟨frame, hf, h⟩ := Logged.bind_eq_ok_iff.1 h
  obtain ⟨result, hr, h⟩ := Logged.lift_bind_eq_ok_iff.1 h
  cases h
  refine ⟨_, rfl, ?_⟩
  simp only [List.forall_mem_append, List.forall_mem_singleton]
  exact ⟨⟨⟨.label hm, Target.built_prologue hf⟩, built_giveBack hr⟩, Target.built_epilogue⟩

theorem helloProgram_spec {t : Target} {message : String} {f : File}
    (h : (helloProgram t message).result = .ok f) :
    ∃ c : Code, f.sections = .code c :: hello.data message ∧ ∀ i ∈ c.instructions, i.Built := by
  obtain ⟨-, -, h⟩ := Logged.bind_eq_ok_iff.1 h
  obtain ⟨main, hm, h⟩ := Logged.lift_bind_eq_ok_iff.1 h
  obtain ⟨argument, ha, h⟩ := Logged.bind_eq_ok_iff.1 h
  obtain ⟨result, hr, h⟩ := Logged.lift_bind_eq_ok_iff.1 h
  cases h
  refine ⟨_, rfl, ?_⟩
  simp only [List.forall_mem_append, List.forall_mem_cons]
  exact ⟨⟨⟨⟨.label hm, List.forall_mem_nil _⟩, built_passMessage ha⟩, .branch ..,
    built_giveBack hr, List.forall_mem_nil _⟩, Target.built_epilogue⟩

theorem factorialProgram_spec {t : Target} {n : Int32} {f : File}
    (h : (factorialProgram t n).result = .ok f) :
    ∃ c : Code, f.sections = [.code c] ∧ ∀ i ∈ c.instructions, i.Built := by
  obtain ⟨-, -, h⟩ := Logged.bind_eq_ok_iff.1 h
  obtain ⟨function, hf, h⟩ := Logged.bind_eq_ok_iff.1 h
  obtain ⟨main, hm, h⟩ := Logged.lift_bind_eq_ok_iff.1 h
  obtain ⟨argument, ha, h⟩ := Logged.bind_eq_ok_iff.1 h
  cases h
  refine ⟨_, rfl, ?_⟩
  simp only [List.forall_mem_append, List.forall_mem_singleton]
  exact ⟨⟨⟨⟨built_factorialFunction hf, .label hm⟩, built_passNumber ha⟩, .branch ..⟩,
    Target.built_epilogue⟩

/-- A program is code that can be built, and data. -/
theorem build_spec {p : Program} {t : Target} {n : Int32} {message : String} {f : File}
    (h : (p.build t n message).result = .ok f) :
    ∃ c : Code, f.sections = .code c :: p.data message ∧ ∀ i ∈ c.instructions, i.Built := by
  cases p with
  | exit => exact exitProgram_spec h
  | hello => exact helloProgram_spec h
  | factorial => exact factorialProgram_spec h

theorem code_not_mem_data {p : Program} {message : String} {c : Code} :
    .code c ∉ p.data message := by
  cases p <;> simp [data]

theorem exists_build (p : Program) (t : Target) (n : Int32) (message : String) :
    ∃ f, (p.build t n message).result = .ok f := by
  cases p with
  | exit => exact ⟨_, result_exitProgram t n⟩
  | hello => obtain ⟨_ | _ | _, _ | _⟩ := t <;> exact ⟨_, rfl⟩
  | factorial => exact ⟨_, result_factorialProgram t n⟩

end Program

/-! ## Code -/

/-- The code that the operations of the library give: an instruction is put behind code, code behind
code, instructions of some code are taken in any order, and frames, calls and programs give code of
their own. -/
inductive Code.Built : Code → Prop
  | empty : Built .empty
  | push {c : Code} {i : Instruction} (hc : Built c) (hi : i.Built) : Built (c.push i)
  | extend {c d : Code} (hc : Built c) (hd : Built d) : Built (c.extend d.instructions)
  | select {c : Code} {is : List Instruction} (hc : Built c) (h : ∀ i ∈ is, i ∈ c.instructions) :
    Built ⟨is⟩
  | prologue {t : Target} {locals : Nat} {is : List Instruction}
    (h : (t.prologue locals).result = .ok is) : Built ⟨is⟩
  | epilogue : Built ⟨Target.epilogue⟩
  | call (t : Target) (name : String) : Built ⟨[t.call name]⟩
  | function {t : Target} {name : String} {c : Code}
    (h : (Program.factorialFunction t name).result = .ok c) : Built c
  | program {p : Program} {t : Target} {n : Int32} {message : String} {f : File} {c : Code}
    (h : (p.build t n message).result = .ok f) (hc : .code c ∈ f.sections) : Built c

namespace Code

theorem Built.forall_built {c : Code} (h : c.Built) : ∀ i ∈ c.instructions, i.Built := by
  induction h with
  | empty => exact List.forall_mem_nil _
  | push _ hi ih => exact List.forall_mem_append.2 ⟨ih, List.forall_mem_singleton.2 hi⟩
  | extend _ _ ihc ihd => exact List.forall_mem_append.2 ⟨ihc, ihd⟩
  | select _ h ih => exact fun i hi => ih i (h i hi)
  | prologue h => exact Target.built_prologue h
  | epilogue => exact Target.built_epilogue
  | call t name => exact List.forall_mem_singleton.2 (.branch ..)
  | function h => exact Program.built_factorialFunction h
  | program h hc =>
    obtain ⟨c, hs, hb⟩ := Program.build_spec h
    rw [hs] at hc
    cases (List.mem_cons.1 hc).resolve_right Program.code_not_mem_data
    exact hb

/-- Any list of instructions that can be built is code that can be built. -/
theorem built_of_forall_built {is : List Instruction} (h : ∀ i ∈ is, i.Built) :
    Built ⟨is⟩ := by
  induction is using List.reverseRecOn with
  | nil => exact .empty
  | append_singleton is i ih =>
    obtain ⟨his, hi⟩ := List.forall_mem_append.1 h
    exact (ih his).push (hi i List.mem_cons_self)

theorem built_iff (c : Code) : c.Built ↔ ∀ i ∈ c.instructions, i.WellFormed := by
  simp only [← Instruction.built_iff]
  exact ⟨Built.forall_built, built_of_forall_built⟩

end Code

/-- **Building admits exactly the well-formed instructions.** What is refused is named with the
widths and the bounds that it breaks, and two widths are never reported as incomparable. The shapes
that are not mentioned are always built. So code holds well-formed instructions, whatever it was put
together from. -/
theorem Instruction.building_admits_wellFormed :
    (∀ op l r,
      (l.width.Meets r.width →
        ∃ w, l.width.join r.width = .ok w ∧ mkBinary op l r = .ok (.binary op l r w)) ∧
      (¬ l.width.Meets r.width →
        mkBinary op l r = .error (.incompatibleWidths l.width r.width))) ∧
    (∀ op v t, Admits (mkImmediate op v t) (t.width.Fits v) (.immediate op v t)
      (t.width.outOfRange v)) ∧
    (∀ op v b t, Admits (mkLoad op v b t) (t.width.Fits v) (.load op v b t)
      (t.width.outOfRange v)) ∧
    (∀ op s v b, Admits (mkStore op s v b) (s.width.Fits v) (.store op s v b)
      (s.width.outOfRange v)) ∧
    (∀ name n g, (∀ h : 0 < n, mkLabel name n g = .ok (.label name ⟨n, h⟩ g)) ∧
      mkLabel name 0 g = .error .zeroAlignment) ∧
    (∀ i : Instruction, i.Built ↔ i.WellFormed) ∧
    (∀ c : Code, c.Built ↔ ∀ i ∈ c.instructions, i.WellFormed) ∧
    (∀ t name, ∃ c, (Program.factorialFunction t name).result = .ok c ∧ c.Built) ∧
    ∀ (p : Program) t n message, ∃ f, (p.build t n message).result = .ok f ∧
      ∀ c, .code c ∈ f.sections → c.Built := by
  refine ⟨fun op l r => ⟨fun h => ?_, mkBinary_of_not_meets⟩,
    fun _ _ _ => admits_checkImmediate .., fun _ _ _ _ => admits_checkImmediate ..,
    fun _ _ _ _ => admits_checkImmediate ..,
    fun name n g => ⟨fun h => mkLabel_of_pos name h g, rfl⟩, built_iff, Code.built_iff,
    fun t name => ?_, fun p t n message => ?_⟩
  · obtain ⟨w, hw⟩ := Width.exists_join h
    exact ⟨w, hw, mkBinary_of_join hw⟩
  · have hc := Program.result_factorialFunction t name
    exact ⟨_, hc, .function hc⟩
  · obtain ⟨f, hf⟩ := p.exists_build t n message
    exact ⟨f, hf, fun c hc => .program hf hc⟩

end AttAsm
