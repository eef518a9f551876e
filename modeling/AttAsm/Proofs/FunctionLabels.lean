import AttAsm.Proofs.FactorialFunction
import Mathlib.Data.List.Nodup

/-!
# Labels of functions

The labels that code defines and the names that its jumps go to. Where all labels differ, a jump to
a label of some code leads to that label, whatever other code stands around it
(`exists_labelIndex?_of_nodup`).

The local labels of a function are made from its name, so that they give the name back
(`Program.localName_inj`). Two functions with different names can therefore clash in one way only:
the name of the one is a local label of the other (`Program.nodup_labels_append_iff`).

Main statement: `Program.factorialFunction_jumps_resolve`.
-/

namespace AttAsm

namespace Instruction

/-- The name that a label defines. -/
def labelName? : Instruction → Option String
  | .label name _ _ => some name
  | _ => none

/-- The name that a jump goes to; calls are jumps too. -/
def jumpName? : Instruction → Option String
  | .branch _ name => some name
  | _ => none

theorem isLabelOf_iff {i : Instruction} {name : String} :
    i.isLabelOf name = true ↔ i.labelName? = some name := by
  cases i <;> simp [isLabelOf, labelName?]

end Instruction

/-- The labels that code defines, in order. -/
def labels (code : List Instruction) : List String := code.filterMap Instruction.labelName?

/-- The names that the jumps of code go to, in order. -/
def jumps (code : List Instruction) : List String := code.filterMap Instruction.jumpName?

theorem labels_append (c d : List Instruction) : labels (c ++ d) = labels c ++ labels d :=
  List.filterMap_append

theorem isLabelOf_of_not_mem_labels {code : List Instruction} {name : String}
    (h : name ∉ labels code) : ∀ i ∈ code, i.isLabelOf name = false := by
  intro i hi
  rw [Bool.eq_false_iff]
  intro hl
  exact h (List.mem_filterMap.2 ⟨i, hi, Instruction.isLabelOf_iff.1 hl⟩)

theorem exists_label_of_mem_labels {code : List Instruction} {name : String}
    (h : name ∈ labels code) : ∃ pre a g post, code = pre ++ .label name a g :: post := by
  obtain ⟨i, hi, hname⟩ := List.mem_filterMap.1 h
  obtain ⟨pre, post, rfl⟩ := List.append_of_mem hi
  cases i with
  | label s a g =>
    cases hname
    exact ⟨pre, a, g, post, rfl⟩
  | _ => cases hname

/-- Where all labels differ, a label of a part is found at its place in the part. -/
theorem exists_labelIndex?_of_nodup {code pre part post : List Instruction} {name : String}
    (hc : code = pre ++ part ++ post) (h : (labels code).Nodup) (hname : name ∈ labels part) :
    ∃ i, labelIndex? part name = some i ∧ labelIndex? code name = some (pre.length + i) := by
  obtain ⟨p, a, g, q, rfl⟩ := exists_label_of_mem_labels hname
  have hsplit : code = (pre ++ p) ++ .label name a g :: (q ++ post) := by
    simp [hc]
  have hlabels : labels code = labels (pre ++ p) ++ name :: labels (q ++ post) := by
    rw [hsplit, labels_append]
    rfl
  rw [hlabels, List.nodup_middle, List.nodup_cons] at h
  obtain ⟨hbefore, hafter⟩ := not_or.1 (List.mem_append.not.1 h.1)
  have hpre := isLabelOf_of_not_mem_labels hbefore
  have hpost := isLabelOf_of_not_mem_labels hafter
  refine ⟨p.length, ?_, ?_⟩
  · exact labelIndex?_append (fun i hi => hpre i (List.mem_append_right _ hi))
      fun i hi => hpost i (List.mem_append_left _ hi)
  · rw [hsplit, labelIndex?_append hpre hpost, List.length_append]

namespace Program

variable {m n : String}

theorem labels_factorialCode (t : Target) (name : String) :
    labels (factorialCode t name) = [name, loopLabel name, doneLabel name] := by
  obtain ⟨_ | _ | _, _ | _⟩ := t <;> rfl

theorem jumps_factorialCode (t : Target) (name : String) :
    jumps (factorialCode t name) = [doneLabel name, loopLabel name] := by
  obtain ⟨_ | _ | _, _ | _⟩ := t <;> rfl

theorem jumps_subset_labels (t : Target) (name : String) :
    ∀ s ∈ jumps (factorialCode t name), s ∈ labels (factorialCode t name) := by
  rw [jumps_factorialCode, labels_factorialCode]
  simp

theorem nodup_labels_factorialCode (t : Target) (name : String) :
    (labels (factorialCode t name)).Nodup := by
  rw [labels_factorialCode]
  simp [(loopLabel_ne name).symm, (doneLabel_ne name).symm, (doneLabel_ne_loopLabel name name).symm]

theorem loopLabel_inj : loopLabel m = loopLabel n ↔ m = n :=
  ⟨fun h => (localName_inj rfl h).1, congrArg loopLabel⟩

theorem doneLabel_inj : doneLabel m = doneLabel n ↔ m = n :=
  ⟨fun h => (localName_inj rfl h).1, congrArg doneLabel⟩

/-- Two functions have different labels, unless they have one name or the name of the one is a local
label of the other. -/
theorem nodup_labels_append_iff (t : Target) :
    (labels (factorialCode t m ++ factorialCode t n)).Nodup ↔
      m ≠ n ∧ m ∉ [loopLabel n, doneLabel n] ∧ n ∉ [loopLabel m, doneLabel m] := by
  have hloop : loopLabel m ≠ doneLabel n := (doneLabel_ne_loopLabel n m).symm
  have hdone : doneLabel m ≠ loopLabel n := doneLabel_ne_loopLabel m n
  rw [labels_append, List.nodup_append, and_iff_right (nodup_labels_factorialCode t m),
    and_iff_right (nodup_labels_factorialCode t n), labels_factorialCode, labels_factorialCode]
  -- Of the nine pairs, those of two local labels come down to the names or never meet.
  simp only [List.mem_cons, List.not_mem_nil, or_false, not_or, forall_eq_or_imp, forall_eq, ne_eq,
    loopLabel_inj, doneLabel_inj, hloop, hdone, not_false_eq_true, true_and, and_true]
  constructor
  · rintro ⟨⟨h, hl, hd⟩, ⟨hl', -⟩, hd', -⟩
    exact ⟨h, ⟨hl, hd⟩, Ne.symm hl', Ne.symm hd'⟩
  · rintro ⟨h, ⟨hl, hd⟩, hl', hd'⟩
    exact ⟨⟨h, hl, hd⟩, ⟨Ne.symm hl', h⟩, Ne.symm hd', h⟩

/-- **Labels do not clash.** The factorial function defines three different labels, and each of its
jumps goes to one of them. In the code of two functions with different names, neither of which is a
local label of the other, all six labels differ and each jump goes to the same label of its function
as in the function alone. -/
theorem factorialFunction_jumps_resolve (t : Target) :
    (∀ name : String, ∃ c : Code, (factorialFunction t name).result = .ok c ∧
      labels c.instructions = [name, loopLabel name, doneLabel name] ∧
      (labels c.instructions).Nodup ∧
      jumps c.instructions = [doneLabel name, loopLabel name] ∧
      ∀ s ∈ jumps c.instructions, ∃ i, labelIndex? c.instructions s = some i) ∧
    ∀ m n : String, m ≠ n → m ∉ [loopLabel n, doneLabel n] → n ∉ [loopLabel m, doneLabel m] →
      ∃ c d : Code, (factorialFunction t m).result = .ok c ∧
        (factorialFunction t n).result = .ok d ∧
        (labels (c.instructions ++ d.instructions)).length = 6 ∧
        (labels (c.instructions ++ d.instructions)).Nodup ∧
        (∀ s ∈ jumps c.instructions, ∃ i, labelIndex? c.instructions s = some i ∧
          labelIndex? (c.instructions ++ d.instructions) s = some i) ∧
        ∀ s ∈ jumps d.instructions, ∃ i, labelIndex? d.instructions s = some i ∧
          labelIndex? (c.instructions ++ d.instructions) s = some (c.instructions.length + i) := by
  constructor
  · intro name
    refine ⟨_, result_factorialFunction t name, labels_factorialCode t name,
      nodup_labels_factorialCode t name, jumps_factorialCode t name, fun s hs => ?_⟩
    have hc : factorialCode t name = [] ++ factorialCode t name ++ [] := (List.append_nil _).symm
    obtain ⟨i, hi, -⟩ := exists_labelIndex?_of_nodup hc (nodup_labels_factorialCode t name)
      (jumps_subset_labels t name s hs)
    exact ⟨i, hi⟩
  · intro m n hmn hm hn
    have hnodup := (nodup_labels_append_iff t).2 ⟨hmn, hm, hn⟩
    refine ⟨_, _, result_factorialFunction t m, result_factorialFunction t n, ?_, hnodup,
      fun s hs => ?_, fun s hs => ?_⟩
    · rw [labels_append, labels_factorialCode, labels_factorialCode]
      rfl
    · have hc : factorialCode t m ++ factorialCode t n =
          [] ++ factorialCode t m ++ factorialCode t n := rfl
      obtain ⟨i, hi, hcode⟩ := exists_labelIndex?_of_nodup hc hnodup (jumps_subset_labels t m s hs)
      rw [List.length_nil, Nat.zero_add] at hcode
      exact ⟨i, hi, hcode⟩
    · have hc : factorialCode t m ++ factorialCode t n =
          factorialCode t m ++ factorialCode t n ++ [] := (List.append_nil _).symm
      exact exists_labelIndex?_of_nodup hc hnodup (jumps_subset_labels t n s hs)

/-- Two names that differ by the ending of a local label. -/
theorem factorialFunction_jumps_resolve_f :
    "f" ≠ "f_loop" ∧ "f" ∉ [loopLabel "f_loop", doneLabel "f_loop"] ∧
    "f_loop" ∉ [loopLabel "f", doneLabel "f"] ∧
    ∃ c d : Code, (factorialFunction ⟨.linux, .bits64⟩ "f").result = .ok c ∧
      (factorialFunction ⟨.linux, .bits64⟩ "f_loop").result = .ok d ∧
      (labels (c.instructions ++ d.instructions)).length = 6 ∧
      (labels (c.instructions ++ d.instructions)).Nodup ∧
      (∀ s ∈ jumps c.instructions, ∃ i, labelIndex? c.instructions s = some i ∧
        labelIndex? (c.instructions ++ d.instructions) s = some i) ∧
      ∀ s ∈ jumps d.instructions, ∃ i, labelIndex? d.instructions s = some i ∧
        labelIndex? (c.instructions ++ d.instructions) s = some (c.instructions.length + i) := by
  have hne : "f" ≠ "f_loop" := by decide
  have hm : "f" ∉ [loopLabel "f_loop", doneLabel "f_loop"] := by decide
  have hn : "f_loop" ∉ [loopLabel "f", doneLabel "f"] := by decide
  exact ⟨hne, hm, hn, (factorialFunction_jumps_resolve ⟨.linux, .bits64⟩).2 _ _ hne hm hn⟩

end Program

end AttAsm
