import AttAsm.Proofs.RowText
import Mathlib.Data.List.Forall2

/-!
# The text of a file

Reading the rows of an output from the last to the first rebuilds the sections. The row of a value
opens a constant; a name goes to the constant below it if that has none yet, and is a label of its
own otherwise; directives go to what they stand before; and an opening row closes what follows it.

Main statement: files with the same output have the same structure (`File.similar_of_emit_eq`).
-/

namespace AttAsm

/-! ## Names of files -/

/-- The label of a constant, if there is one, is an identifier. -/
def Constant.hasIdentifier (c : Constant) : Bool := c.label.all isIdentifier

def Section.hasIdentifiers : Section → Bool
  | code c => c.instructions.all Instruction.hasIdentifiers
  | data d => d.constants.all Constant.hasIdentifier

/-- All labels and symbols of a file are identifiers. -/
def File.hasIdentifiers (f : File) : Bool := f.sections.all Section.hasIdentifiers

theorem proper_of_mem_alignment_rows {a : Alignment} : ∀ r ∈ a.rows, r.Proper := by
  intro r hr
  unfold Alignment.rows at hr
  split_ifs at hr
  · rw [List.mem_singleton.1 hr]
    trivial
  · exact nomatch hr

theorem proper_of_mem_symbolRows {name : String} (h : isIdentifier name = true) {a : Alignment}
    {g : Bool} : ∀ r ∈ symbolRows name a g, r.Proper := by
  intro r hr
  simp only [symbolRows, List.mem_append, List.mem_singleton] at hr
  rcases hr with (hr | hr) | rfl
  · split_ifs at hr
    · rw [List.mem_singleton.1 hr]
      exact h
    · exact nomatch hr
  · exact proper_of_mem_alignment_rows r hr
  · exact h

theorem proper_of_mem_instruction_rows {i : Instruction} (h : i.hasIdentifiers = true) :
    ∀ r ∈ i.rows, r.Proper := by
  cases hl : i.isLabel with
  | true =>
    cases i with
    | label name a g => exact proper_of_mem_symbolRows h
    | _ => exact Bool.noConfusion hl
  | false =>
    have hr : i.rows = [.instruction i.text] := by
      cases i with
      | label name a g => exact Bool.noConfusion hl
      | _ => rfl
    intro r hm
    rw [hr, List.mem_singleton] at hm
    rw [hm]
    exact ⟨i, hl, h, rfl⟩

theorem proper_of_mem_constant_rows {c : Constant} (h : c.hasIdentifier = true) :
    ∀ r ∈ c.rows, r.Proper := by
  intro r hr
  rw [Constant.rows, List.mem_append, List.mem_singleton] at hr
  rcases hr with hr | rfl
  · cases hc : c.label with
    | none =>
      rw [hc] at hr
      exact proper_of_mem_alignment_rows r hr
    | some name =>
      rw [Constant.hasIdentifier, hc] at h
      rw [hc] at hr
      exact proper_of_mem_symbolRows h r hr
  · trivial

theorem proper_of_mem_section_rows {s : Section} (h : s.hasIdentifiers = true) {spaced : Bool} :
    ∀ r ∈ s.rows spaced, r.Proper := by
  intro r hr
  simp only [Section.rows, List.mem_append, List.mem_singleton] at hr
  rcases hr with (hr | rfl) | hr
  · split_ifs at hr
    · rw [List.mem_singleton.1 hr]
      trivial
    · exact nomatch hr
  · cases s with
    | code c => exact .inl rfl
    | data d => exact .inr rfl
  · cases s with
    | code c =>
      obtain ⟨i, hi, hr⟩ := List.mem_flatMap.1 hr
      exact proper_of_mem_instruction_rows (List.all_eq_true.1 h i hi) r hr
    | data d =>
      obtain ⟨c, hc, hr⟩ := List.mem_flatMap.1 hr
      exact proper_of_mem_constant_rows (List.all_eq_true.1 h c hc) r hr

theorem File.readRows?_bytes {l : Layout} (hl : l.Tidy) {f : File} (h : f.hasIdentifiers = true) :
    readRows? (f.bytes l) = some (f.rows l.spaced) := by
  rw [bytes_eq_write]
  apply readRows?_write hl
  intro r hr
  obtain ⟨s, hs, hr⟩ := List.mem_flatMap.1 hr
  exact proper_of_mem_section_rows (List.all_eq_true.1 h s hs) r hr

/-! ## Rebuilding sections -/

/-- What a group of rows describes. -/
inductive Item where
  | line (text : String)
  | label (name : String) (a : Alignment) (isGlobal : Bool)
  | constant (c : Constant)
deriving DecidableEq

/-- The items that wait for their opening row, and the sections that have theirs. -/
structure Rebuilt where
  items : List Item
  sections : List (String × List Item)

/-- Adds a row in front of those already read. -/
def Row.place : Row → Rebuilt → Rebuilt
  | empty, s => s
  | opening d, s => ⟨[], (d, s.items) :: s.sections⟩
  | globl _, ⟨.label n a _ :: is, ss⟩ => ⟨.label n a true :: is, ss⟩
  | globl _, ⟨.constant c :: is, ss⟩ => ⟨.constant { c with isGlobal := true } :: is, ss⟩
  | align a, ⟨.label n _ g :: is, ss⟩ => ⟨.label n a g :: is, ss⟩
  | align a, ⟨.constant c :: is, ss⟩ => ⟨.constant { c with alignment := a } :: is, ss⟩
  | name n, ⟨.constant ⟨none, a, g, v⟩ :: is, ss⟩ => ⟨.constant ⟨some n, a, g, v⟩ :: is, ss⟩
  | name n, s => ⟨.label n .one false :: s.items, s.sections⟩
  | instruction t, s => ⟨.line t :: s.items, s.sections⟩
  | datum v, s => ⟨.constant ⟨none, .one, false, v⟩ :: s.items, s.sections⟩
  | _, s => s

def rebuild (rs : List Row) (s : Rebuilt) : Rebuilt := rs.foldr Row.place s

theorem rebuild_append (a b : List Row) (s : Rebuilt) :
    rebuild (a ++ b) s = rebuild a (rebuild b s) := List.foldr_append

def Instruction.item : Instruction → Item
  | label n a g => .label n a g
  | i => .line i.text

/-- A constant as its rows show it: visible only with a label. -/
def Constant.item (c : Constant) : Item :=
  .constant { c with isGlobal := c.isGlobal && c.label.isSome }

def Section.view : Section → String × List Item
  | code c => (".text", c.instructions.map Instruction.item)
  | data d => (".data", d.constants.map Constant.item)

theorem Alignment.eq_one {a : Alignment} (h : a.isExplicit = false) : a = .one := by
  obtain ⟨n, hn⟩ := a
  have : n = 1 := by simpa [isExplicit] using h
  subst this
  rfl

/-- An alignment that is not written down is that of single bytes. -/
theorem rebuild_alignment {a : Alignment} {s s' : Rebuilt} (h : Row.place (.align a) s = s')
    (h' : a = .one → s = s') : rebuild a.rows s = s' := by
  unfold Alignment.rows
  split_ifs with he
  · exact h
  · exact h' (Alignment.eq_one (Bool.eq_false_iff.2 he))

/-- A constant is rebuilt whatever stands below it. -/
theorem rebuild_constant (c : Constant) (s : Rebuilt) :
    rebuild c.rows s = ⟨c.item :: s.items, s.sections⟩ := by
  obtain ⟨n, a, g, v⟩ := c
  rw [Constant.rows, rebuild_append]
  cases n with
  | none =>
    show rebuild a.rows ⟨.constant ⟨none, .one, false, v⟩ :: s.items, s.sections⟩ =
      ⟨.constant ⟨none, a, g && false, v⟩ :: s.items, s.sections⟩
    rw [Bool.and_false]
    exact rebuild_alignment rfl (by rintro rfl; rfl)
  | some n =>
    show rebuild (symbolRows n a g) ⟨.constant ⟨none, .one, false, v⟩ :: s.items, s.sections⟩ = _
    rw [symbolRows, rebuild_append, rebuild_append]
    have ha : rebuild a.rows ⟨.constant ⟨some n, .one, false, v⟩ :: s.items, s.sections⟩ =
        ⟨.constant ⟨some n, a, false, v⟩ :: s.items, s.sections⟩ :=
      rebuild_alignment rfl (by rintro rfl; rfl)
    show rebuild _ (rebuild a.rows ⟨.constant ⟨some n, .one, false, v⟩ :: s.items, s.sections⟩) = _
    rw [ha]
    cases g <;> rfl

theorem rebuild_constants (cs : List Constant) (ss : List (String × List Item)) :
    rebuild (cs.flatMap Constant.rows) ⟨[], ss⟩ = ⟨cs.map Constant.item, ss⟩ := by
  induction cs with
  | nil => rfl
  | cons c cs ih => rw [List.flatMap_cons, rebuild_append, ih, rebuild_constant, List.map_cons]

/-- A label is rebuilt where no constant waits for its name. -/
theorem rebuild_label (n : String) (a : Alignment) (g : Bool) {s : Rebuilt}
    (h : ∀ c, s.items.head? ≠ some (.constant c)) :
    rebuild (symbolRows n a g) s = ⟨.label n a g :: s.items, s.sections⟩ := by
  have hn : Row.place (.name n) s = ⟨.label n .one false :: s.items, s.sections⟩ := by
    obtain ⟨items, ss⟩ := s
    cases items with
    | nil => rfl
    | cons i is =>
      cases i with
      | constant c => exact absurd rfl (h c)
      | _ => rfl
  have ha : rebuild a.rows ⟨.label n .one false :: s.items, s.sections⟩ =
      ⟨.label n a false :: s.items, s.sections⟩ := rebuild_alignment rfl (by rintro rfl; rfl)
  rw [symbolRows, rebuild_append, rebuild_append]
  show rebuild _ (rebuild a.rows (Row.place (.name n) s)) = _
  rw [hn, ha]
  cases g <;> rfl

theorem rebuild_instruction (i : Instruction) {s : Rebuilt}
    (h : ∀ c, s.items.head? ≠ some (.constant c)) :
    rebuild i.rows s = ⟨i.item :: s.items, s.sections⟩ := by
  cases i with
  | label n a g => exact rebuild_label n a g h
  | _ => rfl

theorem Instruction.item_ne_constant (i : Instruction) (c : Constant) : i.item ≠ .constant c := by
  cases i <;> exact nofun

theorem rebuild_instructions (is : List Instruction) (ss : List (String × List Item)) :
    rebuild (is.flatMap Instruction.rows) ⟨[], ss⟩ = ⟨is.map Instruction.item, ss⟩ := by
  induction is with
  | nil => rfl
  | cons i is ih =>
    rw [List.flatMap_cons, rebuild_append, ih, rebuild_instruction, List.map_cons]
    intro c hc
    rw [List.head?_map, Option.map_eq_some_iff] at hc
    obtain ⟨j, -, hj⟩ := hc
    exact j.item_ne_constant c hj

theorem rebuild_section (spaced : Bool) (s : Section) (ss : List (String × List Item)) :
    rebuild (s.rows spaced) ⟨[], ss⟩ = ⟨[], s.view :: ss⟩ := by
  have hi : rebuild s.items ⟨[], ss⟩ = ⟨s.view.2, ss⟩ := by
    cases s with
    | code c => exact rebuild_instructions _ _
    | data d => exact rebuild_constants _ _
  have hd : (s.directive, s.view.2) = s.view := by cases s <;> rfl
  rw [Section.rows, rebuild_append, rebuild_append, hi, ← hd]
  cases spaced <;> rfl

theorem rebuild_file (spaced : Bool) (f : File) :
    rebuild (f.rows spaced) ⟨[], []⟩ = ⟨[], f.sections.map Section.view⟩ := by
  unfold File.rows
  induction f.sections with
  | nil => rfl
  | cons s ss ih => rw [List.flatMap_cons, rebuild_append, ih, rebuild_section, List.map_cons]

/-! ## Structure -/

/-- What is written about a label apart from its line. -/
def Instruction.placement? : Instruction → Option (Alignment × Bool)
  | label _ a g => some (a, g)
  | _ => none

/-- The same line, and for labels the same alignment and visibility. -/
def Instruction.Similar (i j : Instruction) : Prop :=
  i.text = j.text ∧ i.placement? = j.placement?

/-- The same label, alignment and value, and the same visibility where it has an effect. -/
structure Constant.Similar (c d : Constant) : Prop where
  label : c.label = d.label
  alignment : c.alignment = d.alignment
  value : c.value = d.value
  isGlobal : c.label.isSome = true → c.isGlobal = d.isGlobal

/-- The same kind, and contents that are similar one by one. -/
def Section.Similar : Section → Section → Prop
  | code c, code d => List.Forall₂ Instruction.Similar c.instructions d.instructions
  | data c, data d => List.Forall₂ Constant.Similar c.constants d.constants
  | _, _ => False

def File.Similar (f g : File) : Prop := List.Forall₂ Section.Similar f.sections g.sections

theorem Instruction.similar_of_item_eq {i j : Instruction} (h : i.item = j.item) :
    i.Similar j := by
  cases i <;> cases j <;> simp_all [item, Similar, placement?, text]

theorem Constant.similar_of_item_eq {c d : Constant} (h : c.item = d.item) : c.Similar d := by
  obtain ⟨n, a, g, v⟩ := c
  obtain ⟨m, b, k, w⟩ := d
  simp only [item, Item.constant.injEq, Constant.mk.injEq] at h
  obtain ⟨rfl, rfl, hg, rfl⟩ := h
  refine ⟨rfl, rfl, rfl, fun hn => ?_⟩
  simpa [hn] using hg

/-- Lists with the same views are related one by one. -/
theorem forall₂_of_map_eq {α β : Type} {f : α → β} {R : α → α → Prop}
    (hR : ∀ a b, f a = f b → R a b) {as bs : List α} (h : as.map f = bs.map f) :
    List.Forall₂ R as bs := by
  rw [← List.forall₂_eq_eq_eq, List.forall₂_map_left_iff, List.forall₂_map_right_iff] at h
  exact h.imp hR

theorem Section.similar_of_view_eq {s t : Section} (h : s.view = t.view) : s.Similar t := by
  cases s with
  | code c =>
    cases t with
    | code d =>
      exact forall₂_of_map_eq (fun _ _ => Instruction.similar_of_item_eq) (Prod.ext_iff.1 h).2
    | data d => exact absurd (Prod.ext_iff.1 h).1 (by simp [view])
  | data c =>
    cases t with
    | code d => exact absurd (Prod.ext_iff.1 h).1 (by simp [view])
    | data d =>
      exact forall₂_of_map_eq (fun _ _ => Constant.similar_of_item_eq) (Prod.ext_iff.1 h).2

/-- **The output determines the structure of the file.** -/
theorem File.similar_of_emit_eq {l : Layout} (hl : l.Tidy) {f g : File}
    (hf : f.hasIdentifiers = true) (hg : g.hasIdentifiers = true)
    (h : (f.emit l).result = (g.emit l).result) : f.Similar g := by
  rw [emit_result, emit_result] at h
  have hr : readRows? (f.bytes l) = readRows? (g.bytes l) := congrArg _ (Except.ok.inj h)
  rw [readRows?_bytes hl hf, readRows?_bytes hl hg] at hr
  have hs := rebuild_file l.spaced f
  rw [Option.some.inj hr, rebuild_file] at hs
  exact forall₂_of_map_eq (fun _ _ => Section.similar_of_view_eq) (congrArg Rebuilt.sections hs).symm

/-- Two files with an anonymous constant, which is global in one of them only. -/
theorem File.similar_of_emit_eq_anonymous :
    let l : Layout := ⟨"", true, .escaped⟩
    let file (g : Bool) : File :=
      ⟨[.code ⟨[.label ".text" ⟨16, by decide⟩ true, .branch .jmp ".text"]⟩, .code .empty,
        .data ⟨[⟨none, ⟨4, by decide⟩, g, .string [0x22, 0x0A, 0x2E, 0xFF, 0x37]⟩,
          ⟨some "n", .one, true, .word (-1)⟩]⟩]⟩
    ((file true).emit l).result = ((file false).emit l).result ∧
      (file true).Similar (file false) := by
  intro l file
  have hl : l.Tidy := ⟨rfl, rfl⟩
  exact ⟨rfl, similar_of_emit_eq hl (by decide) (by decide) rfl⟩

end AttAsm
