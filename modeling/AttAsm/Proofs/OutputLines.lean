import AttAsm.Proofs.FileText
import AttAsm.Proofs.OutputText

/-!
# Lines of the output

The lines of an output are the lines of its rows (`Layout.splitOn_write_append`); a row has several
where a name or the indent contains line feeds. An escaped string has no line feed, so it lies
within one line, and two files that differ in the bytes of strings only have the same lines up to
those of the strings that differ.

1. `DifferAt` says at which indices two lists differ, and is kept by `++` and `flatMap`.
2. Constants with the same outline differ in the last of their lines (`Constant.differAt_lines`).
3. Sections and files are made of constants block by block.

Main statement: `File.lines_ne_iff_string_ne`.
-/

namespace AttAsm

/-! ## Lines of rows -/

theorem length_splitOn {α : Type} [BEq α] [LawfulBEq α] (x : α) (as : List α) :
    (as.splitOn x).length = as.count x + 1 := by
  induction as with
  | nil => rfl
  | cons a as ih =>
    rw [List.splitOn_cons_eq_if_modifyHead, List.count_cons]
    split_ifs
    · rw [List.length_cons, ih]
    · rw [List.length_modifyHead, ih]

/-- What follows `as` without the separator goes to the last part of `as`. -/
theorem exists_splitOn_append {α : Type} [BEq α] [LawfulBEq α] (x : α) (as : List α) :
    ∃ us v, us.length = as.count x ∧
      ∀ bs, x ∉ bs → (as ++ bs).splitOn x = us ++ [v ++ bs] := by
  induction as with
  | nil => exact ⟨[], [], rfl, fun bs hb => List.splitOn_eq_singleton hb⟩
  | cons a as ih =>
    obtain ⟨us, v, hl, hs⟩ := ih
    by_cases ha : (a == x) = true
    · refine ⟨[] :: us, v, ?_, fun bs hb => ?_⟩
      · rw [List.length_cons, hl, List.count_cons, if_pos ha]
      · rw [List.cons_append, List.splitOn_cons_eq_if_modifyHead, if_pos ha, hs bs hb,
          List.cons_append]
    · have hc : (a :: as).count x = us.length := by
        rw [List.count_cons, if_neg ha, hl, Nat.add_zero]
      cases us with
      | nil =>
        refine ⟨[], a :: v, hc.symm, fun bs hb => ?_⟩
        rw [List.cons_append, List.splitOn_cons_eq_if_modifyHead, if_neg ha, hs bs hb]
        rfl
      | cons u us =>
        refine ⟨(a :: u) :: us, v, hc.symm, fun bs hb => ?_⟩
        rw [List.cons_append, List.splitOn_cons_eq_if_modifyHead, if_neg ha, hs bs hb]
        rfl

namespace Layout

/-- The lines of some rows. -/
def lines (l : Layout) (rs : List Row) : List (List UInt8) :=
  rs.flatMap fun r => (r.bytes l).splitOn lineFeed

theorem lines_append (l : Layout) (a b : List Row) : l.lines (a ++ b) = l.lines a ++ l.lines b :=
  List.flatMap_append

theorem lines_flatMap {α : Type} (l : Layout) (as : List α) (rows : α → List Row) :
    l.lines (as.flatMap rows) = as.flatMap fun a => l.lines (rows a) :=
  List.flatMap_assoc

theorem splitOn_write_append (l : Layout) (rs : List Row) (bs : List UInt8) :
    (l.write rs ++ bs).splitOn lineFeed = l.lines rs ++ bs.splitOn lineFeed := by
  induction rs with
  | nil => rfl
  | cons r rs ih =>
    rw [write_cons, List.append_assoc, List.cons_append, List.splitOn_append_cons_self, ih,
      ← List.append_assoc]
    rfl

theorem splitOn_write (l : Layout) (rs : List Row) :
    (l.write rs).splitOn lineFeed = l.lines rs ++ [[]] := by
  simpa using l.splitOn_write_append rs []

/-- Each line of a row ends at a line feed. -/
theorem length_lines (l : Layout) (rs : List Row) :
    (l.lines rs).length = (l.write rs).count lineFeed := by
  have h := length_splitOn lineFeed (l.write rs)
  rw [splitOn_write, List.length_append] at h
  exact Nat.succ.inj h

end Layout

/-! ## Lists that differ at some indices -/

/-- Lists of the same length whose elements differ exactly at the indices in `S`. -/
structure DifferAt {α : Type} (a b : List α) (S : Set Nat) : Prop where
  length : a.length = b.length
  ne_iff : ∀ i, a[i]? ≠ b[i]? ↔ i ∈ S

namespace DifferAt

variable {α β : Type} {a b c d : List α} {S T : Set Nat}

theorem refl (a : List α) : DifferAt a a ∅ :=
  ⟨rfl, fun _ => iff_of_false (fun h => h rfl) (Set.notMem_empty _)⟩

theorem singleton (x y : α) : DifferAt [x] [y] {i | x ≠ y ∧ i = 0} := by
  refine ⟨rfl, fun i => ?_⟩
  cases i with
  | zero => simp
  | succ i => simp

theorem of_mem_iff (h : DifferAt a b S) (hS : ∀ i, i ∈ S ↔ i ∈ T) : DifferAt a b T :=
  ⟨h.length, fun i => (h.ne_iff i).trans (hS i)⟩

theorem lt_length (h : DifferAt a b S) {i : Nat} (hi : i ∈ S) : i < a.length := by
  by_contra hlt
  apply (h.ne_iff i).2 hi
  rw [List.getElem?_eq_none (by omega), List.getElem?_eq_none (by have := h.length; omega)]

theorem append (h : DifferAt a b S) (h' : DifferAt c d T) :
    DifferAt (a ++ c) (b ++ d) {i | i ∈ S ∨ ∃ j ∈ T, i = a.length + j} := by
  refine ⟨by rw [List.length_append, List.length_append, h.length, h'.length], fun i => ?_⟩
  by_cases hi : i < a.length
  · rw [List.getElem?_append_left hi, List.getElem?_append_left (h.length ▸ hi), h.ne_iff]
    refine ⟨Or.inl, ?_⟩
    rintro (hS | ⟨j, -, rfl⟩)
    · exact hS
    · omega
  · rw [List.getElem?_append_right (by omega),
      List.getElem?_append_right (by have := h.length; omega), ← h.length, h'.ne_iff]
    constructor
    · intro hT
      exact .inr ⟨_, hT, by omega⟩
    · rintro (hS | ⟨j, hj, rfl⟩)
      · exact absurd (h.lt_length hS) hi
      · rwa [Nat.add_sub_cancel_left]

/-- Blocks that differ one by one: an index lies behind the blocks in front of its own. -/
theorem flatMap {xs ys : List β} {F : β → List α} {S : β → β → Set Nat}
    (h : List.Forall₂ (fun x y => DifferAt (F x) (F y) (S x y)) xs ys) :
    DifferAt (xs.flatMap F) (ys.flatMap F)
      {i | ∃ j x y, xs[j]? = some x ∧ ys[j]? = some y ∧
        ∃ k ∈ S x y, i = ((xs.take j).flatMap F).length + k} := by
  induction h with
  | nil =>
    refine (refl []).of_mem_iff fun i => iff_of_false (Set.notMem_empty i) ?_
    rintro ⟨j, x, y, hx, -⟩
    exact nomatch hx
  | @cons x y xs ys hxy _ ih =>
    -- Index `j` of the tail is index `j + 1` here, with one more block in front of it.
    refine (hxy.append ih).of_mem_iff fun i => ?_
    constructor
    · rintro (hi | ⟨_, ⟨j, u, v, hu, hv, k, hk, rfl⟩, rfl⟩)
      · exact ⟨0, x, y, rfl, rfl, i, hi, by simp⟩
      · exact ⟨j + 1, u, v, hu, hv, k, hk, by simp [Nat.add_assoc]⟩
    · rintro ⟨j, u, v, hu, hv, k, hk, rfl⟩
      cases j with
      | zero =>
        cases hu
        cases hv
        exact .inl (by simpa using hk)
      | succ j => exact .inr ⟨_, ⟨j, u, v, hu, hv, k, hk, rfl⟩, by simp [Nat.add_assoc]⟩

end DifferAt

/-! ## Outlines and strings -/

/-- A value with the bytes of a string left out. -/
def Datum.outline : Datum → Datum
  | string _ => string []
  | v => v

def Constant.outline (c : Constant) : Constant := { c with value := c.value.outline }

def Section.outline : Section → Section
  | code c => code c
  | data d => data ⟨d.constants.map Constant.outline⟩

/-- A file with the bytes of its strings left out. -/
def File.outline (f : File) : File := ⟨f.sections.map Section.outline⟩

/-- The constants of a section; code has none. -/
def Section.constants : Section → List Constant
  | code _ => []
  | data d => d.constants

namespace File

/-- The constant at index `k` of section `j`. -/
def constant? (f : File) (j k : Nat) : Option Constant :=
  f.sections[j]?.bind fun s => s.constants[k]?

/-- The string at index `k` of section `j`. -/
def string? (f : File) (j k : Nat) : Option (List UInt8) :=
  (f.constant? j k).bind fun c => c.value.payload?

/-- What stands before index `k` of section `j`. -/
def before (f : File) (j k : Nat) : File :=
  ⟨f.sections.take j ++ f.sections[j]?.toList.map fun s => .data ⟨s.constants.take k⟩⟩

/-- The index of the line that has the string at index `k` of section `j`: the number of line feeds
that are written before its bytes. -/
def stringLine (l : Layout) (f : File) (j k : Nat) : Nat :=
  ((f.before j k).bytes l ++ (f.constant? j k).elim [] l.lead).count lineFeed

end File

theorem Datum.eq_or_string_of_outline_eq {v w : Datum} (h : v.outline = w.outline) :
    v = w ∨ ∃ p q, v = .string p ∧ w = .string q := by
  cases v <;> cases w <;> simp_all [outline]

theorem Section.constants_outline {s t : Section} (h : s.outline = t.outline) :
    s.constants.map Constant.outline = t.constants.map Constant.outline := by
  cases s with
  | code c =>
    cases t with
    | code d => rfl
    | data d => exact nomatch h
  | data c =>
    cases t with
    | code d => exact nomatch h
    | data d => exact congrArg Data.constants (Section.data.inj h)

/-! ## Lines of constants -/

/-- The directive that places a string. -/
def Literal.directive (bs : List UInt8) : List UInt8 :=
  Utf8.encode ".asciz \"" ++ escape bs ++ [quote]

theorem Literal.directive_inj {p q : List UInt8} (h : directive p = directive q) : p = q := by
  have he : escape p = escape q := List.append_cancel_left (List.append_cancel_right h)
  have hp := read_escape p []
  rw [he, read_escape] at hp
  exact (Prod.ext_iff.1 (Option.some.inj hp)).1.symm

theorem Literal.lineFeed_not_mem_directive (bs : List UInt8) : lineFeed ∉ directive bs := by
  have hd : lineFeed ∉ Utf8.encode ".asciz \"" := by decide
  have hq : lineFeed ∉ [quote] := by decide
  simp only [directive, List.mem_append, not_or]
  exact ⟨⟨hd, lineFeed_not_mem_escape bs⟩, hq⟩

/-- The line of a string begins with the last line of the indent. -/
theorem Layout.exists_margin {l : Layout} (hl : l.strings = .escaped) :
    ∃ us margin, us.length = (Utf8.encode l.indent).count lineFeed ∧
      ∀ bs, l.lines [.datum (.string bs)] = us ++ [margin ++ Literal.directive bs] := by
  obtain ⟨us, margin, hu, hs⟩ := exists_splitOn_append lineFeed (Utf8.encode l.indent)
  refine ⟨us, margin, hu, fun bs => ?_⟩
  have hq : Utf8.encode ".asciz \"" = Utf8.encode ".asciz" ++ Utf8.encode " " ++ [quote] := by
    decide
  rw [← hs _ (Literal.lineFeed_not_mem_directive bs)]
  simp [lines, Row.bytes, Layout.value, Layout.body, hl, Datum.directive, Literal.directive,
    Utf8.encode_append, hq]

/-- The line feeds before a string are those of the heading and of the indent. -/
theorem Layout.count_lead (l : Layout) {c : Constant} {bs : List UInt8} (h : c.value = .string bs) :
    (l.lead c).count lineFeed =
      (l.lines c.heading).length + (Utf8.encode l.indent).count lineFeed := by
  have hd : (Utf8.encode (".asciz" ++ " \"")).count lineFeed = 0 := by decide
  rw [lead, h, List.count_append, length_lines, Datum.directive, String.append_assoc,
    Utf8.encode_append, List.count_append, hd, Nat.add_zero]

theorem Constant.differAt_lines {l : Layout} (hl : l.strings = .escaped) {c d : Constant}
    (h : c.outline = d.outline) :
    DifferAt (l.lines c.rows) (l.lines d.rows)
      {i | c.value.payload? ≠ d.value.payload? ∧ i = (l.lead c).count lineFeed} := by
  obtain ⟨n, a, g, v⟩ := c
  obtain ⟨m, b, k, w⟩ := d
  simp only [outline, Constant.mk.injEq] at h
  obtain ⟨rfl, rfl, rfl, hv⟩ := h
  rcases Datum.eq_or_string_of_outline_eq hv with rfl | ⟨p, q, rfl, rfl⟩
  · refine (DifferAt.refl _).of_mem_iff fun i => iff_of_false (Set.notMem_empty i) ?_
    rintro ⟨hne, -⟩
    exact hne rfl
  · -- The headings are equal, and so are the lines of the indent before the margin.
    obtain ⟨us, margin, hu, hs⟩ := l.exists_margin hl
    have hlines (bs : List UInt8) : l.lines (rows ⟨n, a, g, .string bs⟩) =
        l.lines (heading ⟨n, a, g, .string bs⟩) ++ (us ++ [margin ++ Literal.directive bs]) := by
      rw [rows_eq, Layout.lines_append, hs bs]
    have hd := (DifferAt.refl us).append
      (DifferAt.singleton (margin ++ Literal.directive p) (margin ++ Literal.directive q))
    rw [hlines p, hlines q]
    refine ((DifferAt.refl _).append hd).of_mem_iff fun i => ?_
    have hne : margin ++ Literal.directive p ≠ margin ++ Literal.directive q ↔ some p ≠ some q :=
      not_congr ⟨fun h => congrArg some (Literal.directive_inj (List.append_cancel_left h)),
        fun h => by rw [Option.some.inj h]⟩
    rw [l.count_lead rfl, ← hu]
    constructor
    · rintro (hi | ⟨_, hi | ⟨_, ⟨hpq, rfl⟩, rfl⟩, rfl⟩)
      · exact absurd hi (Set.notMem_empty i)
      · exact absurd hi (Set.notMem_empty _)
      · exact ⟨hne.1 hpq, rfl⟩
    · rintro ⟨hpq, rfl⟩
      exact .inr ⟨_, .inr ⟨0, ⟨hne.2 hpq, rfl⟩, rfl⟩, rfl⟩

/-! ## Lines of sections and files -/

theorem flatMap_eq_append {α β : Type} {xs : List α} {i : Nat} {x : α} (h : xs[i]? = some x)
    (F : α → List β) :
    xs.flatMap F = (xs.take i).flatMap F ++ (F x ++ (xs.drop (i + 1)).flatMap F) := by
  induction xs generalizing i with
  | nil => exact nomatch h
  | cons y xs ih =>
    cases i with
    | zero =>
      cases h
      rfl
    | succ i =>
      rw [List.flatMap_cons, ih h, ← List.append_assoc]
      rfl

/-- The lines of a data section are those of its opening and then those of its constants. -/
theorem Layout.lines_data (l : Layout) (cs : List Constant) :
    l.lines (Section.rows l.spaced (.data ⟨cs⟩)) =
      l.lines (Section.rows l.spaced (.data ⟨[]⟩)) ++ cs.flatMap fun c => l.lines c.rows := by
  rw [← lines_flatMap, ← lines_append]
  simp [Section.rows, Section.items, Section.directive]

theorem Section.differAt_lines {l : Layout} (hl : l.strings = .escaped) {s t : Section}
    (h : s.outline = t.outline) :
    DifferAt (l.lines (s.rows l.spaced)) (l.lines (t.rows l.spaced))
      {i | ∃ k c d, s.constants[k]? = some c ∧ t.constants[k]? = some d ∧
        c.value.payload? ≠ d.value.payload? ∧
        i = (l.lines (Section.rows l.spaced (.data ⟨s.constants.take k⟩))).length +
          (l.lead c).count lineFeed} := by
  cases s with
  | code c =>
    cases t with
    | code d =>
      cases h
      refine (DifferAt.refl _).of_mem_iff fun i => iff_of_false (Set.notMem_empty i) ?_
      rintro ⟨k, c, d, hc, -⟩
      exact nomatch hc
    | data d => exact nomatch h
  | data c =>
    cases t with
    | code d => exact nomatch h
    | data d =>
      have hcs := forall₂_of_map_eq (fun _ _ => Constant.differAt_lines hl) (constants_outline h)
      have hlen (k n : Nat) :
          (l.lines (Section.rows l.spaced (.data ⟨c.constants.take k⟩))).length + n =
            (l.lines (Section.rows l.spaced (.data ⟨[]⟩))).length +
              (((c.constants.take k).flatMap fun c => l.lines c.rows).length + n) := by
        rw [l.lines_data (c.constants.take k), List.length_append, Nat.add_assoc]
      rw [l.lines_data c.constants, l.lines_data d.constants]
      refine ((DifferAt.refl _).append (DifferAt.flatMap hcs)).of_mem_iff fun i => ?_
      constructor
      · rintro (hi | ⟨_, ⟨k, c, d, hc, hd, _, ⟨hne, rfl⟩, rfl⟩, rfl⟩)
        · exact absurd hi (Set.notMem_empty i)
        · exact ⟨k, c, d, hc, hd, hne, (hlen k _).symm⟩
      · rintro ⟨k, c, d, hc, hd, hne, rfl⟩
        exact .inr ⟨_, ⟨k, c, d, hc, hd, _, ⟨hne, rfl⟩, rfl⟩, hlen k _⟩

namespace File

theorem string?_eq {f : File} {j k : Nat} {s : Section} {c : Constant}
    (hs : f.sections[j]? = some s) (hc : s.constants[k]? = some c) :
    f.string? j k = c.value.payload? := by
  rw [string?, constant?, hs, Option.bind_some, hc, Option.bind_some]

theorem exists_of_string? {f : File} {j k : Nat} {p : List UInt8} (h : f.string? j k = some p) :
    ∃ s c, f.sections[j]? = some s ∧ s.constants[k]? = some c ∧ c.value = .string p := by
  obtain ⟨c, hc, hp⟩ := Option.bind_eq_some_iff.1 h
  obtain ⟨s, hs, hc⟩ := Option.bind_eq_some_iff.1 hc
  exact ⟨s, c, hs, hc, Datum.eq_of_payload? hp⟩

/-- Where a file has a section and in it a constant, so has a file with the same outline. -/
theorem exists_of_outline_eq {f g : File} (h : f.outline = g.outline) {j k : Nat} {s : Section}
    {c : Constant} (hs : f.sections[j]? = some s) (hc : s.constants[k]? = some c) :
    ∃ t d, g.sections[j]? = some t ∧ t.constants[k]? = some d := by
  have hj : (f.sections.map Section.outline)[j]? = (g.sections.map Section.outline)[j]? := by
    rw [File.mk.inj h]
  rw [List.getElem?_map, List.getElem?_map, hs, Option.map_some, eq_comm,
    Option.map_eq_some_iff] at hj
  obtain ⟨t, ht, hst⟩ := hj
  have hk : (t.constants.map Constant.outline)[k]? = (s.constants.map Constant.outline)[k]? := by
    rw [Section.constants_outline hst]
  rw [List.getElem?_map, List.getElem?_map, hc, Option.map_some, Option.map_eq_some_iff] at hk
  obtain ⟨d, hd, -⟩ := hk
  exact ⟨t, d, ht, hd⟩

/-- Where strings of files with the same outline differ, both have a constant. -/
theorem exists_of_string?_ne {f g : File} (h : f.outline = g.outline) {j k : Nat}
    (hne : f.string? j k ≠ g.string? j k) :
    ∃ s t c d, f.sections[j]? = some s ∧ g.sections[j]? = some t ∧ s.constants[k]? = some c ∧
      t.constants[k]? = some d := by
  cases hf : f.string? j k with
  | some p =>
    obtain ⟨s, c, hs, hc, -⟩ := exists_of_string? hf
    obtain ⟨t, d, ht, hd⟩ := exists_of_outline_eq h hs hc
    exact ⟨s, t, c, d, hs, ht, hc, hd⟩
  | none =>
    cases hg : g.string? j k with
    | some q =>
      obtain ⟨t, d, ht, hd, -⟩ := exists_of_string? hg
      obtain ⟨s, c, hs, hc⟩ := exists_of_outline_eq h.symm ht hd
      exact ⟨s, t, c, d, hs, ht, hc, hd⟩
    | none => exact absurd (hf.trans hg.symm) hne

theorem rows_before {f : File} {j : Nat} {s : Section} (hs : f.sections[j]? = some s) (k : Nat)
    (spaced : Bool) : (f.before j k).rows spaced =
      (f.sections.take j).flatMap (Section.rows spaced) ++
        Section.rows spaced (.data ⟨s.constants.take k⟩) := by
  simp [rows, before, hs]

theorem stringLine_eq (l : Layout) {f : File} {j k : Nat} {s : Section} {c : Constant}
    (hs : f.sections[j]? = some s) (hc : s.constants[k]? = some c) : f.stringLine l j k =
      ((f.sections.take j).flatMap fun s => l.lines (s.rows l.spaced)).length +
        ((l.lines (Section.rows l.spaced (.data ⟨s.constants.take k⟩))).length +
          (l.lead c).count lineFeed) := by
  rw [stringLine, constant?, hs, Option.bind_some, hc, List.count_append, bytes_eq_write,
    ← Layout.length_lines, rows_before hs, Layout.lines_append, Layout.lines_flatMap,
    List.length_append, Nat.add_assoc]
  rfl

theorem differAt_lines {l : Layout} (hl : l.strings = .escaped) {f g : File}
    (h : f.outline = g.outline) :
    DifferAt (l.lines (f.rows l.spaced)) (l.lines (g.rows l.spaced))
      {i | ∃ j k, f.string? j k ≠ g.string? j k ∧ i = f.stringLine l j k} := by
  have hss := forall₂_of_map_eq (fun _ _ => Section.differAt_lines hl) (File.mk.inj h)
  rw [rows, rows, Layout.lines_flatMap, Layout.lines_flatMap]
  refine (DifferAt.flatMap hss).of_mem_iff fun i => ?_
  constructor
  · rintro ⟨j, s, t, hs, ht, _, ⟨k, c, d, hc, hd, hne, rfl⟩, rfl⟩
    refine ⟨j, k, ?_, (stringLine_eq l hs hc).symm⟩
    rwa [string?_eq hs hc, string?_eq ht hd]
  · rintro ⟨j, k, hne, rfl⟩
    obtain ⟨s, t, c, d, hs, ht, hc, hd⟩ := exists_of_string?_ne h hne
    rw [string?_eq hs hc, string?_eq ht hd] at hne
    exact ⟨j, s, t, hs, ht, _, ⟨k, c, d, hc, hd, hne, rfl⟩, stringLine_eq l hs hc⟩

theorem rows_eq_append {f : File} {j k : Nat} {s : Section} {c : Constant}
    (hs : f.sections[j]? = some s) (hc : s.constants[k]? = some c) (spaced : Bool) :
    ∃ rs, f.rows spaced = (f.before j k).rows spaced ++ (c.rows ++ rs) := by
  cases s with
  | code d => exact nomatch hc
  | data d =>
    have hd : d.constants[k]? = some c := hc
    refine ⟨(d.constants.drop (k + 1)).flatMap Constant.rows ++
      (f.sections.drop (j + 1)).flatMap (Section.rows spaced), ?_⟩
    rw [rows_before hs, rows, flatMap_eq_append hs]
    simp [Section.rows, Section.items, Section.directive, Section.constants, flatMap_eq_append hd]

/-- The line of a string is its directive behind the last line of the indent. -/
theorem exists_lines_stringLine {l : Layout} (hl : l.strings = .escaped) :
    ∃ margin, ∀ (f : File) j k p, f.string? j k = some p →
      (l.lines (f.rows l.spaced))[f.stringLine l j k]? = some (margin ++ Literal.directive p) := by
  obtain ⟨us, margin, hu, hm⟩ := l.exists_margin hl
  refine ⟨margin, fun f j k p h => ?_⟩
  obtain ⟨s, c, hs, hc, hp⟩ := exists_of_string? h
  obtain ⟨rs, hrs⟩ := rows_eq_append hs hc l.spaced
  have hlines : l.lines (f.rows l.spaced) =
      l.lines ((f.before j k).rows l.spaced) ++ l.lines c.heading ++ us ++
        (margin ++ Literal.directive p) :: l.lines rs := by
    rw [hrs, Constant.rows_eq, hp, Layout.lines_append, Layout.lines_append, Layout.lines_append,
      hm p]
    simp
  have hlen : f.stringLine l j k =
      (l.lines ((f.before j k).rows l.spaced) ++ l.lines c.heading ++ us).length := by
    rw [stringLine_eq l hs hc, l.count_lead hp, List.length_append, List.length_append,
      rows_before hs, Layout.lines_append, Layout.lines_flatMap, List.length_append, hu]
    omega
  rw [hlines, hlen, List.getElem?_append_right (Nat.le_refl _), Nat.sub_self]
  rfl

/-- **Escaped strings stay within their lines.** Files that differ in the bytes of strings only have
the same lines, up to those of the strings that differ, and these do differ. Names and the indent may
be any texts. -/
theorem lines_ne_iff_string_ne {l : Layout} (hl : l.strings = .escaped) {f g : File}
    (h : f.outline = g.outline) :
    ∃ a b margin, (f.emit l).result = .ok a ∧ (g.emit l).result = .ok b ∧
      (a.splitOn lineFeed).length = (b.splitOn lineFeed).length ∧
      (∀ i, (a.splitOn lineFeed)[i]? ≠ (b.splitOn lineFeed)[i]? ↔
        ∃ j k, f.string? j k ≠ g.string? j k ∧ i = f.stringLine l j k) ∧
      ∀ j k p, f.string? j k = some p →
        (a.splitOn lineFeed)[f.stringLine l j k]? = some (margin ++ Literal.directive p) := by
  obtain ⟨margin, hm⟩ := exists_lines_stringLine hl
  -- Both outputs have an empty line after the last line feed.
  have hd := ((differAt_lines hl h).append (DifferAt.refl [[]])).of_mem_iff fun i =>
    or_iff_left fun ⟨_, hj, _⟩ => Set.notMem_empty _ hj
  refine ⟨f.bytes l, g.bytes l, margin, emit_result l f, emit_result l g, ?_⟩
  rw [bytes_eq_write, bytes_eq_write, Layout.splitOn_write, Layout.splitOn_write]
  refine ⟨hd.length, hd.ne_iff, fun j k p hp => ?_⟩
  have hline := hm f j k p hp
  rwa [List.getElem?_append_left (List.getElem?_eq_some_iff.1 hline).1]

/-- A quote and line feeds against a backslash, behind names and an indent that contain line feeds:
the string is on the twelfth line of both outputs. -/
theorem lines_ne_iff_string_ne_breaks :
    let l : Layout := ⟨"\n ", true, .escaped⟩
    let file (p : List UInt8) : File :=
      ⟨[.code ⟨[.localLabel "a\nb"]⟩,
        .data ⟨[⟨some "\n\"", .one, false, .string p⟩, ⟨none, .one, true, .word 7⟩]⟩]⟩
    (file [0x22, 0x0A, 0x0A]).outline = (file [0x5C]).outline ∧
      ∃ a b, ((file [0x22, 0x0A, 0x0A]).emit l).result = .ok a ∧
        ((file [0x5C]).emit l).result = .ok b ∧
        (a.splitOn lineFeed).length = (b.splitOn lineFeed).length ∧
        (a.splitOn lineFeed)[11]? ≠ (b.splitOn lineFeed)[11]? := by
  intro l file
  obtain ⟨a, b, -, ha, hb, hlen, hne, -⟩ :=
    lines_ne_iff_string_ne (l := l) rfl (f := file [0x22, 0x0A, 0x0A]) (g := file [0x5C]) rfl
  exact ⟨rfl, a, b, ha, hb, hlen, (hne 11).2 ⟨1, 0, by decide, by decide⟩⟩

end File

end AttAsm
