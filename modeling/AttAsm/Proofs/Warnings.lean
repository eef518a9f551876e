import AttAsm.Proofs.OutputLines

/-!
# Warnings

Where strings are written as they are, emission warns of each one with a byte that would have been
escaped: `Literal.disturbs` and `Literal.escapeByte` are separate lists of bytes that agree on ASCII
(`Literal.disturbs_eq_isAltered`). Escaping never shortens a string, and a string that keeps its
length keeps its bytes. So the two forms of a file are the same only if no string is changed,
whatever stands around it (`File.bytes_eq_iff`).

Main statement: `File.warnings_emit`.
-/

namespace AttAsm

/-! ## Bytes that escaping changes -/

namespace Literal

/-- An ASCII byte that is changed by escaping. -/
def isAltered (b : UInt8) : Bool := b < 0x80 && escape [b] != [b]

theorem escape_singleton (b : UInt8) : escape [b] = escapeByte b := List.append_nil _

theorem escapeByte_eq_self_iff (b : UInt8) :
    escapeByte b = [b] ↔ isPrintable b = true ∧ b ≠ 0x22 ∧ b ≠ 0x5C := by
  unfold escapeByte
  split_ifs with h1 h2 h3 h4 h5 h6
  · simp [h1]
  · simp [h2]
  · exact iff_of_false (by simp) (by rw [h3]; decide)
  · exact iff_of_false (by simp) (by rw [h4]; decide)
  · exact iff_of_false (by simp) (by rw [h5]; decide)
  · simp [h6, h1, h2]
  · exact iff_of_false (by simp) (by simp [h6])

/-- The bytes that disturb a reader are those that escaping changes. -/
theorem disturbs_eq_isAltered (b : UInt8) : disturbs b = isAltered b := by
  rw [Bool.eq_iff_iff, isAltered, Bool.and_eq_true, bne_iff_ne, escape_singleton, Ne,
    escapeByte_eq_self_iff, isPrintable_iff]
  simp only [disturbs, Bool.or_eq_true, beq_iff_eq, decide_eq_true_eq, UInt8.lt_iff_toNat_lt,
    ← UInt8.toNat_inj, Ne, UInt8.reduceToNat]
  omega

theorem escape_cons (b : UInt8) (bs : List UInt8) : escape (b :: bs) = escapeByte b ++ escape bs :=
  rfl

theorem length_escapeByte_pos (b : UInt8) : 1 ≤ (escapeByte b).length := by
  unfold escapeByte
  split_ifs <;> exact Nat.le_add_left 1 _

/-- Only a byte that stays as it is takes one byte. -/
theorem escapeByte_eq_of_length {b : UInt8} (h : (escapeByte b).length = 1) :
    escapeByte b = [b] := by
  unfold escapeByte at h ⊢
  split_ifs at h ⊢
  all_goals first
    | rfl
    | exact absurd h (by simp)

theorem length_le_length_escape (bs : List UInt8) : bs.length ≤ (escape bs).length := by
  induction bs with
  | nil => exact Nat.le_refl _
  | cons b bs ih =>
    have hb := length_escapeByte_pos b
    rw [escape_cons, List.length_append, List.length_cons]
    omega

/-- A string that keeps its length keeps its bytes. -/
theorem escapeByte_eq_of_length_eq {bs : List UInt8} (h : (escape bs).length = bs.length) :
    ∀ b ∈ bs, escapeByte b = [b] := by
  induction bs with
  | nil => nofun
  | cons b bs ih =>
    have hb := length_escapeByte_pos b
    have hbs := length_le_length_escape bs
    rw [escape_cons, List.length_append, List.length_cons] at h
    exact List.forall_mem_cons.2 ⟨escapeByte_eq_of_length (by omega), ih (by omega)⟩

theorem escape_eq_self {bs : List UInt8} (h : ∀ b ∈ bs, escapeByte b = [b]) : escape bs = bs := by
  induction bs with
  | nil => rfl
  | cons b bs ih =>
    obtain ⟨hb, hbs⟩ := List.forall_mem_cons.1 h
    rw [escape_cons, hb, ih hbs]
    rfl

end Literal

/-! ## Output with and without escaping -/

section

variable (indent : String) (spaced : Bool)

theorem Row.length_bytes_le (r : Row) :
    (r.bytes ⟨indent, spaced, .verbatim⟩).length ≤ (r.bytes ⟨indent, spaced, .escaped⟩).length := by
  cases r with
  | datum v =>
    cases v with
    | string bs =>
      have := Literal.length_le_length_escape bs
      simpa [bytes, Layout.value, Layout.body] using this
    | _ => exact Nat.le_refl _
  | _ => exact Nat.le_refl _

theorem Layout.length_write_le (rs : List Row) :
    (write ⟨indent, spaced, .verbatim⟩ rs).length ≤
      (write ⟨indent, spaced, .escaped⟩ rs).length := by
  induction rs with
  | nil => exact Nat.le_refl _
  | cons r rs ih =>
    have hr := r.length_bytes_le indent spaced
    rw [write_cons, write_cons, List.length_append, List.length_append, List.length_cons,
      List.length_cons]
    omega

variable {indent spaced}

/-- A change in one row is not made up for by the others. -/
theorem Layout.length_escape_of_write {rs : List Row}
    (h : (write ⟨indent, spaced, .verbatim⟩ rs).length =
      (write ⟨indent, spaced, .escaped⟩ rs).length) :
    ∀ bs, .datum (.string bs) ∈ rs → (Literal.escape bs).length = bs.length := by
  induction rs with
  | nil => nofun
  | cons r rs ih =>
    have hr := r.length_bytes_le indent spaced
    have hrs := length_write_le indent spaced rs
    rw [write_cons, write_cons, List.length_append, List.length_append, List.length_cons,
      List.length_cons] at h
    -- Neither the row nor the rest can be shorter, so both keep their lengths.
    intro bs hbs
    rcases List.mem_cons.1 hbs with rfl | hbs
    · have hlen : (Row.bytes ⟨indent, spaced, .verbatim⟩ (.datum (.string bs))).length =
          (Row.bytes ⟨indent, spaced, .escaped⟩ (.datum (.string bs))).length := by omega
      simpa [Row.bytes, value, body, eq_comm] using hlen
    · exact ih (by omega) bs hbs

theorem Layout.write_eq_of_escape_eq {rs : List Row}
    (h : ∀ bs, .datum (.string bs) ∈ rs → Literal.escape bs = bs) :
    write ⟨indent, spaced, .verbatim⟩ rs = write ⟨indent, spaced, .escaped⟩ rs := by
  unfold write
  refine List.flatMap_congr fun r hr => ?_
  cases r with
  | datum v =>
    cases v with
    | string bs => simp [Row.bytes, value, body, h bs hr]
    | _ => rfl
  | _ => rfl

end

/-- The strings of a file are in its rows. -/
theorem File.mem_rows_of_mem_payloads {f : File} {bs : List UInt8} (h : bs ∈ f.payloads)
    (spaced : Bool) : .datum (.string bs) ∈ f.rows spaced := by
  obtain ⟨s, hs, h⟩ := List.mem_flatMap.1 h
  cases s with
  | code c => exact nomatch h
  | data d =>
    obtain ⟨c, hc, hp⟩ := List.mem_filterMap.1 h
    have hrow : .datum (.string bs) ∈ c.rows := by
      rw [Constant.rows_eq, Datum.eq_of_payload? hp]
      exact List.mem_append_right _ List.mem_cons_self
    refine List.mem_flatMap.2 ⟨_, hs, List.mem_append_right _ ?_⟩
    exact List.mem_flatMap.2 ⟨c, hc, hrow⟩

theorem File.bytes_eq_iff (f : File) (indent : String) (spaced : Bool) :
    f.bytes ⟨indent, spaced, .verbatim⟩ = f.bytes ⟨indent, spaced, .escaped⟩ ↔
      ∀ bs ∈ f.payloads, ∀ b ∈ bs, Literal.escapeByte b = [b] := by
  rw [bytes_eq_write, bytes_eq_write]
  constructor
  · intro h bs hbs
    exact Literal.escapeByte_eq_of_length_eq
      (Layout.length_escape_of_write (congrArg List.length h) bs (mem_rows_of_mem_payloads hbs _))
  · intro h
    refine Layout.write_eq_of_escape_eq fun bs hbs => ?_
    exact Literal.escape_eq_self (h bs (mem_payloads_of_mem_rows hbs))

/-! ## Warnings of a log -/

/-- The warnings among some records. -/
def warnings (log : List Record) : List Record := log.filter fun r => r.level = .warn

theorem warnings_append (a b : List Record) : warnings (a ++ b) = warnings a ++ warnings b :=
  List.filter_append a b

namespace Event

/-- The warnings that events note. -/
def warned (es : List Event) : List Record := warnings (noted es)

theorem warned_append (a b : List Event) : warned (a ++ b) = warned a ++ warned b := by
  rw [warned, noted_append, warnings_append]
  rfl

theorem warned_flatMap {α : Type} (as : List α) (events : α → List Event) :
    warned (as.flatMap events) = as.flatMap fun a => warned (events a) := by
  induction as with
  | nil => rfl
  | cons a as ih => rw [List.flatMap_cons, warned_append, ih, List.flatMap_cons]

theorem warned_note_of_ne {r : Record} (h : r.level ≠ .warn) (es : List Event) :
    warned (.note r :: es) = warned es := by
  show warnings (r :: noted es) = warnings (noted es)
  exact List.filter_cons_of_neg (by simpa using h)

end Event

namespace Layout

open Event

variable (l : Layout)

theorem warned_alignment (a : Alignment) : warned (l.alignment a) = [] := by
  unfold alignment
  split_ifs <;> rfl

theorem warned_symbol (name : String) (a : Alignment) (g : Bool) :
    warned (l.symbol name a g) = [] := by
  unfold symbol
  rw [warned_append, warned_append, warned_alignment]
  cases g <;> rfl

theorem warned_emitInstruction (i : Instruction) : warned (l.emitInstruction i) = [] := by
  unfold emitInstruction
  rw [warned_note_of_ne (by simp)]
  cases i with
  | label name a g => exact warned_symbol l name a g
  | _ => rfl

end Layout

/-- The string of a constant has an ASCII byte that is changed by escaping. -/
def Constant.isAltered (c : Constant) : Bool :=
  c.value.payload?.any fun bs => bs.any Literal.isAltered

/-- The warning about the string of a constant. -/
def Constant.warning (c : Constant) : Record :=
  ⟨.warn, "String constant " ++ c.label.getD "<anonymous>"
    ++ " contains bytes emitted without escaping"⟩

namespace Layout

open Event

variable {l : Layout} (hl : l.strings = .verbatim)

include hl

theorem warned_datum (c : Constant) :
    warned (l.datum c.label c.value) = if c.isAltered then [c.warning] else [] := by
  have hd : Literal.disturbs = Literal.isAltered := funext Literal.disturbs_eq_isAltered
  unfold datum Constant.isAltered
  cases c.value with
  | string bs =>
    cases hb : bs.any Literal.isAltered <;>
      simp [payload, hl, hd, hb, Datum.payload?, warned, warnings, noted, Constant.warning]
  | _ => rfl

theorem warned_emitConstant (c : Constant) :
    warned (l.emitConstant c) = if c.isAltered then [c.warning] else [] := by
  unfold emitConstant
  rw [warned_append, warned_datum hl]
  cases c.label with
  | none => rw [warned_alignment]; rfl
  | some name => rw [warned_symbol]; rfl

theorem warned_emitSection (s : Section) :
    warned (l.emitSection s) = (s.constants.filter Constant.isAltered).map Constant.warning := by
  have hopen : warned ((if l.spaced then emptyLine else []) ++ l.indented s.directive) = [] := by
    cases l.spaced <;> rfl
  unfold emitSection
  rw [warned_append, hopen, List.nil_append]
  cases s with
  | code c =>
    unfold contents
    rw [warned_note_of_ne (by simp), warned_flatMap]
    simp [warned_emitInstruction, Section.constants]
  | data d =>
    unfold contents
    rw [warned_note_of_ne (by simp), warned_flatMap]
    simp only [warned_emitConstant hl, Section.constants]
    induction d.constants with
    | nil => rfl
    | cons c cs ih =>
      rw [List.flatMap_cons, ih, List.filter_cons]
      split_ifs <;> rfl

end Layout

namespace File

/-- The constants of a file. -/
def constants (f : File) : List Constant := f.sections.flatMap Section.constants

theorem payloads_eq (f : File) : f.payloads = f.constants.filterMap fun c => c.value.payload? := by
  unfold payloads constants
  rw [List.filterMap_flatMap]
  congr 1
  funext s
  cases s <;> rfl

theorem log_emit (l : Layout) (f : File) : ∃ n : Nat, (f.emit l).log =
    Event.noted (l.emitFile f) ++ [⟨.debug, "Emitted " ++ toString n ++ " lines"⟩] := by
  obtain ⟨_, hlog, he⟩ := Sink.run_unlimited .unlimited rfl (l.emitFile f)
  have hf : (Sink.unlimited.run (l.emitFile f)).sink.flushFailure = none :=
    Sink.run_flushFailure _ _
  refine ⟨0 + (Sink.unlimited.run (l.emitFile f)).lines, ?_⟩
  simp only [emit, emitTo, Writer.write, Writer.Item.events, Writer.start, he, Option.map_none,
    Writer.finish, hf]
  rw [Logged.log_bind_of_ok rfl, hlog]
  rfl

theorem warnings_log_emit {l : Layout} (hl : l.strings = .verbatim) (f : File) :
    warnings (f.emit l).log = (f.constants.filter Constant.isAltered).map Constant.warning := by
  obtain ⟨n, hlog⟩ := f.log_emit l
  have hfile : Event.warned (l.emitFile f) =
      (f.constants.filter Constant.isAltered).map Constant.warning := by
    unfold Layout.emitFile constants
    rw [Event.warned_note_of_ne (by simp), Event.warned_flatMap, List.filter_flatMap,
      List.map_flatMap]
    simp only [Layout.warned_emitSection hl]
  rw [hlog, warnings_append]
  exact (congrArg (· ++ []) hfile).trans (List.append_nil _)

theorem forall_not_isAltered_iff (f : File) :
    (∀ c ∈ f.constants, ¬ c.isAltered = true) ↔
      ∀ bs ∈ f.payloads, ∀ b ∈ bs, ¬ Literal.isAltered b = true := by
  rw [payloads_eq]
  constructor
  · intro h bs hbs b hb ha
    obtain ⟨c, hc, hp⟩ := List.mem_filterMap.1 hbs
    refine h c hc ?_
    rw [Constant.isAltered, hp]
    exact List.any_eq_true.2 ⟨b, hb, ha⟩
  · intro h c hc ha
    unfold Constant.isAltered at ha
    cases hp : c.value.payload? with
    | none => rw [hp] at ha; exact nomatch ha
    | some bs =>
      rw [hp] at ha
      obtain ⟨b, hb, hba⟩ := List.any_eq_true.1 ha
      exact h bs (List.mem_filterMap.2 ⟨c, hc, hp⟩) b hb hba

/-- **Verbatim and escaped strings agree where no warning is due.** There is one warning for each
string with an ASCII byte that escaping would change, in the order of the file. -/
theorem warnings_emit (f : File) (indent : String) (spaced : Bool) :
    ∃ a b, (f.emit ⟨indent, spaced, .verbatim⟩).result = .ok a ∧
      (f.emit ⟨indent, spaced, .escaped⟩).result = .ok b ∧
      warnings (f.emit ⟨indent, spaced, .verbatim⟩).log =
        (f.constants.filter Constant.isAltered).map Constant.warning ∧
      ((∀ bs ∈ f.payloads, ∀ x ∈ bs, x < 0x80) →
        (warnings (f.emit ⟨indent, spaced, .verbatim⟩).log = [] ↔ a = b)) := by
  refine ⟨_, _, emit_result _ f, emit_result _ f, warnings_log_emit rfl f, fun hascii => ?_⟩
  rw [warnings_log_emit rfl f, bytes_eq_iff, List.map_eq_nil_iff, List.filter_eq_nil_iff,
    forall_not_isAltered_iff]
  refine forall₂_congr fun bs hbs => forall₂_congr fun x hx => ?_
  rw [Literal.isAltered, Literal.escape_singleton, decide_eq_true (hascii bs hbs x hx),
    Bool.true_and, bne_iff_ne, not_not]

-- Outside ASCII there is no warning, although the forms differ.
example : warnings (emit .standard ⟨[.data ⟨[.string "a" [0xC3, 0xA9]]⟩]⟩).log = [] ∧
    bytes .standard ⟨[.data ⟨[.string "a" [0xC3, 0xA9]]⟩]⟩ ≠
      bytes ⟨"\t", false, .escaped⟩ ⟨[.data ⟨[.string "a" [0xC3, 0xA9]]⟩]⟩ := by decide

end File

end AttAsm
