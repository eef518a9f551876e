import AttAsm.Proofs.Rows
import AttAsm.Proofs.Utf8Text

/-!
# Output as text

All that emission writes is text, but for the strings of constants that are written as they are. Such
a string stands between two quotes, and a quote is never part of a longer character. So the output is
text exactly when each string is (`File.valid_bytes_iff`), and otherwise its first fault is that of the
first string that is none.

Main statement: `File.emitText_cases`.
-/

namespace AttAsm

open Utf8 (Valid)

/-! ## Strings of a file -/

/-- The strings of a section. -/
def Section.payloads : Section → List (List UInt8)
  | code _ => []
  | data d => d.constants.filterMap fun c => c.value.payload?

/-- The strings of a file. -/
def File.payloads (f : File) : List (List UInt8) := f.sections.flatMap Section.payloads

/-- What is written of a constant before the line of its value. -/
def Constant.heading (c : Constant) : List Row :=
  match c.label with
  | some name => symbolRows name c.alignment c.isGlobal
  | none => c.alignment.rows

theorem Constant.rows_eq (c : Constant) : c.rows = c.heading ++ [.datum c.value] := rfl

/-- What is written of a constant before the payload of its string. -/
def Layout.lead (l : Layout) (c : Constant) : List UInt8 :=
  l.write c.heading ++ Utf8.encode (l.indent ++ c.value.directive ++ " \"")

/-- A string is the only part of a constant's lines that depends on the payload. -/
theorem Layout.write_rows_of_string (l : Layout) {c : Constant} {bs : List UInt8}
    (h : c.value = .string bs) :
    l.write c.rows = l.lead c ++ l.body bs ++ [quote, lineFeed] := by
  have hq : Utf8.encode " \"" = Utf8.encode " " ++ [quote] := by decide
  rw [Constant.rows_eq, Layout.write_append, lead, h]
  simp [Row.bytes, Layout.value, Utf8.encode_append, hq]

theorem Layout.body_of_verbatim {l : Layout} (h : l.strings = .verbatim) (bs : List UInt8) :
    l.body bs = bs := by
  unfold body
  rw [h]

/-! ## Text around the strings -/

/-- Escaped strings are text. -/
theorem Layout.valid_body {l : Layout} {bs : List UInt8} (h : l.strings = .escaped ∨ Valid bs) :
    Valid (l.body bs) := by
  cases hs : l.strings with
  | escaped =>
    unfold body
    rw [hs]
    apply Utf8.valid_of_lt
    intro b hb
    have := (Literal.isPrintable_iff b).1 (Literal.isPrintable_of_mem_escape hb)
    omega
  | verbatim =>
    rw [hs] at h
    rw [body_of_verbatim hs]
    exact h.resolve_left nofun

/-- A row is text unless it has a string that is none. -/
theorem Row.valid_bytes {l : Layout} {r : Row}
    (h : ∀ bs, r = .datum (.string bs) → Valid (l.body bs)) : Valid (r.bytes l) := by
  cases r with
  | empty => exact ⟨"", rfl⟩
  | datum v =>
    refine (Utf8.valid_encode _).append ?_
    cases v with
    | string bs =>
      have hq : Valid [quote] := ⟨"\"", by decide⟩
      exact hq.append ((h bs rfl).append hq)
    | _ => exact Utf8.valid_encode _
  | _ => exact Utf8.valid_encode _

theorem Layout.valid_write {l : Layout} {rs : List Row}
    (h : ∀ bs, .datum (.string bs) ∈ rs → Valid (l.body bs)) : Valid (l.write rs) := by
  induction rs with
  | nil => exact ⟨"", rfl⟩
  | cons r rs ih =>
    have hf : Valid [lineFeed] := ⟨"\n", by decide⟩
    rw [write_cons]
    refine (Row.valid_bytes ?_).append (hf.append (ih ?_))
    · rintro bs rfl
      exact h bs List.mem_cons_self
    · intro bs hbs
      exact h bs (List.mem_cons_of_mem _ hbs)

theorem datum_not_mem_alignment_rows {a : Alignment} {v : Datum} : .datum v ∉ a.rows := by
  unfold Alignment.rows
  split_ifs <;> simp

theorem datum_not_mem_symbolRows {name : String} {a : Alignment} {g : Bool} {v : Datum} :
    .datum v ∉ symbolRows name a g := by
  unfold symbolRows
  cases g <;> simp [datum_not_mem_alignment_rows]

theorem Constant.datum_not_mem_heading {c : Constant} {v : Datum} : .datum v ∉ c.heading := by
  unfold heading
  cases c.label with
  | none => exact datum_not_mem_alignment_rows
  | some name => exact datum_not_mem_symbolRows

theorem Layout.valid_lead (l : Layout) (c : Constant) : Valid (l.lead c) :=
  (valid_write fun _ h => absurd h Constant.datum_not_mem_heading).append (Utf8.valid_encode _)

/-- The strings in the rows of a file are its strings. -/
theorem File.mem_payloads_of_mem_rows {f : File} {spaced : Bool} {bs : List UInt8}
    (h : .datum (.string bs) ∈ f.rows spaced) : bs ∈ f.payloads := by
  obtain ⟨s, hs, h⟩ := List.mem_flatMap.1 h
  refine List.mem_flatMap.2 ⟨s, hs, ?_⟩
  have hi : .datum (.string bs) ∈ s.items := by
    unfold Section.rows at h
    cases spaced <;> simpa using h
  cases s with
  | code c =>
    obtain ⟨i, -, hi⟩ := List.mem_flatMap.1 hi
    cases i with
    | label name a g => exact absurd hi datum_not_mem_symbolRows
    | _ => simp [Instruction.rows] at hi
  | data d =>
    obtain ⟨c, hc, hi⟩ := List.mem_flatMap.1 hi
    rw [Constant.rows_eq, List.mem_append, List.mem_singleton] at hi
    refine List.mem_filterMap.2 ⟨c, hc, ?_⟩
    rw [← Row.datum.inj (hi.resolve_left Constant.datum_not_mem_heading)]
    rfl

theorem File.valid_bytes {l : Layout} {f : File}
    (h : l.strings = .escaped ∨ ∀ bs ∈ f.payloads, Valid bs) : Valid (f.bytes l) := by
  rw [bytes_eq_write]
  apply Layout.valid_write
  intro bs hbs
  exact Layout.valid_body (h.imp_right fun h => h bs (mem_payloads_of_mem_rows hbs))

/-! ## The first string that is no text -/

/-- `bs` is the first string of `f` that is no text. It is the value of `c`, and `ahead` is what stands
in `f` before `c`. -/
structure File.FirstFault (f ahead : File) (c : Constant) (bs : List UInt8) : Prop where
  place : ∃ ss cs cs' ss', f.sections = ss ++ .data ⟨cs ++ c :: cs'⟩ :: ss' ∧
    ahead.sections = ss ++ [.data ⟨cs⟩]
  value : c.value = .string bs
  valid : ∀ p ∈ ahead.payloads, Valid p
  invalid : ¬ Valid bs

/-- The first element with a property. -/
theorem exists_first {α : Type} {p : α → Prop} {xs : List α} (h : ∃ x ∈ xs, p x) :
    ∃ as x bs, xs = as ++ x :: bs ∧ p x ∧ ∀ a ∈ as, ¬ p a := by
  classical
  obtain ⟨y, hy, hp⟩ := h
  have hs : (xs.find? fun x => decide (p x)).isSome := List.find?_isSome.2 ⟨y, hy, decide_eq_true hp⟩
  obtain ⟨x, hx⟩ := Option.isSome_iff_exists.1 hs
  obtain ⟨hp, as, bs, hxs, has⟩ := List.find?_eq_some_iff_append.1 hx
  exact ⟨as, x, bs, hxs, of_decide_eq_true hp, fun a ha => by simpa using has a ha⟩

theorem Datum.eq_of_payload? {v : Datum} {bs : List UInt8} (h : v.payload? = some bs) :
    v = .string bs := by
  cases v with
  | string b => exact congrArg _ (Option.some.inj h)
  | _ => cases h

theorem File.exists_firstFault {f : File} (h : ∃ p ∈ f.payloads, ¬ Valid p) :
    ∃ ahead c bs, f.FirstFault ahead c bs := by
  obtain ⟨p, hp, hv⟩ := h
  obtain ⟨s, hs, hp⟩ := List.mem_flatMap.1 hp
  obtain ⟨ss, s, ss', hsec, ⟨q, hq, hqv⟩, hss⟩ :=
    exists_first (p := fun s => ∃ q ∈ Section.payloads s, ¬ Valid q) ⟨s, hs, p, hp, hv⟩
  cases s with
  | code c => exact nomatch hq
  | data d =>
    obtain ⟨c, hc, hcq⟩ := List.mem_filterMap.1 hq
    obtain ⟨cs, c, cs', hcs, ⟨bs, hbs, hbv⟩, hcs'⟩ :=
      exists_first (p := fun c => ∃ q, c.value.payload? = some q ∧ ¬ Valid q) ⟨c, hc, q, hcq, hqv⟩
    refine ⟨⟨ss ++ [.data ⟨cs⟩]⟩, c, bs, ⟨ss, cs, cs', ss', ?_, rfl⟩, Datum.eq_of_payload? hbs, ?_, hbv⟩
    · rw [hsec, ← hcs]
    · intro p hp
      by_contra hpv
      obtain ⟨s, hs, hp⟩ := List.mem_flatMap.1 hp
      rcases List.mem_append.1 hs with hs | hs
      · exact hss s hs ⟨p, hp, hpv⟩
      · rw [List.mem_singleton.1 hs] at hp
        obtain ⟨c, hc, hcp⟩ := List.mem_filterMap.1 hp
        exact hcs' c hc ⟨p, hcp, hpv⟩

namespace File.FirstFault

variable {f ahead : File} {c : Constant} {bs : List UInt8}

theorem rows_eq (h : f.FirstFault ahead c bs) (spaced : Bool) :
    ∃ rs, f.rows spaced = ahead.rows spaced ++ c.rows ++ rs := by
  obtain ⟨ss, cs, cs', ss', hf, ha⟩ := h.place
  refine ⟨cs'.flatMap Constant.rows ++ ss'.flatMap (Section.rows spaced), ?_⟩
  unfold File.rows
  rw [hf, ha]
  simp [Section.rows, Section.items, Section.directive]

/-- The string stands in the output behind what is ahead of it, and in front of a quote. -/
theorem bytes_eq (h : f.FirstFault ahead c bs) (l : Layout) :
    ∃ after, f.bytes l = ahead.bytes l ++ l.lead c ++ l.body bs ++ quote :: after := by
  obtain ⟨rs, hrs⟩ := h.rows_eq l.spaced
  refine ⟨lineFeed :: l.write rs, ?_⟩
  rw [bytes_eq_write, bytes_eq_write, hrs, Layout.write_append, Layout.write_append,
    l.write_rows_of_string h.value]
  simp

/-- The fault of the string is that of the output, at its place there. -/
theorem decode_bytes (h : f.FirstFault ahead c bs) {l : Layout} (hl : l.strings = .verbatim)
    {fault : Utf8.Fault} (hb : Utf8.decode bs = .error fault) :
    Utf8.decode (f.bytes l) =
      .error ⟨(ahead.bytes l ++ l.lead c).length + fault.index, fault.length⟩ := by
  obtain ⟨after, ha⟩ := h.bytes_eq l
  rw [ha, Layout.body_of_verbatim hl]
  exact Utf8.decode_append ((valid_bytes (.inr h.valid)).append (l.valid_lead c)) hb (by decide) after

end File.FirstFault

namespace File

theorem firstFault_of_not {l : Layout} {f : File}
    (h : ¬ (l.strings = .escaped ∨ ∀ bs ∈ f.payloads, Valid bs)) :
    l.strings = .verbatim ∧ ∃ ahead c bs, f.FirstFault ahead c bs := by
  rw [not_or] at h
  refine ⟨?_, exists_firstFault (by simpa using h.2)⟩
  cases hl : l.strings with
  | escaped => exact absurd hl h.1
  | verbatim => rfl

theorem valid_bytes_iff {l : Layout} {f : File} :
    Valid (f.bytes l) ↔ l.strings = .escaped ∨ ∀ bs ∈ f.payloads, Valid bs := by
  refine ⟨fun h => ?_, valid_bytes⟩
  by_contra hc
  obtain ⟨hl, ahead, c, bs, hf⟩ := firstFault_of_not hc
  obtain ⟨fault, hb⟩ := Utf8.not_valid_iff.1 hf.invalid
  exact Utf8.not_valid_iff.2 ⟨_, hf.decode_bytes hl hb⟩ h

theorem emitText_result (l : Layout) (f : File) :
    (f.emitText l).result = (Utf8.decode (f.bytes l)).mapError .notText := by
  unfold emitText
  rw [Logged.result_bind, emit_result]
  rfl

/-- **Emission to a text fails exactly on strings that are none**, at the place of the first one. -/
theorem emitText_cases (l : Layout) (f : File) :
    ((∃ s, (f.emitText l).result = .ok s) ↔
      l.strings = .escaped ∨ ∀ bs ∈ f.payloads, Valid bs) ∧
    (∀ s, (f.emitText l).result = .ok s → (f.emit l).result = .ok (Utf8.encode s)) ∧
    ∀ e, (f.emitText l).result = .error e → ∃ fault out, e = .notText fault ∧
      e.kind = .invalidData ∧ (f.emit l).result = .ok out ∧
      IsGreatest (Utf8.readable out) fault.index ∧
      ∃ ahead c bs after n, f.FirstFault ahead c bs ∧
        out = ahead.bytes l ++ l.lead c ++ bs ++ after ∧ IsGreatest (Utf8.readable bs) n ∧
        fault.index = (ahead.bytes l ++ l.lead c).length + n := by
  rw [emitText_result, emit_result, ← valid_bytes_iff]
  cases hd : Utf8.decode (f.bytes l) with
  | ok s =>
    have hs := Utf8.decode_eq_ok_iff.1 hd
    refine ⟨iff_of_true ⟨s, rfl⟩ ⟨s, hs⟩, ?_, nofun⟩
    intro s' h
    cases h
    rw [hs]
  | error fault =>
    have hv : ¬ Valid (f.bytes l) := Utf8.not_valid_iff.2 ⟨fault, hd⟩
    refine ⟨iff_of_false nofun hv, nofun, ?_⟩
    intro e h
    cases h
    obtain ⟨hl, ahead, c, bs, hf⟩ := firstFault_of_not (valid_bytes_iff.not.1 hv)
    obtain ⟨g, hg⟩ := Utf8.not_valid_iff.1 hf.invalid
    obtain ⟨after, ha⟩ := hf.bytes_eq l
    rw [Layout.body_of_verbatim hl] at ha
    have hi : fault = ⟨(ahead.bytes l ++ l.lead c).length + g.index, g.length⟩ :=
      Except.error.inj (hd.symm.trans (hf.decode_bytes hl hg))
    exact ⟨fault, f.bytes l, rfl, rfl, rfl, Utf8.isGreatest_index hd, ahead, c, bs, _, g.index, hf,
      ha, Utf8.isGreatest_index hg, congrArg Utf8.Fault.index hi⟩

-- The second string begins with the byte that the first one lacks.
example : (emitText .standard ⟨[.data ⟨[.string "a" [0x61, 0xC3], .string "b" [0xA9]]⟩]⟩).result =
    .error (.notText ⟨20, 1⟩) := by cbv

end File

end AttAsm
