import AttAsm.Proofs.LimitedSinks
import AttAsm.Proofs.OutputText

/-!
# The count of lines

A writer counts a line when the write that ends it is complete: the line feed is always the last
byte of its write, and the count follows it at once. So the count never runs ahead of the line feeds
in the sink, and it is their number where nothing else writes line feeds.

`Counted` is that form of events, and every item has it (`Writer.Item.counted_events`). A run of
such events keeps the count right wherever the sink fails (`Sink.run_counted`), and so do steps of a
writer.

Main statement: `Writer.lines_le_count`.
-/

namespace AttAsm

/-! ## Texts without line feeds -/

theorem Utf8.eq_of_lineFeed_mem {c : Char} (h : lineFeed ∈ String.utf8EncodeChar c) : c = '\n' := by
  have hv : c.val.toNat.isValidChar := c.valid
  unfold Nat.isValidChar at hv
  have hne {n : Nat} (h₁ : 128 ≤ n) (h₂ : n < 256) : lineFeed ≠ UInt8.ofNat n := by
    intro he
    have := congrArg UInt8.toNat he
    rw [toNat_byte h₂] at this
    exact absurd this (by have : lineFeed.toNat = 10 := rfl; omega)
  unfold String.utf8EncodeChar at h
  simp only at h
  split_ifs at h with h₁ h₂ h₃
  · have he := congrArg UInt8.toNat (List.mem_singleton.1 h)
    rw [toNat_byte (by omega)] at he
    exact Char.ext (UInt32.toNat_inj.1 he.symm)
  · simp only [List.mem_cons, List.not_mem_nil, or_false] at h
    rcases h with h | h <;> exact absurd h (hne (by omega) (by omega))
  · simp only [List.mem_cons, List.not_mem_nil, or_false] at h
    rcases h with h | h | h <;> exact absurd h (hne (by omega) (by omega))
  · simp only [List.mem_cons, List.not_mem_nil, or_false] at h
    rcases h with h | h | h | h <;> exact absurd h (hne (by omega) (by omega))

theorem Utf8.lineFeed_not_mem_encode {s : String} (h : '\n' ∉ s.toList) : lineFeed ∉ encode s := by
  intro hm
  obtain ⟨c, hc, hb⟩ := List.mem_flatMap.1 hm
  exact h (eq_of_lineFeed_mem hb ▸ hc)

theorem newline_not_mem_repr (v : Int) : '\n' ∉ v.repr.toList := by
  intro h
  exact absurd (Decimal.eq_or_isDigit_of_mem_repr h) (by decide)

namespace Instruction

/-- The names in an instruction. -/
def names : Instruction → List String
  | label n _ _ => [n]
  | branch _ a => [a]
  | symbol _ a _ => [a]
  | basedSymbol _ a _ _ => [a]
  | _ => []

/-- A line has no line feed but those of names. -/
theorem newline_not_mem_text {i : Instruction} (h : ∀ n ∈ i.names, '\n' ∉ n.toList) :
    '\n' ∉ i.text.toList := by
  have hstem {α : Type} [Operation α] [LawfulOperation α] (op : α) (w : Width) :
      '\n' ∉ (stem op w).toList := not_mem_of_isAlphanum (isAlphanum_stem op w) (by decide)
  have hmnemonic {α : Type} [Operation α] [LawfulOperation α] (op : α) :
      '\n' ∉ (Operation.mnemonic op).toList :=
    not_mem_of_isAlphanum (LawfulOperation.isAlphanum op) (by decide)
  have hname (r : Register) : '\n' ∉ r.name.toList :=
    not_mem_of_isAlphanum r.isAlphanum_name (by decide)
  cases i <;>
    simp_all [text, names, Register.operand, memory, newline_not_mem_repr]

end Instruction

/-! ## Events that count their lines -/

/-- Every count of a line follows a write that ends in a line feed. If `strict` holds, no write has
another line feed. -/
inductive Counted (strict : Prop) : List Event → Prop where
  | nil : Counted strict []
  | note {es : List Event} (r : Record) (h : Counted strict es) : Counted strict (.note r :: es)
  | write {es : List Event} {bs : List UInt8} (hb : strict → lineFeed ∉ bs)
      (h : Counted strict es) : Counted strict (.write bs :: es)
  | line {es : List Event} {bs : List UInt8} (hb : strict → lineFeed ∉ bs)
      (h : Counted strict es) : Counted strict (.write (bs ++ [lineFeed]) :: .endLine :: es)

namespace Counted

variable {p : Prop}

theorem append {a b : List Event} (ha : Counted p a) (hb : Counted p b) : Counted p (a ++ b) := by
  induction ha with
  | nil => exact hb
  | note r _ ih => exact ih.note r
  | write h _ ih => exact ih.write h
  | line h _ ih => exact ih.line h

theorem flatMap {α : Type} {as : List α} {events : α → List Event}
    (h : ∀ a ∈ as, Counted p (events a)) : Counted p (as.flatMap events) := by
  induction as with
  | nil => exact nil
  | cons a as ih =>
    exact (h a List.mem_cons_self).append (ih fun b hb => h b (List.mem_cons_of_mem _ hb))

end Counted

namespace Sink

/-- A refused write loses at least its last byte. -/
theorem keep_subset_of_not_accepts {s : Sink} {bs : List UInt8} {b : UInt8}
    (h : s.accepts (bs ++ [b]) = false) : s.keep (bs ++ [b]) ⊆ bs := by
  unfold accepts at h
  unfold keep
  cases hr : s.room with
  | none => rw [hr] at h; exact nomatch h
  | some n =>
    rw [hr, decide_eq_false_iff_not, List.length_append, List.length_singleton] at h
    show List.take n (bs ++ [b]) ⊆ bs
    rw [List.take_append_of_le_length (by omega)]
    exact List.take_subset n bs

theorem keep_subset (s : Sink) (bs : List UInt8) : s.keep bs ⊆ bs := by
  unfold keep
  cases s.room with
  | none => exact List.Subset.refl bs
  | some n => exact List.take_subset n bs

/-- A run of events counts no more lines than it keeps line feeds, also when it is cut off. -/
theorem run_counted {p : Prop} (s : Sink) {es : List Event} (h : Counted p es) :
    (s.run es).lines ≤ (s.run es).bytes.count lineFeed ∧
      (p → (s.run es).lines = (s.run es).bytes.count lineFeed) := by
  induction h generalizing s with
  | nil => exact ⟨Nat.le_refl _, fun _ => rfl⟩
  | note r _ ih => exact ih s
  | @write es bs hb _ ih =>
    have h0 (hp : p) : (s.keep bs).count lineFeed = 0 :=
      List.count_eq_zero.2 fun hm => hb hp (s.keep_subset bs hm)
    rw [run]
    split_ifs
    · obtain ⟨hle, heq⟩ := ih (s.after bs)
      show _ ≤ (s.keep bs ++ _).count lineFeed ∧ (p → _ = (s.keep bs ++ _).count lineFeed)
      rw [List.count_append]
      refine ⟨Nat.le_add_left_of_le hle, fun hp => ?_⟩
      rw [h0 hp, Nat.zero_add]
      exact heq hp
    · exact ⟨Nat.zero_le _, fun hp => (h0 hp).symm⟩
  | @line es bs hb _ ih =>
    rw [run]
    split_ifs with ha
    · generalize s.after (bs ++ [lineFeed]) = u
      obtain ⟨hle, heq⟩ := ih u
      show (u.run es).lines + 1 ≤ (s.keep (bs ++ [lineFeed]) ++ (u.run es).bytes).count lineFeed ∧
        (p → (u.run es).lines + 1 =
          (s.keep (bs ++ [lineFeed]) ++ (u.run es).bytes).count lineFeed)
      rw [keep_of_accepts ha, List.count_append, List.count_append, List.count_singleton_self]
      refine ⟨by omega, fun hp => ?_⟩
      have h0 : bs.count lineFeed = 0 := List.count_eq_zero.2 (hb hp)
      have := heq hp
      omega
    · -- The line feed is the last byte of the write, so a cut write is without it.
      refine ⟨Nat.zero_le _, fun hp => ?_⟩
      have hk := keep_subset_of_not_accepts (Bool.eq_false_iff.2 ha)
      exact (List.count_eq_zero.2 fun hm => hb hp (hk hm)).symm

end Sink

/-! ## Events of items -/

namespace Layout

variable {l : Layout} {p : Prop}

theorem counted_line {text : String} (h : p → '\n' ∉ text.toList) : Counted p (line text) :=
  .write (fun hp => Utf8.lineFeed_not_mem_encode (h hp)) (.line (fun _ => List.not_mem_nil) .nil)

theorem counted_emptyLine : Counted p emptyLine := .line (fun _ => List.not_mem_nil) .nil

variable (hi : p → '\n' ∉ l.indent.toList)

include hi

theorem counted_indented {text : String} (h : p → '\n' ∉ text.toList) :
    Counted p (l.indented text) :=
  .write (fun hp => Utf8.lineFeed_not_mem_encode (hi hp)) (counted_line h)

theorem counted_alignment (a : Alignment) : Counted p (l.alignment a) := by
  unfold alignment
  split_ifs
  · refine counted_indented hi fun _ => ?_
    have : '\n' ∉ (toString a.bytes).toList := newline_not_mem_repr (a.bytes : Int)
    simpa [Alignment.text] using this
  · exact .nil

theorem counted_symbol {name : String} (hn : p → '\n' ∉ name.toList) (a : Alignment) (g : Bool) :
    Counted p (l.symbol name a g) := by
  have hg : Counted p (if g then l.indented (".globl " ++ name) else []) := by
    split_ifs
    · exact counted_indented hi fun hp => by simpa using hn hp
    · exact .nil
  exact (hg.append (counted_alignment hi a)).append (counted_line fun hp => by simpa using hn hp)

theorem counted_emitInstruction {i : Instruction} (hn : p → ∀ n ∈ i.names, '\n' ∉ n.toList) :
    Counted p (l.emitInstruction i) := by
  refine .note _ ?_
  cases i with
  | label n a g => exact counted_symbol hi (fun hp => hn hp n List.mem_cons_self) a g
  | _ => exact counted_indented hi fun hp => Instruction.newline_not_mem_text (hn hp)

theorem counted_datum {label : Option String} {v : Datum}
    (hs : p → l.strings = .escaped ∨ ∀ bs ∈ v.payload?, lineFeed ∉ bs) :
    Counted p (l.datum label v) := by
  have hnumber (directive : String) (hd : '\n' ∉ directive.toList) (n : Int) :
      Counted p (l.indented (directive ++ " " ++ toString n)) :=
    counted_indented hi fun _ => by simp [hd, newline_not_mem_repr]
  cases v with
  | string bs =>
    have hlead (hp : p) : lineFeed ∉ Utf8.encode (l.indent ++ ".asciz" ++ " \"") :=
      Utf8.lineFeed_not_mem_encode (by simpa using hi hp)
    have hpayload : Counted p (l.payload label bs) := by
      unfold payload
      cases hl : l.strings with
      | escaped => exact .write (fun _ => Literal.lineFeed_not_mem_escape bs) .nil
      | verbatim =>
        have hb (hp : p) : lineFeed ∉ bs := (hs hp).resolve_left (by rw [hl]; nofun) bs rfl
        dsimp only
        split_ifs
        · exact .note _ (.write hb .nil)
        · exact .write hb .nil
    have hend : Counted p [.write ([quote] ++ [lineFeed]), .endLine] :=
      .line (fun _ => by decide) .nil
    exact .write hlead (hpayload.append hend)
  | word n => exact hnumber ".word" (by decide) n.toInt
  | long n => exact hnumber ".long" (by decide) n.toInt
  | quad n => exact hnumber ".quad" (by decide) n.toInt

theorem counted_emitConstant {c : Constant} (hn : p → ∀ n ∈ c.label, '\n' ∉ n.toList)
    (hs : p → l.strings = .escaped ∨ ∀ bs ∈ c.value.payload?, lineFeed ∉ bs) :
    Counted p (l.emitConstant c) := by
  refine .append ?_ (counted_datum hi hs)
  cases hc : c.label with
  | none => exact counted_alignment hi c.alignment
  | some name => exact counted_symbol hi (fun hp => hn hp name hc) c.alignment c.isGlobal

end Layout

/-- The names in a section. -/
def Section.names : Section → List String
  | code c => c.instructions.flatMap Instruction.names
  | data d => d.constants.flatMap fun c => c.label.toList

theorem Layout.counted_emitSection {l : Layout} {p : Prop} (hi : p → '\n' ∉ l.indent.toList)
    {s : Section} (hn : p → ∀ n ∈ s.names, '\n' ∉ n.toList)
    (hs : p → l.strings = .escaped ∨ ∀ bs ∈ s.payloads, lineFeed ∉ bs) :
    Counted p (l.emitSection s) := by
  have hspace : Counted p (if l.spaced then emptyLine else []) := by
    split_ifs
    · exact counted_emptyLine
    · exact .nil
  have hopen : Counted p (l.indented s.directive) :=
    counted_indented hi fun _ => by cases s <;> simp [Section.directive]
  refine (hspace.append hopen).append ?_
  cases s with
  | code c =>
    refine .note _ (.flatMap fun i hm => counted_emitInstruction hi fun hp n hin => ?_)
    exact hn hp n (List.mem_flatMap.2 ⟨i, hm, hin⟩)
  | data d =>
    refine .note _ (.flatMap fun c hm => counted_emitConstant hi (fun hp n hcn => ?_) fun hp => ?_)
    · exact hn hp n (List.mem_flatMap.2 ⟨c, hm, Option.mem_toList.2 hcn⟩)
    · exact (hs hp).imp_right fun h bs hb => h bs (List.mem_filterMap.2 ⟨c, hm, hb⟩)

namespace Writer

namespace Item

/-- The names in an item. -/
def names : Item → List String
  | instruction i => i.names
  | constant c => c.label.toList
  | part s => s.names
  | file f => f.sections.flatMap Section.names

/-- The strings of an item. -/
def payloads : Item → List (List UInt8)
  | instruction _ => []
  | constant c => c.value.payload?.toList
  | part s => s.payloads
  | file f => f.payloads

/-- Neither the indent nor a name contains a line feed, nor does a string that is written as it
is. -/
structure Unbroken (l : Layout) (x : Item) : Prop where
  indent : '\n' ∉ l.indent.toList
  names : ∀ n ∈ x.names, '\n' ∉ n.toList
  strings : l.strings = .escaped ∨ ∀ bs ∈ x.payloads, lineFeed ∉ bs

theorem counted_events (l : Layout) (x : Item) : Counted (x.Unbroken l) (x.events l) := by
  cases x with
  | instruction i => exact Layout.counted_emitInstruction Unbroken.indent Unbroken.names
  | constant c =>
    refine Layout.counted_emitConstant Unbroken.indent (fun h n hn => ?_) fun h => ?_
    · exact h.names n (Option.mem_toList.2 hn)
    · exact h.strings.imp_right fun h bs hb => h bs (Option.mem_toList.2 hb)
  | part s => exact Layout.counted_emitSection Unbroken.indent Unbroken.names Unbroken.strings
  | file f =>
    refine .note _ (.flatMap fun s hs =>
      Layout.counted_emitSection Unbroken.indent (fun h n hn => ?_) fun h => ?_)
    · exact h.names n (List.mem_flatMap.2 ⟨s, hs, hn⟩)
    · exact h.strings.imp_right fun h bs hb => h bs (List.mem_flatMap.2 ⟨s, hs, hb⟩)

end Item

/-! ## Steps -/

theorem lines_write (w : Writer) (x : Item) :
    (w.write x).writer.lines ≤ w.lines + (w.write x).bytes.count lineFeed ∧
    (x.Unbroken w.layout →
      (w.write x).writer.lines = w.lines + (w.write x).bytes.count lineFeed) := by
  obtain ⟨hle, heq⟩ := w.sink.run_counted (x.counted_events w.layout)
  exact ⟨Nat.add_le_add_left hle _, fun h => congrArg (w.lines + ·) (heq h)⟩

theorem lines_writeAll (w : Writer) (xs : List Item) (i : Nat) (x : Step)
    (h : (w.writeAll xs)[i]? = some x) :
    x.writer.lines ≤ w.lines + (kept ((w.writeAll xs).take (i + 1))).count lineFeed ∧
    ((∀ y ∈ xs.take (i + 1), y.Unbroken w.layout) →
      x.writer.lines = w.lines + (kept ((w.writeAll xs).take (i + 1))).count lineFeed) := by
  induction xs generalizing w i with
  | nil => exact nomatch h
  | cons y ys ih =>
    obtain ⟨hle, heq⟩ := w.lines_write y
    have hkept (n : Nat) : kept ((w.writeAll (y :: ys)).take (n + 1)) =
        (w.write y).bytes ++ kept (((w.write y).writer.writeAll ys).take n) := rfl
    rw [hkept, List.count_append]
    cases i with
    | zero =>
      obtain rfl := Option.some.inj h
      exact ⟨hle, fun hu => heq (hu y List.mem_cons_self)⟩
    | succ i =>
      obtain ⟨hle', heq'⟩ := ih (w.write y).writer i h
      refine ⟨by omega, fun hu => ?_⟩
      have hy := heq (hu y List.mem_cons_self)
      have hys := heq' fun z hz => hu z (List.mem_cons_of_mem _ hz)
      omega

/-- **The count of lines is that of the line feeds in the sink.** It never exceeds it, wherever the
sink fails, and it is equal as long as nothing but the ends of lines brings line feeds. -/
theorem lines_le_count (l : Layout) (s : Sink) (xs : List Item) :
    ((start l s).writeAll xs).length = xs.length ∧
    ∀ i x, ((start l s).writeAll xs)[i]? = some x →
      x.writer.lines ≤ (kept (((start l s).writeAll xs).take (i + 1))).count lineFeed ∧
      ((∀ y ∈ xs.take (i + 1), y.Unbroken l) →
        x.writer.lines = (kept (((start l s).writeAll xs).take (i + 1))).count lineFeed) := by
  refine ⟨length_writeAll _ _, fun i x h => ?_⟩
  have hlines := lines_writeAll (start l s) xs i x h
  have h0 : (start l s).lines = 0 := rfl
  rwa [h0, Nat.zero_add] at hlines

-- The sink is full after the closing quote, in the middle of the last write of the line.
example : (((start .standard { Sink.unlimited with room := some 10 }).writeAll
    [.constant ⟨none, .one, false, .string []⟩]).map fun x => (x.bytes.length, x.writer.lines)) =
      [(10, 0)] := by decide

end Writer

end AttAsm
