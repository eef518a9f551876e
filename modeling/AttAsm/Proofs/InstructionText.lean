import AttAsm.Proofs.Building
import AttAsm.Proofs.Spelling

/-!
# The line of an instruction

A line is made of words between single spaces: the head, and then the operands, all but the last of
them with a comma at the end. `Instruction.read?` reads a line back word by word.

Main statement: two instructions with the same line are equal, up to the alignment and the
visibility of labels, which are not in the line (`Instruction.eq_of_text_eq`). A name that looks
like a number, or a vector register as a base, would break this: the width of such a base is not
written anywhere.
-/

namespace AttAsm

/-! ## Operands -/

/-- An operand as it is written: registers by their names only. -/
inductive Operand where
  | register (name : String)
  | immediate (value : Int)
  | symbol (name : String)
  | offset (value : Int) (base : String)
  | based (symbol base : String)
deriving DecidableEq

namespace Operand

def text : Operand → String
  | register n => "%" ++ n
  | immediate v => "$" ++ toString v
  | symbol a => a
  | offset v b => toString v ++ "(%" ++ b ++ ")"
  | based a b => a ++ "(%" ++ b ++ ")"

/-- Reads an operand. What stands before a bracket is a number or a symbol by its first
character. -/
def read? : List Char → Option Operand
  | [] => none
  | '%' :: r => some (.register (String.ofList r))
  | '$' :: r => (Decimal.integer? r).map .immediate
  | c :: r =>
    match (c :: r).splitOn '(' with
    | [a] => some (.symbol (String.ofList a))
    | [d, b] =>
      let base := String.ofList (b.drop 1).dropLast
      if Identifier.isStart c then some (.based (String.ofList d) base)
      else (Decimal.integer? d).map (.offset · base)
    | _ => none

/-- Symbols are identifiers, and register names consist of letters and digits. -/
def Proper : Operand → Prop
  | register n => n.toList.all Char.isAlphanum = true
  | immediate _ => True
  | symbol a => isIdentifier a = true
  | offset _ b => b.toList.all Char.isAlphanum = true
  | based a b => isIdentifier a = true ∧ b.toList.all Char.isAlphanum = true

/-- What follows the bracket of a memory operand. -/
def bracketed (base : String) : List Char := '%' :: (base.toList ++ [')'])

theorem bracket_not_mem_bracketed {b : String} (h : b.toList.all Char.isAlphanum = true) :
    '(' ∉ bracketed b := by
  simpa [bracketed] using not_mem_of_isAlphanum h (by decide)

theorem splitOn_memory {d : List Char} {b : String} (hd : '(' ∉ d)
    (hb : b.toList.all Char.isAlphanum = true) :
    (d ++ '(' :: bracketed b).splitOn '(' = [d, bracketed b] := by
  have h : (['('].intercalate [d, bracketed b]).splitOn '(' = [d, bracketed b] :=
    List.splitOn_intercalate '(' (by simpa using ⟨hd, bracket_not_mem_bracketed hb⟩) (by simp)
  simpa [List.intercalate] using h

theorem splitOn_identifier {a : String} (h : isIdentifier a = true) :
    a.toList.splitOn '(' = [a.toList] := by
  have h' : (['('].intercalate [a.toList]).splitOn '(' = [a.toList] :=
    List.splitOn_intercalate '(' (by simpa using Identifier.not_mem h (by decide)) (by simp)
  simpa [List.intercalate] using h'

/-- An operand that starts with no sigil is read through its bracket. -/
theorem read?_cons {c : Char} (hp : c ≠ '%') (hd : c ≠ '$') (r : List Char) :
    read? (c :: r) =
      match (c :: r).splitOn '(' with
      | [a] => some (.symbol (String.ofList a))
      | [d, b] =>
        if Identifier.isStart c then
          some (.based (String.ofList d) (String.ofList (b.drop 1).dropLast))
        else (Decimal.integer? d).map (.offset · (String.ofList (b.drop 1).dropLast))
      | _ => none := by
  unfold read?
  split
  next h => exact absurd h (by simp)
  next h => exact absurd (List.cons.inj h).1 hp
  next h => exact absurd (List.cons.inj h).1 hd
  next h => obtain ⟨rfl, rfl⟩ := List.cons.inj h; rfl

theorem read?_text (o : Operand) (h : o.Proper) : read? o.text.toList = some o := by
  cases o with
  | register n => simp [text, read?]
  | immediate v => simp [text, read?, Decimal.integer?_repr]
  | symbol a =>
    obtain ⟨c, r, hr, hc, -⟩ := isIdentifier_iff.1 h
    have hs := splitOn_identifier h
    have hp : c ≠ '%' := by rintro rfl; exact absurd hc (by decide)
    have hd : c ≠ '$' := by rintro rfl; exact absurd hc (by decide)
    rw [hr] at hs
    rw [text, hr, read?_cons hp hd, hs]
    simp [← hr]
  | offset v b =>
    obtain ⟨c, r, hr, hc⟩ := Decimal.exists_toList_repr v
    have hs : Identifier.isStart c = false := by
      rcases hc with rfl | hc
      · decide
      · exact Identifier.isStart_eq_false_of_isDigit hc
    have hp : c ≠ '%' := by rintro rfl; exact absurd hc (by decide)
    have hd : c ≠ '$' := by rintro rfl; exact absurd hc (by decide)
    have hb : '(' ∉ v.repr.toList := fun hm =>
      absurd (Decimal.eq_or_isDigit_of_mem_repr hm) (by decide)
    have ht : (offset v b).text.toList = c :: (r ++ '(' :: bracketed b) := by
      simp [text, bracketed, hr]
    rw [ht, read?_cons hp hd, ← List.cons_append, ← hr, splitOn_memory hb h]
    simp [hs, Decimal.integer?_repr, bracketed]
  | based a b =>
    obtain ⟨c, r, hr, hc, -⟩ := isIdentifier_iff.1 h.1
    have hp : c ≠ '%' := by rintro rfl; exact absurd hc (by decide)
    have hd : c ≠ '$' := by rintro rfl; exact absurd hc (by decide)
    have ht : (based a b).text.toList = c :: (r ++ '(' :: bracketed b) := by
      simp [text, bracketed, hr]
    rw [ht, read?_cons hp hd, ← List.cons_append, ← hr,
      splitOn_memory (Identifier.not_mem h.1 (by decide)) h.2]
    simp [hc, bracketed]

/-- Spaces and commas only separate operands. -/
theorem not_mem_text {o : Operand} (h : o.Proper) {c : Char} (hc : c = ' ' ∨ c = ',') :
    c ∉ o.text.toList := by
  have hname {n : String} (hn : n.toList.all Char.isAlphanum = true) : c ∉ n.toList :=
    not_mem_of_isAlphanum hn (by rcases hc with rfl | rfl <;> decide)
  have hdec (v : Int) : c ∉ v.repr.toList := by
    intro hm
    have := Decimal.eq_or_isDigit_of_mem_repr hm
    rcases hc with rfl | rfl <;> exact absurd this (by decide)
  have hsym {a : String} (ha : isIdentifier a = true) : c ∉ a.toList :=
    Identifier.not_mem ha (by rcases hc with rfl | rfl <;> decide)
  have hsig : c ≠ '%' ∧ c ≠ '$' ∧ c ≠ '(' ∧ c ≠ ')' := by rcases hc with rfl | rfl <;> decide
  cases o with
  | register n => simp [text, hsig, hname h]
  | immediate v => simp [text, hsig, hdec]
  | symbol a => exact hsym h
  | offset v b => simp [text, hsig, hdec, hname h]
  | based a b => simp [text, hsig, hsym h.1, hname h.2]

/-- The words of a list of operands. -/
def words : List Operand → List (List Char)
  | [] => []
  | [o] => [o.text.toList]
  | o :: p :: r => (o.text.toList ++ [',']) :: words (p :: r)

/-- Reads operands from their words. -/
def readAll? : List (List Char) → Option (List Operand)
  | [] => some []
  | [w] => do
    let o ← read? w
    return [o]
  | w :: v :: r => do
    let o ← read? w.dropLast
    let os ← readAll? (v :: r)
    return o :: os

theorem words_ne_nil (o : Operand) (r : List Operand) : words (o :: r) ≠ [] := by
  cases r <;> simp [words]

theorem readAll?_words (os : List Operand) (h : ∀ o ∈ os, o.Proper) :
    readAll? (words os) = some os := by
  induction os using words.induct with
  | case1 => rfl
  | case2 o => simp [words, readAll?, read?_text o (h o (by simp))]
  | case3 o p r ih =>
    obtain ⟨w, ws, hw⟩ := List.exists_cons_of_ne_nil (words_ne_nil p r)
    have ih' := ih fun q hq => h q (List.mem_cons_of_mem _ hq)
    rw [hw] at ih'
    simp [words, hw, readAll?, read?_text o (h o (by simp)), ih']

theorem space_not_mem_words {os : List Operand} (h : ∀ o ∈ os, o.Proper) :
    ∀ w ∈ words os, ' ' ∉ w := by
  induction os using words.induct with
  | case1 => simp [words]
  | case2 o => simpa [words] using not_mem_text (h o (by simp)) (.inl rfl)
  | case3 o p r ih =>
    have ho := not_mem_text (h o (by simp)) (.inl rfl)
    have ih' := ih fun q hq => h q (List.mem_cons_of_mem _ hq)
    simpa [words] using ⟨ho, ih'⟩

end Operand

/-! ## Instructions -/

namespace Instruction

/-- The word in front of the operands. -/
def head : Instruction → String
  | label name _ _ => name ++ ":"
  | bare op => Operation.mnemonic op
  | unary op r => stem op r.width
  | binary op _ _ w => stem op w
  | immediate op _ t => stem op t.width
  | load op _ _ t => stem op t.width
  | store op s _ _ => stem op s.width
  | branch op _ => Operation.mnemonic op
  | symbol op _ t => stem op t.width
  | basedSymbol op _ _ t => stem op t.width

def operands : Instruction → List Operand
  | label _ _ _ => []
  | bare _ => []
  | unary _ r => [.register r.name]
  | binary _ l r _ => [.register l.name, .register r.name]
  | immediate _ v t => [.immediate v, .register t.name]
  | load _ v b t => [.offset v b.name, .register t.name]
  | store _ s v b => [.register s.name, .offset v b.name]
  | branch _ a => [.symbol a]
  | symbol _ a t => [.symbol a, .register t.name]
  | basedSymbol _ a b t => [.based a b.name, .register t.name]

/-- A line is its words with single spaces between them. -/
theorem toList_text (i : Instruction) :
    i.text.toList = [' '].intercalate (i.head.toList :: Operand.words i.operands) := by
  cases i <;>
    simp [text, head, operands, Operand.words, Operand.text, Register.operand, memory,
      List.intercalate]

/-- The symbols of an instruction are identifiers. -/
def hasIdentifiers : Instruction → Bool
  | label name _ _ => isIdentifier name
  | branch _ a => isIdentifier a
  | symbol _ a _ => isIdentifier a
  | basedSymbol _ a _ _ => isIdentifier a
  | _ => true

/-- The base of a memory operand, if there is one, is no vector register. -/
def hasPlainBase : Instruction → Bool
  | load _ _ b _ => !b.isVector
  | store _ _ _ b => !b.isVector
  | basedSymbol _ _ b _ => !b.isVector
  | _ => true

theorem proper_of_mem_operands {i : Instruction} (h : i.hasIdentifiers = true) :
    ∀ o ∈ i.operands, o.Proper := by
  cases i <;>
    simp_all [operands, Operand.Proper, hasIdentifiers, -List.all_eq_true,
      Register.isAlphanum_name]

/-- Apart from labels, a line starts with letters and digits. -/
theorem isAlphanum_head {i : Instruction} (h : i.isLabel = false) :
    i.head.toList.all Char.isAlphanum = true ∧ i.head.toList ≠ [] := by
  cases i with
  | label name a g => exact Bool.noConfusion h
  | bare op => exact ⟨LawfulOperation.isAlphanum op, LawfulOperation.ne_nil op⟩
  | unary op r => exact ⟨isAlphanum_stem op _, stem_ne_nil op _⟩
  | binary op l r w => exact ⟨isAlphanum_stem op _, stem_ne_nil op _⟩
  | immediate op v t => exact ⟨isAlphanum_stem op _, stem_ne_nil op _⟩
  | load op v b t => exact ⟨isAlphanum_stem op _, stem_ne_nil op _⟩
  | store op r v b => exact ⟨isAlphanum_stem op _, stem_ne_nil op _⟩
  | branch op a => exact ⟨LawfulOperation.isAlphanum op, LawfulOperation.ne_nil op⟩
  | symbol op a t => exact ⟨isAlphanum_stem op _, stem_ne_nil op _⟩
  | basedSymbol op a b t => exact ⟨isAlphanum_stem op _, stem_ne_nil op _⟩

theorem space_not_mem_head {i : Instruction} (h : i.hasIdentifiers = true) :
    ' ' ∉ i.head.toList := by
  cases hl : i.isLabel with
  | false => exact not_mem_of_isAlphanum (isAlphanum_head hl).1 (by decide)
  | true =>
    cases i with
    | label name a g => simpa [head] using Identifier.not_mem h (by decide)
    | _ => exact Bool.noConfusion hl

theorem isPrintable_text {i : Instruction} (h : i.hasIdentifiers = true) :
    i.text.toList.all isPrintable = true := by
  have hstem {α : Type} [Operation α] [LawfulOperation α] (op : α) (w : Width) :
      (stem op w).toList.all isPrintable = true := isPrintable_alphanum (isAlphanum_stem op w)
  have hmnemonic {α : Type} [Operation α] [LawfulOperation α] (op : α) :
      (Operation.mnemonic op).toList.all isPrintable = true :=
    isPrintable_alphanum (LawfulOperation.isAlphanum op)
  have hname (r : Register) : r.name.toList.all isPrintable = true :=
    isPrintable_alphanum r.isAlphanum_name
  have hsymbol {a : String} (ha : isIdentifier a = true) := isPrintable_identifier ha
  have hsigns : [' ', ':', ',', '%', '$', '(', ')'].all isPrintable = true := by decide
  simp only [List.all_cons, List.all_nil, Bool.and_true, Bool.and_eq_true] at hsigns
  cases i <;>
    simp_all [text, Register.operand, memory, hasIdentifiers, -List.all_eq_true, isPrintable_repr]

/-- The words of a line are found again between its spaces. -/
theorem splitOn_text {i : Instruction} (h : i.hasIdentifiers = true) :
    i.text.toList.splitOn ' ' = i.head.toList :: Operand.words i.operands := by
  rw [toList_text]
  apply List.splitOn_intercalate
  · intro w hw
    rcases List.mem_cons.1 hw with rfl | hw
    · exact space_not_mem_head h
    · exact Operand.space_not_mem_words (proper_of_mem_operands h) w hw
  · exact List.cons_ne_nil _ _

/-- The instruction of a head and operands. The operands decide the form; of the forms without
operands, labels have a colon. -/
def ofWords? (head : List Char) : List Operand → Option Instruction
  | [] =>
    if ':' ∈ head then some (localLabel (String.ofList head.dropLast))
    else do return .bare (← Operation.find? (String.ofList head))
  | [.register n] => do
    let (op, w) ← readStem UnaryOp head
    return .unary op (← Register.named? n w)
  | [.register l, .register r] => do
    let (op, w) ← readStem BinaryOp head
    return .binary op (← Register.named? l w) (← Register.named? r w) w
  | [.immediate v, .register t] => do
    let (op, w) ← readStem ImmediateOp head
    return .immediate op v (← Register.named? t w)
  | [.offset v b, .register t] => do
    let (op, w) ← readStem LoadOp head
    return .load op v (← Register.plain? b) (← Register.named? t w)
  | [.register s, .offset v b] => do
    let (op, w) ← readStem StoreOp head
    return .store op (← Register.named? s w) v (← Register.plain? b)
  | [.symbol a] => do return .branch (← Operation.find? (String.ofList head)) a
  | [.symbol a, .register t] => do
    let (op, w) ← readStem SymbolOp head
    return .symbol op a (← Register.named? t w)
  | [.based a b, .register t] => do
    let (op, w) ← readStem BasedSymbolOp head
    return .basedSymbol op a (← Register.plain? b) (← Register.named? t w)
  | _ => none

/-- Reads a line. -/
def read? (line : List Char) : Option Instruction :=
  match line.splitOn ' ' with
  | [] => none
  | head :: ws => (Operand.readAll? ws).bind (ofWords? head)

/-- The instruction as its line shows it: a label without its alignment and visibility. -/
def shown : Instruction → Instruction
  | label name _ _ => localLabel name
  | i => i

theorem ofWords?_operands {i : Instruction} (hb : Built i) (hn : i.hasIdentifiers = true)
    (hp : i.hasPlainBase = true) : ofWords? i.head.toList i.operands = some i.shown := by
  cases i with
  | label name a g => simp [head, operands, ofWords?, shown]
  | bare op =>
    have hc : ':' ∉ (Operation.mnemonic op).toList :=
      not_mem_of_isAlphanum (LawfulOperation.isAlphanum op) (by decide)
    simp [head, operands, ofWords?, hc, LawfulOperation.find?_mnemonic, shown]
  | unary op r => simp [head, operands, ofWords?, readStem_stem, Register.named?_name, shown]
  | binary op l r w =>
    obtain ⟨hl, hr⟩ := Width.integer_of_join? hb.join?
    simp [head, operands, ofWords?, readStem_stem, Register.named?_name l hl,
      Register.named?_name r hr, shown]
  | immediate op v t => simp [head, operands, ofWords?, readStem_stem, Register.named?_name, shown]
  | load op v b t =>
    have hv : b.isVector = false := by simpa [hasPlainBase] using hp
    simp [head, operands, ofWords?, readStem_stem, Register.named?_name, Register.plain?_name b hv,
      shown]
  | store op s v b =>
    have hv : b.isVector = false := by simpa [hasPlainBase] using hp
    simp [head, operands, ofWords?, readStem_stem, Register.named?_name, Register.plain?_name b hv,
      shown]
  | branch op a => simp [head, operands, ofWords?, LawfulOperation.find?_mnemonic, shown]
  | symbol op a t => simp [head, operands, ofWords?, readStem_stem, Register.named?_name, shown]
  | basedSymbol op a b t =>
    have hv : b.isVector = false := by simpa [hasPlainBase] using hp
    simp [head, operands, ofWords?, readStem_stem, Register.named?_name, Register.plain?_name b hv,
      shown]

/-- Reading undoes writing, up to what a label's line does not show. -/
theorem read?_text {i : Instruction} (hb : Built i) (hn : i.hasIdentifiers = true)
    (hp : i.hasPlainBase = true) : read? i.text.toList = some i.shown := by
  unfold read?
  rw [splitOn_text hn]
  show (Operand.readAll? (Operand.words i.operands)).bind (ofWords? i.head.toList) = _
  rw [Operand.readAll?_words _ (proper_of_mem_operands hn), Option.bind_some,
    ofWords?_operands hb hn hp]

/-- Only labels of one name are shown alike. -/
theorem eq_or_label_of_shown_eq {i j : Instruction} (h : i.shown = j.shown) :
    i = j ∨ ∃ name a b g k, i = .label name a g ∧ j = .label name b k := by
  cases i <;> cases j <;> simp_all [shown, localLabel]

/-- **The line determines the instruction.** -/
theorem eq_of_text_eq {i j : Instruction} (hi : Built i) (hj : Built j)
    (ni : i.hasIdentifiers = true) (nj : j.hasIdentifiers = true) (pi : i.hasPlainBase = true)
    (pj : j.hasPlainBase = true) (h : i.text = j.text) :
    i = j ∨ ∃ name a b g k, i = .label name a g ∧ j = .label name b k := by
  have hr := read?_text hi ni pi
  rw [h, read?_text hj nj pj] at hr
  exact eq_or_label_of_shown_eq (Option.some.inj hr).symm

/-- A label at a place of its own and one at a multiple of sixteen share a line. -/
theorem eq_of_text_eq_label :
    (localLabel ".Lfact$1").text = (label ".Lfact$1" ⟨16, by decide⟩ true).text ∧
      (localLabel ".Lfact$1" = label ".Lfact$1" ⟨16, by decide⟩ true ∨
        ∃ name a b g k, localLabel ".Lfact$1" = .label name a g ∧
          label ".Lfact$1" ⟨16, by decide⟩ true = .label name b k) :=
  ⟨rfl, eq_of_text_eq (.localLabel _) (.label (mkLabel_eq_ok_iff.2 ⟨by decide, rfl⟩)) (by decide)
    (by decide) rfl rfl rfl⟩

end Instruction

end AttAsm
