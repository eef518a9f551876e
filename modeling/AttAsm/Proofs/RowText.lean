import AttAsm.Proofs.Rows
import Mathlib.Data.List.TakeWhile

/-!
# Reading rows

Under a layout with a blank indent and escaped strings, and with identifiers for names, every row is
read back from its bytes (`Row.read?_bytes`): what stands first after the indent tells what kind of
row it is. Rows contain no line feed, so the rows of an output are found again between its line
feeds (`readRows?_write`).
-/

namespace AttAsm

/-! ## Bytes as characters -/

/-- Bytes as the characters of their numbers. -/
def toChars (bs : List UInt8) : List Char := bs.map fun b => Char.ofNat b.toNat

/-- Characters below 256 as bytes. -/
def toBytes (cs : List Char) : List UInt8 := cs.map fun c => UInt8.ofNat c.toNat

theorem toNat_ofNat_toNat (b : UInt8) : (Char.ofNat b.toNat).toNat = b.toNat := by
  have h : b.toNat.isValidChar := .inl (Nat.lt_trans b.toNat_lt (by decide))
  rw [Char.ofNat, dif_pos h]
  rfl

theorem toBytes_toChars (bs : List UInt8) : toBytes (toChars bs) = bs := by
  induction bs with
  | nil => rfl
  | cons b bs ih =>
    show UInt8.ofNat (Char.ofNat b.toNat).toNat :: toBytes (toChars bs) = b :: bs
    rw [ih, toNat_ofNat_toNat, UInt8.ofNat_toNat]

@[simp] theorem toChars_append (a b : List UInt8) : toChars (a ++ b) = toChars a ++ toChars b :=
  List.map_append

/-- A text of ASCII characters is encoded one by one. -/
theorem toChars_encode {s : String} (h : ∀ c ∈ s.toList, c.toNat < 128) :
    toChars (Utf8.encode s) = s.toList := by
  unfold Utf8.encode
  generalize s.toList = cs at h
  induction cs with
  | nil => rfl
  | cons c cs ih =>
    have hc : c.val.toNat ≤ 0x7F := Nat.le_of_lt_succ (h c List.mem_cons_self)
    have he : String.utf8EncodeChar c = [UInt8.ofNat c.val.toNat] := if_pos hc
    have hn : (UInt8.ofNat c.val.toNat).toNat = c.toNat :=
      Nat.mod_eq_of_lt (Nat.lt_of_le_of_lt hc (by decide))
    rw [List.flatMap_cons, toChars_append, he, ih fun d hd => h d (List.mem_cons_of_mem _ hd)]
    show Char.ofNat (UInt8.ofNat c.val.toNat).toNat :: cs = c :: cs
    rw [hn, Char.ofNat_toNat]

theorem toChars_encode_of_isPrintable {s : String} (h : s.toList.all isPrintable = true) :
    toChars (Utf8.encode s) = s.toList := by
  refine toChars_encode fun c hc => ?_
  have := List.all_eq_true.1 h c hc
  simp only [isPrintable, Bool.and_eq_true, decide_eq_true_eq] at this
  omega

/-! ## Rows as characters -/

def isIndent (c : Char) : Bool := c == ' ' || c == '\t'

/-- Strings are escaped, and the indent consists of spaces and tabs. -/
structure Layout.Tidy (l : Layout) : Prop where
  escaped : l.strings = .escaped
  indent : l.indent.toList.all isIndent = true

namespace Row

/-- Names are identifiers, and lines are those of instructions with identifiers. -/
def Proper : Row → Prop
  | empty => True
  | opening d => d = ".text" ∨ d = ".data"
  | globl n => isIdentifier n = true
  | align _ => True
  | name n => isIdentifier n = true
  | instruction t => ∃ i : Instruction, i.isLabel = false ∧ i.hasIdentifiers = true ∧ t = i.text
  | datum _ => True

/-- The rows that stand behind the indent. -/
def isIndented : Row → Bool
  | empty => false
  | name _ => false
  | _ => true

def valueChars : Datum → List Char
  | .string bs => '"' :: toChars (Literal.escape bs) ++ ['"']
  | .word n => n.toInt.repr.toList
  | .long n => n.toInt.repr.toList
  | .quad n => n.toInt.repr.toList

/-- A directive with something behind it. -/
def line (directive : String) (rest : List Char) : List Char := directive.toList ++ ' ' :: rest

/-- A row without its indent. -/
def chars : Row → List Char
  | empty => []
  | opening d => d.toList
  | globl n => line ".globl" n.toList
  | align a => line ".align" a.bytes.repr.toList
  | name n => n.toList ++ [':']
  | instruction t => t.toList
  | datum v => line v.directive (valueChars v)

theorem isPrintable_toChars_escape (bs : List UInt8) :
    (toChars (Literal.escape bs)).all isPrintable = true := by
  rw [toChars, List.all_map, List.all_eq_true]
  intro b hb
  have h := (Literal.isPrintable_iff b).1 (Literal.isPrintable_of_mem_escape hb)
  simpa [isPrintable, toNat_ofNat_toNat] using h

theorem isPrintable_valueChars (v : Datum) : (valueChars v).all isPrintable = true := by
  cases v with
  | string bs =>
    have hq : isPrintable '"' = true := by decide
    simp only [valueChars, List.cons_append, List.all_cons, List.all_append, hq,
      isPrintable_toChars_escape, List.all_nil, Bool.and_true]
  | word n => exact isPrintable_repr _
  | long n => exact isPrintable_repr _
  | quad n => exact isPrintable_repr _

theorem isPrintable_directive (v : Datum) : v.directive.toList.all isPrintable = true := by
  cases v with
  | string _ => exact (by decide : ".asciz".toList.all isPrintable = true)
  | word _ => exact (by decide : ".word".toList.all isPrintable = true)
  | long _ => exact (by decide : ".long".toList.all isPrintable = true)
  | quad _ => exact (by decide : ".quad".toList.all isPrintable = true)

theorem isPrintable_line {d : String} {cs : List Char} (hd : d.toList.all isPrintable = true)
    (hc : cs.all isPrintable = true) : (line d cs).all isPrintable = true := by
  have hs : isPrintable ' ' = true := by decide
  rw [line, List.all_append, List.all_cons, hd, hs, hc]
  rfl

theorem isPrintable_chars {r : Row} (h : r.Proper) : r.chars.all isPrintable = true := by
  cases r with
  | empty => rfl
  | opening d => rcases h with rfl | rfl <;> decide
  | globl n => exact isPrintable_line (by decide) (isPrintable_identifier h)
  | align a => exact isPrintable_line (by decide) (isPrintable_repr (a.bytes : Int))
  | name n =>
    rw [chars, List.all_append, Bool.and_eq_true]
    exact ⟨isPrintable_identifier h, by decide⟩
  | instruction t =>
    obtain ⟨i, -, hi, rfl⟩ := h
    exact Instruction.isPrintable_text hi
  | datum v => exact isPrintable_line (isPrintable_directive v) (isPrintable_valueChars v)

end Row

theorem Layout.Tidy.toChars_indent {l : Layout} (hl : l.Tidy) :
    toChars (Utf8.encode l.indent) = l.indent.toList := by
  refine toChars_encode fun c hc => ?_
  have h := List.all_eq_true.1 hl.indent c hc
  simp only [isIndent, Bool.or_eq_true, beq_iff_eq] at h
  rcases h with rfl | rfl <;> decide

namespace Row

theorem toChars_value {l : Layout} (hl : l.Tidy) (v : Datum) :
    toChars (l.value v) = valueChars v := by
  cases v with
  | string bs =>
    have hq : toChars [quote] = ['"'] := by decide
    have hb : l.body bs = Literal.escape bs := by rw [Layout.body, hl.escaped]
    rw [Layout.value, hb, ← List.singleton_append, toChars_append, toChars_append, hq]
    rfl
  | word n => exact toChars_encode_of_isPrintable (isPrintable_repr _)
  | long n => exact toChars_encode_of_isPrintable (isPrintable_repr _)
  | quad n => exact toChars_encode_of_isPrintable (isPrintable_repr _)

/-- The bytes of a row are its characters, behind the indent or not. -/
theorem toChars_bytes {l : Layout} (hl : l.Tidy) {r : Row} (h : r.Proper) :
    toChars (r.bytes l) = (if r.isIndented then l.indent.toList else []) ++ r.chars := by
  have hi := hl.toChars_indent
  have hp := isPrintable_chars h
  have hc (s : String) (hs : s.toList = r.chars) : toChars (Utf8.encode s) = r.chars := by
    rw [← hs] at hp ⊢
    exact toChars_encode_of_isPrintable hp
  cases r with
  | empty => rfl
  | opening d => simp [bytes, isIndented, Utf8.encode_append, hi, hc d rfl]
  | globl n =>
    rw [bytes, String.append_assoc, Utf8.encode_append, toChars_append, hi,
      hc (".globl " ++ n) (by simp [chars, line])]
    rfl
  | align a =>
    rw [bytes, String.append_assoc, Utf8.encode_append, toChars_append, hi,
      hc (".align " ++ a.text) (by simp [chars, line, Alignment.text])]
    rfl
  | name n => exact hc (n ++ ":") (by simp [chars])
  | instruction t => simp [bytes, isIndented, Utf8.encode_append, hi, hc t rfl]
  | datum v =>
    have hd : toChars (Utf8.encode v.directive) = v.directive.toList :=
      toChars_encode_of_isPrintable (isPrintable_directive v)
    have hs : toChars (Utf8.encode " ") = [' '] := by decide
    simp [bytes, isIndented, chars, line, Utf8.encode_append, hi, hd, hs, toChars_value hl]

/-! ## Reading a row -/

/-- The characters up to the first space. -/
def firstWord (cs : List Char) : List Char := cs.takeWhile (· != ' ')

/-- The characters after the first space. -/
def afterWord (cs : List Char) : List Char := (cs.dropWhile (· != ' ')).drop 1

theorem firstWord_append {w : List Char} (h : ' ' ∉ w) (cs : List Char) :
    firstWord (w ++ ' ' :: cs) = w := by
  have hw : ∀ c ∈ w, (c != ' ') = true := fun c hc => bne_iff_ne.2 fun he => h (he ▸ hc)
  rw [firstWord, List.takeWhile_append_of_pos hw]
  simp

theorem firstWord_self {w : List Char} (h : ' ' ∉ w) : firstWord w = w :=
  List.takeWhile_eq_self_iff.2 fun _ hc => bne_iff_ne.2 fun he => h (he ▸ hc)

theorem afterWord_append {w : List Char} (h : ' ' ∉ w) (cs : List Char) :
    afterWord (w ++ ' ' :: cs) = cs := by
  have hw : ∀ c ∈ w, (c != ' ') = true := fun c hc => bne_iff_ne.2 fun he => h (he ▸ hc)
  rw [afterWord, List.dropWhile_append_of_pos hw]
  simp

/-- The row of a directive and what follows it. -/
def ofDirective? (directive : String) (rest : List Char) : Option Row :=
  if directive = ".text" ∨ directive = ".data" then some (.opening directive)
  else if directive = ".globl" then some (.globl (String.ofList rest))
  else if directive = ".align" then do
    let n ← Decimal.digits? rest
    if h : 0 < n then some (.align ⟨n, h⟩) else none
  else if directive = ".asciz" then do
    let (bs, _) ← Literal.read (toBytes (rest.drop 1))
    return .datum (.string bs)
  else if directive = ".word" then do return .datum (.word (Int16.ofInt (← Decimal.integer? rest)))
  else if directive = ".long" then do return .datum (.long (Int32.ofInt (← Decimal.integer? rest)))
  else if directive = ".quad" then do return .datum (.quad (Int64.ofInt (← Decimal.integer? rest)))
  else none

/-- The row of some characters without an indent. A colon in the first word makes it a name. -/
def ofChars? (cs : List Char) : Option Row :=
  if cs = [] then some .empty
  else if ':' ∈ firstWord cs then some (.name (String.ofList (firstWord cs).dropLast))
  else if cs.head? = some '.' then ofDirective? (String.ofList (firstWord cs)) (afterWord cs)
  else some (.instruction (String.ofList cs))

theorem ofDirective?_datum (v : Datum) :
    ofDirective? v.directive (valueChars v) = some (.datum v) := by
  cases v with
  | string bs =>
    have hb : toBytes (toChars (Literal.escape bs) ++ ['"']) = Literal.escape bs ++ [0x22] := by
      have hq : ['"'] = toChars [0x22] := by decide
      rw [hq, ← toChars_append, toBytes_toChars]
    simp [ofDirective?, Datum.directive, valueChars, hb, Literal.read_escape]
  | word n => simp [ofDirective?, Datum.directive, valueChars, Decimal.integer?_repr]
  | long n => simp [ofDirective?, Datum.directive, valueChars, Decimal.integer?_repr]
  | quad n => simp [ofDirective?, Datum.directive, valueChars, Decimal.integer?_repr]

theorem ofDirective?_align (a : Alignment) :
    ofDirective? ".align" a.bytes.repr.toList = some (.align a) := by
  simp [ofDirective?, Decimal.digits?_toDigits, a.pos]

/-- A row of a directive with something behind it. -/
theorem ofChars?_directive {d : String} (hd : d.toList.head? = some '.') (hs : ' ' ∉ d.toList)
    (hc : ':' ∉ d.toList) (rest : List Char) :
    ofChars? (line d rest) = ofDirective? d rest := by
  rw [line, ofChars?, firstWord_append hs, afterWord_append hs, if_neg (by simp), if_neg hc,
    if_pos (by rw [List.head?_append, hd]; rfl), String.ofList_toList]

end Row

/-- A line is its head, or its head and something behind a space. -/
theorem Instruction.toList_text_cases (i : Instruction) :
    i.text.toList = i.head.toList ∨ ∃ cs, i.text.toList = i.head.toList ++ ' ' :: cs := by
  rw [toList_text]
  cases hw : Operand.words i.operands with
  | nil => exact .inl (by simp [List.intercalate])
  | cons w ws => exact .inr ⟨[' '].intercalate (w :: ws), by simp [List.intercalate_cons_cons]⟩

namespace Row

theorem firstWord_text {i : Instruction} (h : i.hasIdentifiers = true) :
    firstWord i.text.toList = i.head.toList := by
  have hs := Instruction.space_not_mem_head h
  rcases i.toList_text_cases with ht | ⟨cs, ht⟩
  · rw [ht, firstWord_self hs]
  · rw [ht, firstWord_append hs]

/-- The first character of a line that is no label is a letter or a digit. -/
theorem exists_text_eq_cons {i : Instruction} (h : i.isLabel = false) :
    ∃ c cs, i.text.toList = c :: cs ∧ c.isAlphanum = true := by
  obtain ⟨ha, hn⟩ := Instruction.isAlphanum_head h
  obtain ⟨c, w, hw⟩ := List.exists_cons_of_ne_nil hn
  have hc : c.isAlphanum = true := by
    rw [hw, List.all_cons, Bool.and_eq_true] at ha
    exact ha.1
  rcases i.toList_text_cases with ht | ⟨cs, ht⟩
  · exact ⟨c, w, ht.trans hw, hc⟩
  · exact ⟨c, w ++ ' ' :: cs, by rw [ht, hw]; rfl, hc⟩

theorem ofChars?_text {i : Instruction} (hl : i.isLabel = false) (hi : i.hasIdentifiers = true) :
    ofChars? i.text.toList = some (.instruction i.text) := by
  obtain ⟨c, cs, ht, hc⟩ := exists_text_eq_cons hl
  have hcolon : ':' ∉ firstWord i.text.toList := by
    rw [firstWord_text hi]
    exact not_mem_of_isAlphanum (Instruction.isAlphanum_head hl).1 (by decide)
  have hdot : i.text.toList.head? ≠ some '.' := by
    rw [ht, List.head?_cons]
    intro he
    rw [Option.some.inj he] at hc
    exact absurd hc (by decide)
  rw [ofChars?, if_neg (by simp [ht]), if_neg hcolon, if_neg hdot, String.ofList_toList]

theorem directive_word (v : Datum) :
    v.directive.toList.head? = some '.' ∧ ' ' ∉ v.directive.toList ∧ ':' ∉ v.directive.toList := by
  cases v <;> simp [Datum.directive]

theorem ofChars?_chars {r : Row} (h : r.Proper) : ofChars? r.chars = some r := by
  cases r with
  | empty => rfl
  | opening d => rcases h with rfl | rfl <;> decide
  | globl n =>
    rw [chars, ofChars?_directive (by decide) (by decide) (by decide)]
    simp [ofDirective?]
  | align a =>
    rw [chars, ofChars?_directive (by decide) (by decide) (by decide)]
    exact ofDirective?_align a
  | name n =>
    have hs : ' ' ∉ n.toList ++ [':'] := by simpa using Identifier.not_mem h (by decide)
    simp [ofChars?, chars, firstWord_self hs]
  | instruction t =>
    obtain ⟨i, hl, hi, rfl⟩ := h
    exact ofChars?_text hl hi
  | datum v =>
    obtain ⟨hd, hs, hc⟩ := directive_word v
    rw [chars, ofChars?_directive hd hs hc, ofDirective?_datum]

/-- A row that is not empty starts with a character of identifiers. -/
theorem isPart_of_head?_chars {r : Row} (h : r.Proper) {c : Char} (hc : r.chars.head? = some c) :
    Identifier.isPart c = true := by
  cases r with
  | empty => exact nomatch hc
  | opening d =>
    rcases h with rfl | rfl <;> (obtain rfl := Option.some.inj hc; decide)
  | globl n => obtain rfl := Option.some.inj hc; decide
  | align a => obtain rfl := Option.some.inj hc; decide
  | name n =>
    obtain ⟨d, w, hw, hd, -⟩ := isIdentifier_iff.1 h
    rw [chars, hw] at hc
    obtain rfl := Option.some.inj hc
    simp [Identifier.isPart, hd]
  | instruction t =>
    obtain ⟨i, hl, -, rfl⟩ := h
    obtain ⟨d, cs, ht, hd⟩ := exists_text_eq_cons hl
    rw [chars, ht] at hc
    obtain rfl := Option.some.inj hc
    exact Identifier.isPart_of_isAlphanum hd
  | datum v =>
    rw [chars, line, List.head?_append, (directive_word v).1] at hc
    obtain rfl := Option.some.inj hc
    decide

theorem dropWhile_chars {r : Row} (h : r.Proper) : r.chars.dropWhile isIndent = r.chars := by
  cases hr : r.chars with
  | nil => rfl
  | cons c cs =>
    have hp : Identifier.isPart c = true := isPart_of_head?_chars h (by rw [hr]; rfl)
    apply List.dropWhile_cons_of_neg
    intro hi
    simp only [isIndent, Bool.or_eq_true, beq_iff_eq] at hi
    rcases hi with rfl | rfl <;> exact absurd hp (by decide)

/-- Reads a row behind any indent. -/
def read? (bs : List UInt8) : Option Row := ofChars? ((toChars bs).dropWhile isIndent)

theorem read?_bytes {l : Layout} (hl : l.Tidy) {r : Row} (h : r.Proper) :
    read? (r.bytes l) = some r := by
  have hd : ((if r.isIndented then l.indent.toList else []) ++ r.chars).dropWhile isIndent =
      r.chars := by
    split_ifs
    · rw [List.dropWhile_append_of_pos (List.all_eq_true.1 hl.indent), dropWhile_chars h]
    · exact dropWhile_chars h
  rw [read?, toChars_bytes hl h, hd, ofChars?_chars h]

theorem lineFeed_not_mem_bytes {l : Layout} (hl : l.Tidy) {r : Row} (h : r.Proper) :
    lineFeed ∉ r.bytes l := by
  intro hm
  have hc : '\n' ∈ toChars (r.bytes l) := List.mem_map.2 ⟨lineFeed, hm, by decide⟩
  rw [toChars_bytes hl h, List.mem_append] at hc
  rcases hc with hc | hc
  · split_ifs at hc
    · exact absurd (List.all_eq_true.1 hl.indent _ hc) (by decide)
    · exact nomatch hc
  · exact absurd (List.all_eq_true.1 (isPrintable_chars h) _ hc) (by decide)

end Row

/-! ## Reading the rows of an output -/

/-- Reads the rows between line feeds; nothing follows the last line feed. -/
def readRows? (bs : List UInt8) : Option (List Row) :=
  (bs.splitOn lineFeed).dropLast.mapM Row.read?

theorem Layout.write_eq_intercalate (l : Layout) (rs : List Row) :
    l.write rs = [lineFeed].intercalate (rs.map (Row.bytes l) ++ [[]]) := by
  induction rs with
  | nil => rfl
  | cons r rs ih =>
    obtain ⟨b, bs, hb⟩ := List.exists_cons_of_ne_nil
      (List.append_ne_nil_of_right_ne_nil (rs.map (Row.bytes l)) (List.cons_ne_nil [] []))
    rw [write_cons, ih, List.map_cons, List.cons_append, hb, List.intercalate_cons_cons]
    simp

theorem readRows?_write {l : Layout} (hl : l.Tidy) {rs : List Row} (h : ∀ r ∈ rs, r.Proper) :
    readRows? (l.write rs) = some rs := by
  have hsplit : (l.write rs).splitOn lineFeed = rs.map (Row.bytes l) ++ [[]] := by
    rw [Layout.write_eq_intercalate]
    apply List.splitOn_intercalate
    · intro b hb
      rcases List.mem_append.1 hb with hb | hb
      · obtain ⟨r, hr, rfl⟩ := List.mem_map.1 hb
        exact Row.lineFeed_not_mem_bytes hl (h r hr)
      · rw [List.mem_singleton.1 hb]
        exact List.not_mem_nil
    · exact List.append_ne_nil_of_right_ne_nil _ (List.cons_ne_nil _ _)
  rw [readRows?, hsplit, List.dropLast_concat]
  clear hsplit
  induction rs with
  | nil => rfl
  | cons r rs ih =>
    rw [List.map_cons, List.mapM_cons, Row.read?_bytes hl (h r List.mem_cons_self),
      ih fun q hq => h q (List.mem_cons_of_mem _ hq)]
    rfl

end AttAsm
