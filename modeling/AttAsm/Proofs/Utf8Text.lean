import AttAsm.Text.Utf8
import Mathlib.Order.Bounds.Basic
import Mathlib.Tactic.SplitIfs

/-!
# Reading UTF-8

A character stands at the front of some bytes exactly when they begin with its encoding
(`front_eq_char_iff`). So `decode` undoes `encode` and accepts nothing else (`decode_eq_ok_iff`), and a
fault is at the end of the longest readable beginning (`isGreatest_index`). A byte of ASCII never
belongs to a character of several bytes: what comes before it is read as if it stood alone
(`decode_append`).
-/

namespace AttAsm.Utf8

/-! ## Bytes of one character -/

theorem isTail_iff (b : UInt8) : isTail b = true ↔ 0x80 ≤ b.toNat ∧ b.toNat ≤ 0xBF := by
  simp [isTail, UInt8.le_iff_toNat_le]

theorem isSecond_iff (a b : UInt8) : isSecond a b = true ↔ 0x80 ≤ b.toNat ∧ b.toNat ≤ 0xBF ∧
    (a.toNat = 0xE0 → 0xA0 ≤ b.toNat) ∧ (a.toNat = 0xED → b.toNat ≤ 0x9F) ∧
    (a.toNat = 0xF0 → 0x90 ≤ b.toNat) ∧ (a.toNat = 0xF4 → b.toNat ≤ 0x8F) := by
  unfold isSecond
  simp only [← UInt8.toNat_inj, isTail, UInt8.le_iff_toNat_le]
  split_ifs <;> simp <;> simp at * <;> omega

theorem toNat_ofNat {n : Nat} (h : n.isValidChar) : (Char.ofNat n).val.toNat = n := by
  unfold Char.ofNat
  rw [dif_pos h]
  rfl

theorem codePoint_one (n : Nat) (b₁ : UInt8) :
    codePoint n [b₁] = Char.ofNat (n * 64 + b₁.toNat % 64) := rfl

theorem codePoint_two (n : Nat) (b₁ b₂ : UInt8) :
    codePoint n [b₁, b₂] = Char.ofNat ((n * 64 + b₁.toNat % 64) * 64 + b₂.toNat % 64) := rfl

theorem codePoint_three (n : Nat) (b₁ b₂ b₃ : UInt8) :
    codePoint n [b₁, b₂, b₃] =
      Char.ofNat (((n * 64 + b₁.toNat % 64) * 64 + b₂.toNat % 64) * 64 + b₃.toNat % 64) := rfl

theorem ofNat_eq {n : Nat} {b : UInt8} (h : n = b.toNat) : UInt8.ofNat n = b := by
  rw [h, UInt8.ofNat_toNat]

theorem encode_one {b : UInt8} (h : b.toNat < 0x80) :
    String.utf8EncodeChar (Char.ofNat b.toNat) = [b] := by
  have hv := toNat_ofNat (n := b.toNat) (.inl (by omega))
  unfold String.utf8EncodeChar
  simp only [hv]
  rw [if_pos (by omega), UInt8.ofNat_toNat]

theorem encode_two {b b₁ : UInt8} (hb : 0xC2 ≤ b.toNat ∧ b.toNat < 0xE0)
    (h₁ : isTail b₁ = true) :
    String.utf8EncodeChar (codePoint (b.toNat % 32) [b₁]) = [b, b₁] := by
  rw [isTail_iff] at h₁
  have hv := toNat_ofNat (n := b.toNat % 32 * 64 + b₁.toNat % 64) (.inl (by omega))
  unfold String.utf8EncodeChar
  rw [codePoint_one]
  simp only [hv]
  rw [if_neg (by omega), if_pos (by omega), ofNat_eq (b := b) (by omega),
    ofNat_eq (b := b₁) (by omega)]

theorem encode_three {b b₁ b₂ : UInt8} (hb : 0xE0 ≤ b.toNat ∧ b.toNat < 0xF0)
    (h₁ : isSecond b b₁ = true) (h₂ : isTail b₂ = true) :
    String.utf8EncodeChar (codePoint (b.toNat % 16) [b₁, b₂]) = [b, b₁, b₂] := by
  rw [isSecond_iff] at h₁
  rw [isTail_iff] at h₂
  have hv := toNat_ofNat
    (n := (b.toNat % 16 * 64 + b₁.toNat % 64) * 64 + b₂.toNat % 64)
    (by unfold Nat.isValidChar; omega)
  unfold String.utf8EncodeChar
  rw [codePoint_two]
  simp only [hv]
  rw [if_neg (by omega), if_neg (by omega), if_pos (by omega), ofNat_eq (b := b) (by omega),
    ofNat_eq (b := b₁) (by omega), ofNat_eq (b := b₂) (by omega)]

theorem encode_four {b b₁ b₂ b₃ : UInt8} (hb : 0xF0 ≤ b.toNat ∧ b.toNat < 0xF5)
    (h₁ : isSecond b b₁ = true) (h₂ : isTail b₂ = true) (h₃ : isTail b₃ = true) :
    String.utf8EncodeChar (codePoint (b.toNat % 8) [b₁, b₂, b₃]) = [b, b₁, b₂, b₃] := by
  rw [isSecond_iff] at h₁
  rw [isTail_iff] at h₂ h₃
  have hv := toNat_ofNat
    (n := ((b.toNat % 8 * 64 + b₁.toNat % 64) * 64 + b₂.toNat % 64) * 64 + b₃.toNat % 64)
    (by unfold Nat.isValidChar; omega)
  unfold String.utf8EncodeChar
  rw [codePoint_three]
  simp only [hv]
  rw [if_neg (by omega), if_neg (by omega), if_neg (by omega), ofNat_eq (b := b) (by omega),
    ofNat_eq (b := b₁) (by omega), ofNat_eq (b := b₂) (by omega), ofNat_eq (b := b₃) (by omega)]

/-! ## The front of some bytes -/

theorem front_one {b : UInt8} (h : b.toNat < 0x80) (bs : List UInt8) :
    front b bs = .char (Char.ofNat b.toNat) bs := by
  unfold front
  rw [if_pos (UInt8.lt_iff_toNat_lt.2 h)]
  rfl

theorem front_two {b : UInt8} (h : 0xC2 ≤ b.toNat ∧ b.toNat < 0xE0) (bs : List UInt8) :
    front b bs = frontTwo b bs := by
  unfold front
  simp only [UInt8.lt_iff_toNat_lt, UInt8.reduceToNat]
  rw [if_neg (by omega), if_neg (by omega), if_pos (by omega)]

theorem front_three {b : UInt8} (h : 0xE0 ≤ b.toNat ∧ b.toNat < 0xF0) (bs : List UInt8) :
    front b bs = frontThree b bs := by
  unfold front
  simp only [UInt8.lt_iff_toNat_lt, UInt8.reduceToNat]
  rw [if_neg (by omega), if_neg (by omega), if_neg (by omega), if_pos (by omega)]

theorem front_four {b : UInt8} (h : 0xF0 ≤ b.toNat ∧ b.toNat < 0xF5) (bs : List UInt8) :
    front b bs = frontFour b bs := by
  unfold front
  simp only [UInt8.lt_iff_toNat_lt, UInt8.reduceToNat]
  rw [if_neg (by omega), if_neg (by omega), if_neg (by omega), if_neg (by omega),
    if_pos (by omega)]

/-- The first byte decides which of the four forms a character has, or that it has none. -/
theorem front_cases (b : UInt8) :
    b.toNat < 0x80 ∨ (0xC2 ≤ b.toNat ∧ b.toNat < 0xE0) ∨ (0xE0 ≤ b.toNat ∧ b.toNat < 0xF0) ∨
      (0xF0 ≤ b.toNat ∧ b.toNat < 0xF5) ∨ ∀ bs, front b bs = .broken 1 := by
  by_cases h : b.toNat < 0x80 ∨ (0xC2 ≤ b.toNat ∧ b.toNat < 0xF5)
  · omega
  · refine .inr (.inr (.inr (.inr fun bs => ?_)))
    unfold front
    simp only [UInt8.lt_iff_toNat_lt, UInt8.reduceToNat]
    split_ifs <;> first | rfl | omega

/-- A character at the front is encoded there. -/
theorem encode_of_front {b : UInt8} {bs rest : List UInt8} {c : Char}
    (h : front b bs = .char c rest) : b :: bs = String.utf8EncodeChar c ++ rest := by
  rcases front_cases b with hb | hb | hb | hb | hb
  · rw [front_one hb] at h
    cases h
    rw [encode_one hb]
    rfl
  · rw [front_two hb] at h
    unfold frontTwo at h
    split at h
    · cases h
    · split_ifs at h with h₁
      cases h
      rw [encode_two hb h₁]
      rfl
  · rw [front_three hb] at h
    unfold frontThree at h
    split at h
    · cases h
    · cases h
    · split_ifs at h with h₁ h₂
      cases h
      rw [encode_three hb h₁ h₂]
      rfl
  · rw [front_four hb] at h
    unfold frontFour at h
    split at h
    · cases h
    · cases h
    · cases h
    · split_ifs at h with h₁ h₂ h₃
      cases h
      rw [encode_four hb h₁ h₂ h₃]
      rfl
  · rw [hb] at h
    cases h

theorem toNat_byte {n : Nat} (h : n < 256) : (UInt8.ofNat n).toNat = n :=
  UInt8.toNat_ofNat_of_lt' h

theorem ofNat_of_eq {n : Nat} {c : Char} (h : n = c.val.toNat) : Char.ofNat n = c := by
  rw [h]
  exact c.ofNat_toNat

/-- An encoded character is found at the front. -/
theorem front_of_encode {b : UInt8} {bs rest : List UInt8} {c : Char}
    (h : b :: bs = String.utf8EncodeChar c ++ rest) : front b bs = .char c rest := by
  have hv : c.val.toNat.isValidChar := c.valid
  unfold Nat.isValidChar at hv
  unfold String.utf8EncodeChar at h
  simp only at h
  split_ifs at h with h₁ h₂ h₃
  · obtain ⟨rfl, rfl⟩ := List.cons.inj h
    have hb : (UInt8.ofNat c.val.toNat).toNat = c.val.toNat := toNat_byte (by omega)
    rw [front_one (by omega), hb, ofNat_of_eq rfl]
  · obtain ⟨rfl, rfl⟩ := List.cons.inj h
    have hb := toNat_byte (n := c.val.toNat / 64 % 32 + 192) (by omega)
    have hb₁ := toNat_byte (n := c.val.toNat % 64 + 128) (by omega)
    rw [front_two (by omega)]
    show (if _ then _ else _) = _
    rw [if_pos ((isTail_iff _).2 (by omega)), codePoint_one, ofNat_of_eq (c := c) (by omega)]
    rfl
  · obtain ⟨rfl, rfl⟩ := List.cons.inj h
    have hb := toNat_byte (n := c.val.toNat / 4096 % 16 + 224) (by omega)
    have hb₁ := toNat_byte (n := c.val.toNat / 64 % 64 + 128) (by omega)
    have hb₂ := toNat_byte (n := c.val.toNat % 64 + 128) (by omega)
    rw [front_three (by omega)]
    show (if _ then if _ then _ else _ else _) = _
    rw [if_pos ((isSecond_iff _ _).2 (by omega)), if_pos ((isTail_iff _).2 (by omega)),
      codePoint_two, ofNat_of_eq (c := c) (by omega)]
    rfl
  · obtain ⟨rfl, rfl⟩ := List.cons.inj h
    have hb := toNat_byte (n := c.val.toNat / 262144 % 8 + 240) (by omega)
    have hb₁ := toNat_byte (n := c.val.toNat / 4096 % 64 + 128) (by omega)
    have hb₂ := toNat_byte (n := c.val.toNat / 64 % 64 + 128) (by omega)
    have hb₃ := toNat_byte (n := c.val.toNat % 64 + 128) (by omega)
    rw [front_four (by omega)]
    show (if _ then if _ then if _ then _ else _ else _ else _) = _
    rw [if_pos ((isSecond_iff _ _).2 (by omega)), if_pos ((isTail_iff _).2 (by omega)),
      if_pos ((isTail_iff _).2 (by omega)), codePoint_three, ofNat_of_eq (c := c) (by omega)]
    rfl

theorem front_eq_char_iff {b : UInt8} {bs rest : List UInt8} {c : Char} :
    front b bs = .char c rest ↔ b :: bs = String.utf8EncodeChar c ++ rest :=
  ⟨encode_of_front, front_of_encode⟩

/-! ## What follows a broken character -/

theorem isTail_of_lt {q : UInt8} (h : q.toNat < 0x80) : isTail q = false := by
  rw [Bool.eq_false_iff, ne_eq, isTail_iff]
  omega

theorem isSecond_of_lt {q : UInt8} (b : UInt8) (h : q.toNat < 0x80) : isSecond b q = false := by
  rw [Bool.eq_false_iff, ne_eq, isSecond_iff]
  omega

section Broken

variable {b q : UInt8} {bs : List UInt8} {n : Nat} (rest : List UInt8)

theorem frontTwo_append (hq : q.toNat < 0x80) (h : frontTwo b bs = .broken n) :
    frontTwo b (bs ++ q :: rest) = .broken n := by
  have ht := isTail_of_lt hq
  match bs with
  | [] => simpa [frontTwo, ht] using h
  | b₁ :: bs =>
    simp only [frontTwo, List.cons_append] at h ⊢
    split_ifs at h ⊢
    exact h

theorem frontThree_append (hq : q.toNat < 0x80) (h : frontThree b bs = .broken n) :
    frontThree b (bs ++ q :: rest) = .broken n := by
  have ht := isTail_of_lt hq
  have hs := isSecond_of_lt b hq
  match bs with
  | [] => cases rest <;> simpa [frontThree, hs] using h
  | [b₁] =>
    simp only [frontThree, List.cons_append, List.nil_append, ht,
      Bool.false_eq_true, if_false] at h ⊢
    split_ifs at h ⊢ <;> exact h
  | b₁ :: b₂ :: bs =>
    simp only [frontThree, List.cons_append] at h ⊢
    split_ifs at h ⊢ <;> exact h

theorem frontFour_append (hq : q.toNat < 0x80) (h : frontFour b bs = .broken n) :
    frontFour b (bs ++ q :: rest) = .broken n := by
  have ht := isTail_of_lt hq
  have hs := isSecond_of_lt b hq
  match bs with
  | [] =>
    match rest with
    | [] => simpa [frontFour, hs] using h
    | [_] => simpa [frontFour, hs] using h
    | _ :: _ :: _ => simpa [frontFour, hs] using h
  | [b₁] =>
    cases rest <;> simp only [frontFour, List.cons_append, List.nil_append, ht,
      Bool.false_eq_true, if_false] at h ⊢ <;>
      split_ifs at h ⊢ <;> exact h
  | [b₁, b₂] =>
    simp only [frontFour, List.cons_append, List.nil_append, ht,
      Bool.false_eq_true, if_false] at h ⊢
    split_ifs at h ⊢ <;> exact h
  | b₁ :: b₂ :: b₃ :: bs =>
    simp only [frontFour, List.cons_append] at h ⊢
    split_ifs at h ⊢ <;> exact h

/-- A byte of ASCII neither finishes a character nor lengthens its beginning. -/
theorem front_append_of_broken (hq : q.toNat < 0x80) (h : front b bs = .broken n) :
    front b (bs ++ q :: rest) = .broken n := by
  rcases front_cases b with hb | hb | hb | hb | hb
  · rw [front_one hb] at h
    cases h
  · rw [front_two hb] at h ⊢
    exact frontTwo_append rest hq h
  · rw [front_three hb] at h ⊢
    exact frontThree_append rest hq h
  · rw [front_four hb] at h ⊢
    exact frontFour_append rest hq h
  · rw [hb] at h ⊢
    exact h

end Broken

/-! ## Decoding -/

/-- The bytes are those of a text. -/
def Valid (bs : List UInt8) : Prop := ∃ s, encode s = bs

theorem valid_encode (s : String) : Valid (encode s) := ⟨s, rfl⟩

theorem Valid.append {a b : List UInt8} (ha : Valid a) (hb : Valid b) : Valid (a ++ b) := by
  obtain ⟨s, rfl⟩ := ha
  obtain ⟨t, rfl⟩ := hb
  exact ⟨s ++ t, encode_append s t⟩

/-- Bytes of ASCII are a text. -/
theorem valid_of_lt {bs : List UInt8} (h : ∀ b ∈ bs, b.toNat < 0x80) : Valid bs := by
  refine ⟨String.ofList (bs.map fun b => Char.ofNat b.toNat), ?_⟩
  rw [encode, String.toList_ofList, List.flatMap_map]
  induction bs with
  | nil => rfl
  | cons b bs ih =>
    obtain ⟨hb, hbs⟩ := List.forall_mem_cons.1 h
    rw [List.flatMap_cons, encode_one hb, ih hbs]
    rfl

theorem decodeFrom_char {b : UInt8} {bs rest : List UInt8} {c : Char}
    (h : front b bs = .char c rest) (i : Nat) :
    decodeFrom i (b :: bs) = (decodeFrom (i + c.utf8Size) rest).map (c :: ·) := by
  rw [decodeFrom]
  split
  · rename_i n h'
    rw [h] at h'
    cases h'
  · rename_i c' rest' h'
    rw [h] at h'
    cases h'
    rfl

theorem decodeFrom_broken {b : UInt8} {bs : List UInt8} {n : Nat}
    (h : front b bs = .broken n) (i : Nat) : decodeFrom i (b :: bs) = .error ⟨i, n⟩ := by
  rw [decodeFrom]
  split
  · rename_i n' h'
    rw [h] at h'
    cases h'
    rfl
  · rename_i c' rest' h'
    rw [h] at h'
    cases h'

/-- Characters in front are read first. -/
theorem decodeFrom_append (cs : List Char) (bs : List UInt8) (i : Nat) :
    decodeFrom i (cs.flatMap String.utf8EncodeChar ++ bs) =
      (decodeFrom (i + (cs.flatMap String.utf8EncodeChar).length) bs).map (cs ++ ·) := by
  induction cs generalizing i with
  | nil => cases h : decodeFrom i bs <;> simp [h, Except.map]
  | cons c cs ih =>
    obtain ⟨b, bs', hc⟩ := List.exists_cons_of_ne_nil (String.utf8EncodeChar_ne_nil (c := c))
    have hf : front b (bs' ++ (cs.flatMap String.utf8EncodeChar ++ bs)) = .char c _ :=
      front_eq_char_iff.2 (by rw [hc]; rfl)
    rw [List.flatMap_cons, List.append_assoc, hc, List.cons_append, decodeFrom_char hf, ih, ← hc,
      List.length_append, String.length_utf8EncodeChar, Nat.add_assoc]
    cases decodeFrom _ bs <;> rfl

/-- What is read is encoded. -/
theorem eq_of_decodeFrom {i : Nat} {bs : List UInt8} {cs : List Char}
    (h : decodeFrom i bs = .ok cs) : bs = cs.flatMap String.utf8EncodeChar := by
  fun_induction decodeFrom i bs generalizing cs with
  | case1 =>
    cases h
    rfl
  | case2 i b bs n hf => cases h
  | case3 i b bs c rest hf hl ih =>
    cases hr : decodeFrom (i + c.utf8Size) rest with
    | error f =>
      rw [hr] at h
      cases h
    | ok cs' =>
      rw [hr] at h
      cases h
      rw [List.flatMap_cons, ← ih hr]
      exact front_eq_char_iff.1 hf

/-- Reading stops at the first front without a character. -/
theorem exists_of_decodeFrom_error {i : Nat} {bs : List UInt8} {f : Fault}
    (h : decodeFrom i bs = .error f) : ∃ (cs : List Char) (b : UInt8) (rest : List UInt8),
      bs = cs.flatMap String.utf8EncodeChar ++ b :: rest ∧ front b rest = .broken f.length ∧
      f.index = i + (cs.flatMap String.utf8EncodeChar).length := by
  fun_induction decodeFrom i bs with
  | case1 => cases h
  | case2 i b bs n hf =>
    cases h
    exact ⟨[], b, bs, rfl, hf, rfl⟩
  | case3 i b bs c rest hf hl ih =>
    cases hr : decodeFrom (i + c.utf8Size) rest with
    | ok cs' =>
      rw [hr] at h
      cases h
    | error f =>
      rw [hr] at h
      cases h
      obtain ⟨cs, b', rest', hb, hf', hi⟩ := ih hr
      refine ⟨c :: cs, b', rest', ?_, hf', ?_⟩
      · rw [front_eq_char_iff.1 hf, hb, List.flatMap_cons, List.append_assoc]
      · rw [hi, List.flatMap_cons, List.length_append, String.length_utf8EncodeChar,
          Nat.add_assoc]

/-- Decoding is the inverse of encoding. -/
theorem decode_eq_ok_iff {bs : List UInt8} {s : String} : decode bs = .ok s ↔ encode s = bs := by
  unfold decode
  constructor
  · intro h
    cases hd : decodeFrom 0 bs with
    | error f =>
      rw [hd] at h
      cases h
    | ok cs =>
      rw [hd] at h
      cases h
      rw [encode, String.toList_ofList, ← eq_of_decodeFrom hd]
  · rintro rfl
    have h := decodeFrom_append s.toList [] 0
    rw [List.append_nil] at h
    rw [encode, h, decodeFrom]
    simp [Except.map]

/-- A fault is where the first front without a character is. -/
theorem decode_eq_error_iff {bs : List UInt8} {f : Fault} :
    decode bs = .error f ↔ ∃ s b rest, bs = encode s ++ b :: rest ∧
      front b rest = .broken f.length ∧ f.index = (encode s).length := by
  unfold decode
  constructor
  · intro h
    cases hd : decodeFrom 0 bs with
    | ok cs =>
      rw [hd] at h
      cases h
    | error g =>
      rw [hd] at h
      cases h
      obtain ⟨cs, b, rest, hb, hf, hi⟩ := exists_of_decodeFrom_error hd
      refine ⟨String.ofList cs, b, rest, ?_, hf, ?_⟩
      · rw [encode, String.toList_ofList, hb]
      · rw [encode, String.toList_ofList, hi, Nat.zero_add]
  · rintro ⟨s, b, rest, rfl, hf, hi⟩
    obtain ⟨index, length⟩ := f
    rw [encode, decodeFrom_append, decodeFrom_broken hf, Nat.zero_add]
    cases hi
    rfl

theorem valid_iff {bs : List UInt8} : Valid bs ↔ ∃ s, decode bs = .ok s := by
  simp only [decode_eq_ok_iff]
  rfl

theorem not_valid_iff {bs : List UInt8} : ¬ Valid bs ↔ ∃ f, decode bs = .error f := by
  rw [valid_iff]
  cases decode bs <;> simp

/-- The lengths of the texts that stand at the front of some bytes. -/
def readable (bs : List UInt8) : Set Nat := {n | n ≤ bs.length ∧ Valid (bs.take n)}

/-- The index of a fault is the length of the longest readable beginning. -/
theorem isGreatest_index {bs : List UInt8} {f : Fault} (h : decode bs = .error f) :
    IsGreatest (readable bs) f.index := by
  obtain ⟨s, b, rest, rfl, hf, hi⟩ := decode_eq_error_iff.1 h
  rw [hi]
  refine ⟨⟨by simp, by rw [List.take_left' rfl]; exact valid_encode s⟩, ?_⟩
  rintro n ⟨hn, u, hu⟩
  -- A longer text would have a character at the front of what follows `s`.
  by_contra hlt
  obtain ⟨m, rfl⟩ : ∃ m, n = (encode s).length + (m + 1) := ⟨n - (encode s).length - 1, by omega⟩
  rw [List.take_length_add_append, List.take_succ_cons] at hu
  have hok := decode_eq_ok_iff.2 hu
  cases hr : front b (rest.take m) with
  | broken k =>
    have he : decode _ = .error ⟨(encode s).length, k⟩ :=
      decode_eq_error_iff.2 ⟨s, b, rest.take m, rfl, hr, rfl⟩
    rw [he] at hok
    cases hok
  | char c r =>
    have hc : front b rest = .char c (r ++ rest.drop m) := by
      apply front_eq_char_iff.2
      rw [← List.append_assoc, ← front_eq_char_iff.1 hr, List.cons_append, List.take_append_drop]
    rw [hc] at hf
    cases hf

/-- A fault stays the first one behind a text and in front of a byte of ASCII. -/
theorem decode_append {a p : List UInt8} {f : Fault} {q : UInt8} (ha : Valid a)
    (hp : decode p = .error f) (hq : q.toNat < 0x80) (rest : List UInt8) :
    decode (a ++ p ++ q :: rest) = .error ⟨a.length + f.index, f.length⟩ := by
  obtain ⟨u, rfl⟩ := ha
  obtain ⟨s, b, r, rfl, hf, hi⟩ := decode_eq_error_iff.1 hp
  refine decode_eq_error_iff.2 ⟨u ++ s, b, r ++ q :: rest, ?_, front_append_of_broken rest hq hf, ?_⟩
  · simp [encode_append]
  · rw [hi, encode_append, List.length_append]

end AttAsm.Utf8
