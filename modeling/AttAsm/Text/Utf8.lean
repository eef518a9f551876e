/-!
# UTF-8

`encode` writes a text as bytes and `decode` reads it back. What is no encoded text is refused with
the place of its first fault: the index is the length of the longest readable beginning, and the
length is the number of bytes there that begin a character and do not finish one, at least one.
-/

namespace AttAsm.Utf8

/-- The bytes of a text. -/
def encode (s : String) : List UInt8 := s.toList.flatMap String.utf8EncodeChar

theorem encode_append (s t : String) : encode (s ++ t) = encode s ++ encode t := by
  simp [encode]

/-- The first place at which bytes stop being a text. -/
structure Fault where
  index : Nat
  length : Nat
deriving DecidableEq

/-- What stands at the front of some bytes: a character, or a beginning of one that breaks off
after `length` bytes. -/
inductive Front where
  | char (c : Char) (rest : List UInt8)
  | broken (length : Nat)

/-- A byte that continues a character. -/
def isTail (b : UInt8) : Bool := 0x80 ≤ b && b ≤ 0xBF

/-- A byte that may follow the first byte of a character of three or four bytes. The narrower
ranges leave out overlong forms, surrogates, and code points beyond the last. -/
def isSecond (first b : UInt8) : Bool :=
  if first = 0xE0 then 0xA0 ≤ b && b ≤ 0xBF
  else if first = 0xED then 0x80 ≤ b && b ≤ 0x9F
  else if first = 0xF0 then 0x90 ≤ b && b ≤ 0xBF
  else if first = 0xF4 then 0x80 ≤ b && b ≤ 0x8F
  else isTail b

/-- The code point given by the payload bits of a character's bytes. -/
def codePoint (first : Nat) (tail : List UInt8) : Char :=
  Char.ofNat (tail.foldl (fun n b => n * 64 + b.toNat % 64) first)

/-- The rest of a character of two bytes. -/
def frontTwo (b : UInt8) : List UInt8 → Front
  | [] => .broken 1
  | b₁ :: r => if isTail b₁ then .char (codePoint (b.toNat % 32) [b₁]) r else .broken 1

/-- The rest of a character of three bytes. -/
def frontThree (b : UInt8) : List UInt8 → Front
  | [] => .broken 1
  | [b₁] => .broken (if isSecond b b₁ then 2 else 1)
  | b₁ :: b₂ :: r =>
    if isSecond b b₁ then
      if isTail b₂ then .char (codePoint (b.toNat % 16) [b₁, b₂]) r else .broken 2
    else .broken 1

/-- The rest of a character of four bytes. -/
def frontFour (b : UInt8) : List UInt8 → Front
  | [] => .broken 1
  | [b₁] => .broken (if isSecond b b₁ then 2 else 1)
  | [b₁, b₂] => .broken (if isSecond b b₁ then if isTail b₂ then 3 else 2 else 1)
  | b₁ :: b₂ :: b₃ :: r =>
    if isSecond b b₁ then
      if isTail b₂ then
        if isTail b₃ then .char (codePoint (b.toNat % 8) [b₁, b₂, b₃]) r else .broken 3
      else .broken 2
    else .broken 1

/-- The front of the bytes that begin with `b`. -/
def front (b : UInt8) (bs : List UInt8) : Front :=
  if b < 0x80 then .char (codePoint b.toNat []) bs
  else if b < 0xC2 then .broken 1
  else if b < 0xE0 then frontTwo b bs
  else if b < 0xF0 then frontThree b bs
  else if b < 0xF5 then frontFour b bs
  else .broken 1

theorem length_of_front {b : UInt8} {bs rest : List UInt8} {c : Char}
    (h : front b bs = .char c rest) : rest.length ≤ bs.length := by
  unfold front frontTwo frontThree frontFour at h
  repeat' split at h
  all_goals first
    | (cases h; simp)
    | cases h
  all_goals omega

/-- Reads characters from bytes that start at `index`. -/
def decodeFrom (index : Nat) : List UInt8 → Except Fault (List Char)
  | [] => .ok []
  | b :: bs =>
    match h : front b bs with
    | .broken n => .error ⟨index, n⟩
    | .char c rest =>
      have := length_of_front h
      (decodeFrom (index + c.utf8Size) rest).map (c :: ·)
termination_by bs => bs.length

/-- The text that the bytes encode, or their first fault. -/
def decode (bs : List UInt8) : Except Fault String := (decodeFrom 0 bs).map String.ofList

end AttAsm.Utf8
