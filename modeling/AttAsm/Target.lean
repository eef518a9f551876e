import AttAsm.Width

/-!
# Targets

An operating system and an x86 architecture. A target is written `os-arch`; both halves have
synonyms when they are read.
-/

namespace AttAsm

inductive Os where
  | linux
  | macos
  | windows
deriving DecidableEq

def Os.text : Os → String
  | linux => "linux"
  | macos => "macos"
  | windows => "windows"

/-- The operating system of this name or synonym. -/
def Os.find? (s : String) : Option Os :=
  if s = "linux" then some linux
  else if s = "macos" ∨ s = "darwin" then some macos
  else if s = "windows" ∨ s = "win" then some windows
  else none

inductive Arch where
  | bits32
  | bits64
deriving DecidableEq

def Arch.text : Arch → String
  | bits32 => "x86_32"
  | bits64 => "x86_64"

/-- The architecture of this name or synonym. -/
def Arch.find? (s : String) : Option Arch :=
  if s = "x86_32" ∨ s = "i386" ∨ s = "i686" then some bits32
  else if s = "x86_64" ∨ s = "amd64" then some bits64
  else none

structure Target where
  os : Os
  arch : Arch
deriving DecidableEq

/-- Why a text names no target. -/
inductive TargetError where
  | missingSeparator (text : String)
  | unknownOs (text : String)
  | unknownArch (text : String)
deriving DecidableEq

def TargetError.message : TargetError → String
  | missingSeparator s => "Expected <os>-<arch>, got '" ++ s ++ "'"
  | unknownOs s => "Unknown operating system: " ++ s
  | unknownArch s => "Unknown architecture: " ++ s

namespace Target

/-- The target that stands for none given. -/
def standard : Target := ⟨.linux, .bits64⟩

def text (t : Target) : String := t.os.text ++ "-" ++ t.arch.text

/-- The parts before and after the first hyphen. -/
def split? : List Char → Option (List Char × List Char)
  | [] => none
  | c :: r => if c = '-' then some ([], r) else (split? r).map fun p => (c :: p.1, p.2)

/-- Reads a target. A fault in the operating system is reported before one in the architecture, and
all after the first hyphen belongs to the architecture. -/
def parse (s : String) : Except TargetError Target :=
  match split? s.toList with
  | none => .error (.missingSeparator s)
  | some (o, a) =>
    match Os.find? (String.ofList o) with
    | none => .error (.unknownOs (String.ofList o))
    | some os =>
      match Arch.find? (String.ofList a) with
      | none => .error (.unknownArch (String.ofList a))
      | some arch => .ok ⟨os, arch⟩

/-- The width of a pointer. -/
def wordWidth (t : Target) : Width :=
  match t.arch with
  | .bits32 => .long
  | .bits64 => .quad

/-- The size of a pointer in bytes. -/
def wordBytes (t : Target) : Nat := t.wordWidth.bytes

/-- Symbols start with an underscore in object files. -/
def hasUnderscore (t : Target) : Bool :=
  match t.os, t.arch with
  | .macos, _ => true
  | .windows, .bits32 => true
  | _, _ => false

/-- The assembler's name of a symbol of the C language. -/
def symbol (t : Target) (name : String) : String := if t.hasUnderscore then "_" ++ name else name

end Target

end AttAsm
