import AttAsm.Check.Directive

/-!
# Scanning an output

Directives are matched against the lines of an output in one pass forward. The scan stands before
some line; each directive moves it on or fails.
-/

namespace AttAsm.Check

/-- Why an output does not meet a directive. Line numbers count from one. -/
inductive Failure where
  | patternNotFound (pattern : String)
  | labelNotFound (pattern : String)
  | noNextLine (pattern : String)
  | nextDiffers (pattern : String) (number : Nat) (line : String)
  | notEmpty (number : Nat) (line : String)
deriving DecidableEq

namespace Failure

/-- What was expected and what was found. -/
def reason : Failure → String
  | patternNotFound p => "CHECK: pattern '" ++ p ++ "' not found"
  | labelNotFound p => "CHECK-LABEL: pattern '" ++ p ++ "' not found"
  | noNextLine p => "CHECK-NEXT: no more lines, expected '" ++ p ++ "'"
  | nextDiffers p n l =>
    "CHECK-NEXT: expected '" ++ p ++ "' on line " ++ toString n ++ " but got '" ++ l ++ "'"
  | notEmpty n l => "CHECK-EMPTY: expected empty line " ++ toString n ++ " but got '" ++ l ++ "'"

def message (f : Failure) : String := "Check failed: " ++ f.reason

end Failure

/-- The first line at or after `i` that has the pattern. -/
def findFrom (lines : List (List Char)) (i : Nat) (pattern : String) : Option Nat :=
  ((lines.drop i).findIdx? (Text.contains pattern.toList)).map (i + ·)

namespace Directive

/-- The line before which the scan stands after this directive, when it stood before line `i`. -/
def advance (lines : List (List Char)) (i : Nat) : Directive → Except Failure Nat
  | comment _ => .ok i
  | check p =>
    match findFrom lines i p with
    | some j => .ok (j + 1)
    | none => .error (.patternNotFound p)
  | label p =>
    match findFrom lines i p with
    | some j => .ok (j + 1)
    | none => .error (.labelNotFound p)
  | next p =>
    match lines[i]? with
    | none => .error (.noNextLine p)
    | some l =>
      if Text.contains p.toList l then .ok (i + 1)
      else .error (.nextDiffers p (i + 1) (String.ofList l))
  | empty =>
    match lines[i]? with
    | none => .ok i
    | some l =>
      if (Text.trim l).isEmpty then .ok (i + 1) else .error (.notEmpty (i + 1) (String.ofList l))

/-- The record of a directive that left the scan before line `i`: a searched pattern names the line
that has it, counted from one. -/
def record? (i : Nat) : Directive → Option Record
  | check p => some ⟨.trace, "matched '" ++ p ++ "' at line " ++ toString i⟩
  | label p => some ⟨.trace, "matched '" ++ p ++ "' at line " ++ toString i⟩
  | _ => none

end Directive

/-- The line before which the scan stands after all directives. -/
def scan (lines : List (List Char)) (i : Nat) (ds : List Directive) : Except Failure Nat :=
  ds.foldlM (fun j d => d.advance lines j) i

/-- The records of a scan, up to its first failure. -/
def scanRecords (lines : List (List Char)) : Nat → List Directive → List Record
  | _, [] => []
  | i, d :: ds =>
    match d.advance lines i with
    | .error _ => []
    | .ok j => (d.record? j).toList ++ scanRecords lines j ds

/-- Matches directives against an output. -/
def validate (output : String) (ds : List Directive) : Logged Failure Unit :=
  let lines := Text.lines output.toList
  ⟨scanRecords lines 0 ds, (scan lines 0 ds).map fun _ => ()⟩

theorem scan_cons (lines : List (List Char)) (i : Nat) (d : Directive) (ds : List Directive) :
    scan lines i (d :: ds) = (d.advance lines i).bind fun j => scan lines j ds := rfl

theorem scan_append (lines : List (List Char)) (i : Nat) (a b : List Directive) :
    scan lines i (a ++ b) = (scan lines i a).bind fun j => scan lines j b := by
  simp only [scan, List.foldlM_append]
  rfl

/-- Reads a check file and matches it against an output. -/
def run (content output : String) : Logged Failure Unit :=
  let f := CheckFile.parse content
  let v := validate output f.directives
  ⟨f.record :: v.log, v.result⟩

end AttAsm.Check
