import AttAsm.Check.Scan
import AttAsm.CommandLine.Options
import AttAsm.Emission.Writer

/-!
# A run

A run builds a program, writes it as a text, holds the text against the check file, and only then
puts it where it was asked to. It reaches files and outputs only through its `Surroundings`, in any
monad: the command runs in those of the system.
-/

namespace AttAsm.CommandLine

/-- What a run asks of the system around it. -/
structure Surroundings (m : Type → Type) where
  /-- Gives the contents of the file at a path. -/
  read : String → m (Except IoError (List UInt8))
  /-- Makes bytes the contents of the file at a path. -/
  write : String → List UInt8 → m (Except IoError Unit)
  /-- Puts bytes on the standard output. -/
  print : List UInt8 → m (Except IoError Unit)
  /-- Puts a text on the standard error. -/
  printError : String → m Unit

/-- Why a run failed. -/
inductive Failure where
  | model (e : Error)
  | emission (e : EmitError)
  | check (f : Check.Failure)
  | io (e : IoError)
deriving DecidableEq

def Failure.message : Failure → String
  | model e => e.message
  | emission e => e.message
  | check f => f.message
  | io e => e.message

/-- The line on which a failed run reports. -/
def report (f : Failure) : String := "Error: " ++ f.message ++ "\n"

namespace Options

/-- The text that the options ask for. -/
def text (o : Options) : Except Failure String := do
  let f ← (o.program.build o.target o.exitCode o.message).result.mapError .model
  (f.emitText o.layout).result.mapError .emission

/-- Holds a text against what was read of a check file. -/
def verify (text : String) (contents : Except IoError (List UInt8)) : Except Failure Unit :=
  match contents with
  | .error e => .error (.io e)
  | .ok bs =>
    match Utf8.decode bs with
    | .error _ => .error (.io ⟨.invalidData, "stream did not contain valid UTF-8"⟩)
    | .ok content => (Check.run content text).result.mapError .check

section

variable {m : Type → Type} [Monad m]

/-- Holds a text against the check file, if one was named. -/
def meetCheck (o : Options) (w : Surroundings m) (text : String) : m (Except Failure Unit) :=
  match o.check with
  | none => return .ok ()
  | some path => return verify text (← w.read path)

/-- Puts a text where it was asked to. -/
def publish (o : Options) (w : Surroundings m) (text : String) : m (Except IoError Unit) :=
  match o.output with
  | none => w.print (Utf8.encode text)
  | some path => w.write path (Utf8.encode text)

/-- A run in some surroundings. -/
def run (o : Options) (w : Surroundings m) : m (Except Failure Unit) := do
  match o.text with
  | .error f => return .error f
  | .ok text =>
    match ← o.meetCheck w text with
    | .error f => return .error f
    | .ok () => return (← o.publish w text).mapError .io

/-- A run that ends with an exit status. Why it failed is shown on the standard error. -/
def execute (o : Options) (w : Surroundings m) : m UInt32 := do
  match ← o.run w with
  | .ok () => return 0
  | .error f =>
    w.printError (report f)
    return 1

end

end Options

end AttAsm.CommandLine
