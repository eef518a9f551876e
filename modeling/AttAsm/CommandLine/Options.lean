import AttAsm.Emission.Event
import AttAsm.Program
import AttAsm.Text.Decimal

/-!
# Options

The grammar of the command line. An option with a value takes it after an equals sign or from the
next argument; the one with a short form also takes it directly after its letter. Each option may be
given once. Arguments are read from left to right, and the first that asks for help or breaks the
grammar decides.
-/

namespace AttAsm.CommandLine

/-- What one run is asked to do. -/
structure Options where
  target : Target
  program : Program
  exitCode : Int32
  message : String
  escapeStrings : Bool
  spaced : Bool
  /-- Where the text goes instead of the standard output. -/
  output : Option String
  /-- The check file that the text has to meet. -/
  check : Option String
deriving DecidableEq

namespace Options

/-- What no argument changes. -/
def standard : Options :=
  ⟨.standard, .exit, 0, "Hello, world!", false, false, none, none⟩

def layout (o : Options) : Layout :=
  { Layout.standard with
    spaced := o.spaced
    strings := if o.escapeStrings then .escaped else .verbatim }

end Options

/-- The options by name. -/
inductive Key where
  | target
  | program
  | exitCode
  | message
  | escapeStrings
  | spaced
  | output
  | check
deriving DecidableEq

namespace Key

def all : List Key :=
  [target, program, exitCode, message, escapeStrings, spaced, output, check]

/-- The name after the two hyphens. -/
def name : Key → String
  | target => "target"
  | program => "program"
  | exitCode => "exit-code"
  | message => "message"
  | escapeStrings => "escape-strings"
  | spaced => "spaced"
  | output => "output"
  | check => "check"

def find? (s : String) : Option Key := all.find? (·.name == s)

/-- The effect of an option without a value. -/
def flag? : Key → Option (Options → Options)
  | escapeStrings => some fun o => { o with escapeStrings := true }
  | spaced => some fun o => { o with spaced := true }
  | _ => none

/-- A path, which may not be empty. -/
def path? (v : String) : Option String := if v.isEmpty then none else some v

/-- The effect of an option with this value, if the value can be read. -/
def set? (k : Key) (v : String) (o : Options) : Option Options :=
  match k with
  | target => (Target.parse v).toOption.map fun t => { o with target := t }
  | program => (Program.find? v).map fun p => { o with program := p }
  | exitCode => (Decimal.int32? v).map fun n => { o with exitCode := n }
  | message => some { o with message := v }
  | output => (path? v).map fun p => { o with output := some p }
  | check => (path? v).map fun p => { o with check := some p }
  | escapeStrings | spaced => none

/-- An argument that may be the value of an option: no other option, unless it is a number that the
option can read. -/
def mayTake (k : Key) (v : String) : Bool :=
  match v.toList with
  | ['-'] => true
  | '-' :: _ => k == exitCode && (Decimal.int32? v).isSome
  | _ => true

end Key

/-- One argument by its shape. -/
inductive Token where
  | help
  /-- Two hyphens, after which no options follow. -/
  | last
  | option (k : Key) (value : Option String)
  | unknown
deriving DecidableEq

namespace Token

/-- The name and the value around the first equals sign. -/
def splitValue : List Char → List Char × Option (List Char)
  | [] => ([], none)
  | c :: r =>
    if c = '=' then ([], some r)
    else
      let (name, value) := splitValue r
      (c :: name, value)

/-- An argument behind two hyphens. -/
def ofLong (cs : List Char) : Token :=
  let (name, value) := splitValue cs
  if name = "help".toList then
    if value.isNone then help else unknown
  else
    match Key.find? (String.ofList name) with
    | some k => option k (value.map String.ofList)
    | none => unknown

/-- The value that stands directly behind a short option. -/
def attached : List Char → Option String
  | [] => none
  | '=' :: r => some (String.ofList r)
  | cs => some (String.ofList cs)

def ofArgument (arg : String) : Token :=
  match arg.toList with
  | ['-', '-'] => last
  | '-' :: '-' :: cs => ofLong cs
  | '-' :: 'o' :: cs => option .output (attached cs)
  | '-' :: 'h' :: _ => help
  | _ => unknown

end Token

/-- What a command line asks for. -/
inductive Request where
  | run (o : Options)
  | help
  | misuse
deriving DecidableEq

/-- Reads arguments on top of options already given, whose keys are `seen`. -/
def readFrom (seen : List Key) (o : Options) : List String → Request
  | [] => .run o
  | arg :: rest =>
    match Token.ofArgument arg with
    | .help => .help
    | .last => if rest.isEmpty then .run o else .misuse
    | .unknown => .misuse
    | .option k value =>
      if k ∈ seen then .misuse
      else
        match k.flag?, value with
        | some effect, none => readFrom (k :: seen) (effect o) rest
        | some _, some _ => .misuse
        | none, some v =>
          match k.set? v o with
          | some o' => readFrom (k :: seen) o' rest
          | none => .misuse
        | none, none =>
          match rest with
          | [] => .misuse
          | v :: rest' =>
            if k.mayTake v then
              match k.set? v o with
              | some o' => readFrom (k :: seen) o' rest'
              | none => .misuse
            else .misuse

/-- Reads a command line. -/
def read (args : List String) : Request := readFrom [] .standard args

end AttAsm.CommandLine
