import AttAsm.Argument
import AttAsm.Text.Utf8

/-!
# Small programs

Three complete programs for any target: one that returns a code, one that prints a message, and one
that returns a factorial. All that depends on the target comes from its convention, and every
instruction goes through the constructors that refuse ill-formed ones.
-/

namespace AttAsm

inductive Program where
  | exit
  | hello
  | factorial
deriving DecidableEq

namespace Program

def name : Program → String
  | exit => "exit"
  | hello => "hello"
  | factorial => "factorial"

def all : List Program := [exit, hello, factorial]

/-- The program called so. -/
def find? (s : String) : Option Program := all.find? (·.name == s)

/-- The label of the message that is printed. -/
def messageLabel : String := "message"

/-- The record that opens the building of a program. -/
def announce (p : Program) (t : Target) : Logged Error Unit :=
  .note .debug ("Building " ++ p.name ++ " program for " ++ t.text)

/-- The alignment of a program's entry. -/
def entryAlignment (t : Target) : Nat :=
  match t.arch with
  | .bits32 => 4
  | .bits64 => 16

/-- The label at which a program starts. -/
def entry (t : Target) : Except Error Instruction :=
  Instruction.mkLabel (t.symbol "main") (entryAlignment t) true

/-- Puts a number into the low half of the return register. -/
def giveBack (t : Target) (n : Int) : Except Error Instruction := do
  let r ← t.returnRegister.atWidth .long
  Instruction.mkImmediate .mov n r

/-- `main` returns `code`. -/
def exitProgram (t : Target) (code : Int32) : Logged Error File := do
  announce exit t
  let main ← entry t
  let frame ← t.prologue 0
  let result ← giveBack t code.toInt
  return ⟨[.code ⟨[main] ++ frame ++ [result] ++ Target.epilogue⟩]⟩

/-- A frame, and the address of the message as the first argument of a call. -/
def passMessage (t : Target) : Logged Error (List Instruction) := do
  match ← t.firstPlace t.wordWidth with
  | .register r =>
    let frame ← t.prologue 0
    return frame ++ [.basedSymbol .lea messageLabel .rip r]
  | .stack offset =>
    let frame ← t.prologue t.wordBytes
    let store ← Instruction.mkStore .mov t.returnRegister offset t.stackPointer
    return frame ++ [.symbol .lea messageLabel t.returnRegister, store]

/-- `main` prints `message` and returns zero. -/
def helloProgram (t : Target) (message : String) : Logged Error File := do
  announce hello t
  let main ← entry t
  let argument ← passMessage t
  let result ← giveBack t 0
  return ⟨[.code ⟨[main] ++ argument ++ [t.call "puts", result] ++ Target.epilogue⟩,
    .data ⟨[.string messageLabel (Utf8.encode message)]⟩]⟩

/-- The label of a function's loop. -/
def loopLabel (name : String) : String := ".L" ++ name ++ "_loop"

/-- The label after a function's loop. -/
def doneLabel (name : String) : String := ".L" ++ name ++ "_done"

/-- Brings a function's first argument into `counter`. -/
def fetchArgument (t : Target) (counter : Register) : Except Error (List Instruction) := do
  match ← t.firstPlace t.wordWidth with
  | .register r =>
    if r = counter then return []
    let move ← Instruction.mkBinary .mov r counter
    return [move]
  | .stack _ =>
    let load ← Instruction.mkLoad .mov (t.stackArgumentOffset 0) t.framePointer counter
    return [load]

/-- A function of one word that multiplies the return register by a counter going down to one. -/
def factorialFunction (t : Target) (name : String) : Logged Error Code := do
  let product := t.returnRegister
  let counter ← Register.rcx.atWidth t.wordWidth
  let start ← Instruction.mkLabel name 16 false
  let frame ← t.prologue 0
  let fetch ← fetchArgument t counter
  let one ← Instruction.mkImmediate .mov 1 product
  let compare ← Instruction.mkImmediate .cmp 1 counter
  let multiply ← Instruction.mkBinary .imul counter product
  return ⟨[start] ++ frame ++ fetch ++
    [one, .localLabel (loopLabel name), compare, .branch .jle (doneLabel name), multiply,
      .unary .dec counter, .branch .jmp (loopLabel name), .localLabel (doneLabel name)]
    ++ Target.epilogue⟩

/-- A frame, and `n` as the first argument of a call. -/
def passNumber (t : Target) (n : Int) : Logged Error (List Instruction) := do
  match ← t.firstPlace t.wordWidth with
  | .register r =>
    let frame ← t.prologue 0
    let move ← Instruction.mkImmediate .mov n r
    return frame ++ [move]
  | .stack offset =>
    let frame ← t.prologue t.wordBytes
    let move ← Instruction.mkImmediate .mov n t.returnRegister
    let store ← Instruction.mkStore .mov t.returnRegister offset t.stackPointer
    return frame ++ [move, store]

/-- `main` returns the factorial of `n`. -/
def factorialProgram (t : Target) (n : Int32) : Logged Error File := do
  announce factorial t
  let name := t.symbol "factorial"
  let function ← factorialFunction t name
  let main ← entry t
  let argument ← passNumber t n.toInt
  return ⟨[.code ⟨function.instructions ++ [main] ++ argument ++ [.branch .call name]
    ++ Target.epilogue⟩]⟩

/-- The program for a target; `n` is the code to return or the number to work on. -/
def build (p : Program) (t : Target) (n : Int32) (message : String) : Logged Error File :=
  match p with
  | exit => exitProgram t n
  | hello => helloProgram t message
  | factorial => factorialProgram t n

end Program

end AttAsm
