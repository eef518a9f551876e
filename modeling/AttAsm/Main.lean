import AttAsm.CommandLine.Run

/-!
# The command

Runs in the files and the standard outputs of the system; all decisions are made by `CommandLine`.
-/

namespace AttAsm.CommandLine

/-- The help text. -/
def usage : String :=
  "Emit x86 assembly for small programs\n\n"
  ++ "Options:\n"
  ++ "      --target <os-arch>       [default: linux-x86_64]\n"
  ++ "      --program <program>      exit, hello or factorial [default: exit]\n"
  ++ "      --exit-code <number>     code to return, or number to work on [default: 0]\n"
  ++ "      --message <text>         [default: Hello, world!]\n"
  ++ "      --escape-strings         escape string constants\n"
  ++ "      --spaced                 put an empty line before every section\n"
  ++ "  -o, --output <path>          write to a file instead of the standard output\n"
  ++ "      --check <path>           hold the output against this check file\n"
  ++ "  -h, --help                   show this text\n"

/-- The kind of an error of the system. -/
def errorKind : IO.Error → ErrorKind
  | .noFileOrDirectory .. => .notFound
  | .interrupted .. => .interrupted
  | .permissionDenied .. => ⟨"PermissionDenied"⟩
  | .alreadyExists .. => ⟨"AlreadyExists"⟩
  | .resourceVanished .. => ⟨"BrokenPipe"⟩
  | .unexpectedEof => ⟨"UnexpectedEof"⟩
  | _ => ⟨"Other"⟩

/-- The text of an error of the system, with its number. -/
def errorText : IO.Error → String
  | .alreadyExists _ n text | .interrupted _ n text | .noFileOrDirectory _ n text
  | .invalidArgument _ n text | .permissionDenied _ n text | .resourceExhausted _ n text
  | .inappropriateType _ n text | .noSuchThing _ n text
  | .otherError n text | .resourceBusy n text | .resourceVanished n text
  | .unsupportedOperation n text | .hardwareFault n text | .unsatisfiedConstraints n text
  | .illegalOperation n text | .protocolError n text | .timeExpired n text =>
    text ++ " (os error " ++ toString n ++ ")"
  | .unexpectedEof => "unexpected end of file"
  | .userError text => text

/-- Takes an error of the system as a value. -/
def attempt {α : Type} (act : IO α) : IO (Except IoError α) := do
  try
    return .ok (← act)
  catch e => return .error ⟨errorKind e, errorText e⟩

/-- The files and the standard outputs of the system. -/
def system : Surroundings IO where
  read path := attempt do
    let file ← IO.FS.Handle.mk path .read
    return (← file.readBinToEnd).toList
  write path bytes := attempt do
    let file ← IO.FS.Handle.mk path .write
    file.write ⟨bytes.toArray⟩
    file.flush
  print bytes := attempt do
    let out ← IO.getStdout
    out.write ⟨bytes.toArray⟩
    out.flush
  printError text := IO.eprint text

end AttAsm.CommandLine

def main (args : List String) : IO UInt32 := do
  match AttAsm.CommandLine.read args with
  | .run o => o.execute AttAsm.CommandLine.system
  | .help =>
    IO.print AttAsm.CommandLine.usage
    return 0
  | .misuse =>
    IO.eprint AttAsm.CommandLine.usage
    return 2
