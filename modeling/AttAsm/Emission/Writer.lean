import AttAsm.Emission.Sink

/-!
# Writers

A writer holds a layout and a sink and counts the lines it has completed. It goes on after a failed
step: each step offers its own events to what is left of the sink. Whole files are emitted to a
sink, to a text or to a file that is created for them.

Main statement: to a sink that never fails, emission gives the bytes of the file
(`File.emit_result`).
-/

namespace AttAsm

/-- Why emission failed. -/
inductive EmitError where
  | io (cause : IoError)
  | notText (fault : Utf8.Fault)
deriving DecidableEq

namespace EmitError

def kind : EmitError → ErrorKind
  | io c => c.kind
  | notText _ => .invalidData

/-- The cause without its context. -/
def cause : EmitError → String
  | io c => c.message
  | notText f =>
    "invalid utf-8 sequence of " ++ toString f.length ++ " bytes from index " ++ toString f.index

def message (e : EmitError) : String := "I/O error while emitting assembly: " ++ e.cause

end EmitError

structure Writer where
  layout : Layout
  sink : Sink
  /-- The lines completed so far. -/
  lines : Nat
deriving DecidableEq

namespace Writer

/-- A writer that has written nothing. -/
def start (layout : Layout) (sink : Sink) : Writer := ⟨layout, sink, 0⟩

/-- What a writer can be asked to write. -/
inductive Item where
  | instruction (i : Instruction)
  | constant (c : Constant)
  | part (s : Section)
  | file (f : File)
deriving DecidableEq

/-- The events of an item under a layout. -/
def Item.events (l : Layout) : Item → List Event
  | instruction i => l.emitInstruction i
  | constant c => l.emitConstant c
  | part s => l.emitSection s
  | file f => l.emitFile f

/-- A writer after a step, with what the step did. -/
structure Step where
  writer : Writer
  /-- The bytes that this step added to the sink. -/
  bytes : List UInt8
  log : List Record
  error : Option EmitError
deriving DecidableEq

/-- Writes one item. -/
def write (w : Writer) (item : Item) : Step :=
  let o := w.sink.run (item.events w.layout)
  ⟨⟨w.layout, o.sink, w.lines + o.lines⟩, o.bytes, o.log, o.error.map .io⟩

/-- Passes on what the sink kept. -/
def finish (w : Writer) : Logged EmitError Unit :=
  match w.sink.flushFailure with
  | some e => .ofExcept (.error (.io e))
  | none => .note .debug ("Emitted " ++ toString w.lines ++ " lines")

end Writer

namespace File

/-- The bytes of a file under a layout. -/
def bytes (l : Layout) (f : File) : List UInt8 := Event.offered (l.emitFile f)

/-- Writes a file to a sink and passes it on; the value is what the sink kept. -/
def emitTo (l : Layout) (sink : Sink) (f : File) : Logged EmitError (List UInt8) :=
  let step := (Writer.start l sink).write (.file f)
  match step.error with
  | some e => ⟨step.log, .error e⟩
  | none => do
    (⟨step.log, .ok ()⟩ : Logged EmitError Unit)
    step.writer.finish
    return step.bytes

/-- Writes a file to a sink that never fails. -/
def emit (l : Layout) (f : File) : Logged EmitError (List UInt8) := f.emitTo l .unlimited

/-- Writes a file as a text. Verbatim strings may keep it from being one. -/
def emitText (l : Layout) (f : File) : Logged EmitError String := do
  let bs ← f.emit l
  Logged.ofExcept ((Utf8.decode bs).mapError .notText)

/-- Writes a file at a path. Creating the file there gives a sink for its contents, or fails. -/
def save (l : Layout) (f : File) (path : String) (created : Except IoError Sink) :
    Logged EmitError (List UInt8) := do
  let sink ← Logged.ofExcept (created.mapError .io)
  .note .debug ("Writing assembly to " ++ path)
  f.emitTo l sink

theorem emit_result (l : Layout) (f : File) : (f.emit l).result = .ok (f.bytes l) := by
  obtain ⟨hb, _, he⟩ := Sink.run_unlimited .unlimited rfl (l.emitFile f)
  have hf : (Sink.unlimited.run (l.emitFile f)).sink.flushFailure = none :=
    Sink.run_flushFailure _ _
  simp only [emit, emitTo, Writer.write, Writer.Item.events, Writer.start, he, Option.map_none,
    Logged.result_bind, Except.bind, Writer.finish, hf, hb]
  rfl

end File

end AttAsm
