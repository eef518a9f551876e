import AttAsm.Emission.Event

/-!
# Sinks

A sink keeps the bytes it is offered while it has room. It fails at the first byte that it has no
room for, having kept all bytes before it, and an offer of no bytes never fails. `Sink.run` plays a
list of events against a sink and stops at the first failure.

Main statement: a sink without a limit keeps all that is offered (`Sink.run_unlimited`).
-/

namespace AttAsm

/-- The kind of an input or output error, by its name. The kinds are those of the system, and there
may be others than the ones named here. -/
structure ErrorKind where
  name : String
deriving DecidableEq

namespace ErrorKind

def notFound : ErrorKind := ⟨"NotFound"⟩

def invalidData : ErrorKind := ⟨"InvalidData"⟩

/-- Not all bytes were taken, and no reason was given. -/
def writeZero : ErrorKind := ⟨"WriteZero"⟩

/-- The operation was interrupted and is to be tried again. -/
def interrupted : ErrorKind := ⟨"Interrupted"⟩

end ErrorKind

/-- An input or output error. -/
structure IoError where
  kind : ErrorKind
  message : String
deriving DecidableEq

/-- The error of bytes that a sink did not take without saying why. -/
def IoError.stuck : IoError := ⟨.writeZero, "failed to write whole buffer"⟩

/-- A place for bytes. -/
structure Sink where
  /-- The number of bytes it will still keep; `none` is no limit. -/
  room : Option Nat
  /-- How it fails when the room is used up. -/
  failure : IoError
  /-- How passing on what was kept will fail, if it does. -/
  flushFailure : Option IoError
  /-- An interruption is no failure: the bytes would be offered again. -/
  not_interrupted : failure.kind ≠ .interrupted
deriving DecidableEq

namespace Sink

/-- A sink that never fails. -/
def unlimited : Sink := ⟨none, .stuck, none, by decide⟩

/-- The bytes that are kept of an offer. -/
def keep (s : Sink) (bs : List UInt8) : List UInt8 :=
  match s.room with
  | none => bs
  | some n => bs.take n

/-- The offer is kept whole. -/
def accepts (s : Sink) (bs : List UInt8) : Bool :=
  match s.room with
  | none => true
  | some n => bs.length ≤ n

/-- The sink after an offer. -/
def after (s : Sink) (bs : List UInt8) : Sink := { s with room := s.room.map (· - bs.length) }

/-- What a list of events comes to. -/
structure Outcome where
  sink : Sink
  /-- The bytes kept. -/
  bytes : List UInt8
  /-- The lines completed. -/
  lines : Nat
  log : List Record
  error : Option IoError
deriving DecidableEq

/-- Plays events until the sink fails or none are left. -/
def run (s : Sink) : List Event → Outcome
  | [] => ⟨s, [], 0, [], none⟩
  | .note r :: es =>
    let o := run s es
    { o with log := r :: o.log }
  | .endLine :: es =>
    let o := run s es
    { o with lines := o.lines + 1 }
  | .write bs :: es =>
    if s.accepts bs then
      let o := run (s.after bs) es
      { o with bytes := s.keep bs ++ o.bytes }
    else ⟨s.after bs, s.keep bs, 0, [], some s.failure⟩

theorem run_flushFailure (s : Sink) (es : List Event) :
    (s.run es).sink.flushFailure = s.flushFailure := by
  fun_induction run s es with
  | case1 => rfl
  | case2 => assumption
  | case3 => assumption
  | case4 => assumption
  | case5 => rfl

theorem run_unlimited (s : Sink) (h : s.room = none) (es : List Event) :
    (s.run es).bytes = Event.offered es ∧ (s.run es).log = Event.noted es ∧
      (s.run es).error = none := by
  induction es generalizing s with
  | nil => exact ⟨rfl, rfl, rfl⟩
  | cons e es ih =>
    cases e with
    | note r =>
      obtain ⟨hb, hl, he⟩ := ih s h
      simp [run, hb, hl, he, Event.offered, Event.noted]
    | endLine =>
      obtain ⟨hb, hl, he⟩ := ih s h
      simp [run, hb, hl, he, Event.offered, Event.noted]
    | write bs =>
      obtain ⟨hb, hl, he⟩ := ih (s.after bs) (by simp [after, h])
      simp [run, accepts, keep, h, hb, hl, he, Event.offered, Event.noted]

end Sink

end AttAsm
