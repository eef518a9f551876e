/-!
# Records

What an operation reports on the way, as part of its value: a list of records in the order in which
they were written. `Logged` carries them beside a result that may be an error; the records written
before the error stay (`Logged.log_bind_of_error`).
-/

namespace AttAsm

/-- A sequence of steps gives a value when each step does. -/
theorem except_bind_eq_ok_iff {ε α β : Type} {x : Except ε α} {f : α → Except ε β} {b : β} :
    x >>= f = .ok b ↔ ∃ a, x = .ok a ∧ f a = .ok b := by
  cases x with
  | error e => exact iff_of_false nofun nofun
  | ok a => exact ⟨fun h => ⟨a, rfl, h⟩, fun ⟨_, ha, h⟩ => by cases ha; exact h⟩

/-- Severity, most severe first. -/
inductive Level where
  | error
  | warn
  | info
  | debug
  | trace
deriving DecidableEq

namespace Level

/-- The position from the most severe level. -/
def rank : Level → Nat
  | error => 0
  | warn => 1
  | info => 2
  | debug => 3
  | trace => 4

def name : Level → String
  | error => "ERROR"
  | warn => "WARN"
  | info => "INFO"
  | debug => "DEBUG"
  | trace => "TRACE"

/-- A reader at level `threshold` sees records of this level. -/
def visibleAt (l threshold : Level) : Bool := l.rank ≤ threshold.rank

end Level

/-- One line of the log. -/
structure Record where
  level : Level
  text : String
deriving DecidableEq

/-- A result that may be an error, and the records written until then. -/
structure Logged (ε α : Type) where
  log : List Record
  result : Except ε α

namespace Logged

variable {ε α β : Type}

def ok (a : α) : Logged ε α := ⟨[], .ok a⟩

/-- A result that reports nothing. -/
def ofExcept (x : Except ε α) : Logged ε α := ⟨[], x⟩

/-- Writes one record. -/
def note (level : Level) (text : String) : Logged ε Unit := ⟨[⟨level, text⟩], .ok ()⟩

/-- Continues with the value, unless there is none. -/
def andThen (x : Logged ε α) (f : α → Logged ε β) : Logged ε β :=
  match x.result with
  | .error e => ⟨x.log, .error e⟩
  | .ok a =>
    let y := f a
    ⟨x.log ++ y.log, y.result⟩

instance : Monad (Logged ε) where
  pure := ok
  bind := andThen

instance : MonadLift (Except ε) (Logged ε) where
  monadLift := ofExcept

theorem result_bind (x : Logged ε α) (f : α → Logged ε β) :
    (x >>= f).result = x.result.bind fun a => (f a).result := by
  show (andThen x f).result = _
  unfold andThen
  split <;> simp_all [Except.bind]

theorem bind_eq_ok_iff {x : Logged ε α} {f : α → Logged ε β} {b : β} :
    (x >>= f).result = .ok b ↔ ∃ a, x.result = .ok a ∧ (f a).result = .ok b := by
  rw [result_bind]
  exact except_bind_eq_ok_iff

theorem lift_bind_eq_ok_iff {x : Except ε α} {f : α → Logged ε β} {b : β} :
    ((liftM x : Logged ε α) >>= f).result = .ok b ↔ ∃ a, x = .ok a ∧ (f a).result = .ok b :=
  bind_eq_ok_iff

theorem lift_ok_bind (a : α) (f : α → Logged ε β) :
    (liftM (Except.ok a : Except ε α) : Logged ε α) >>= f = f a :=
  rfl

theorem lift_error_bind (e : ε) (f : α → Logged ε β) :
    (liftM (Except.error e : Except ε α) : Logged ε α) >>= f = ⟨[], .error e⟩ :=
  rfl

theorem log_bind_of_ok {x : Logged ε α} {a : α} (h : x.result = .ok a) (f : α → Logged ε β) :
    (x >>= f).log = x.log ++ (f a).log := by
  show (andThen x f).log = _
  rw [andThen, h]

theorem log_bind_of_error {x : Logged ε α} {e : ε} (h : x.result = .error e)
    (f : α → Logged ε β) : (x >>= f).log = x.log := by
  show (andThen x f).log = _
  rw [andThen, h]

theorem result_pure (a : α) : (pure a : Logged ε α).result = .ok a := rfl

end Logged

end AttAsm
