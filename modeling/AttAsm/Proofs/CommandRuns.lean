import AttAsm.CommandLine.Run
import AttAsm.Proofs.OutputText
import AttAsm.Proofs.WellFormed

/-!
# Runs of the command

Every program can be built for every target and written as a text under every layout
(`Program.exists_build`, `Program.exists_emitText`), so a run fails only at its check or when its
text is put out. All that comes before the text is put out is at most one request to read
(`CommandLine.Options.run_cases`), so what fails there leaves the standard output and the files as
they were.

The system is any set of states with any answers to the requests of a run. What is taken for granted
of it is `CommandLine.Surroundings.Lawful`.

Main statement: `CommandLine.Options.run_delivers`.
-/

namespace AttAsm

namespace Program

/-- The only string of a program is its message. -/
theorem eq_of_mem_payloads {p : Program} {t : Target} {n : Int32} {message : String} {f : File}
    (h : (p.build t n message).result = .ok f) {bs : List UInt8} (hb : bs ∈ f.payloads) :
    bs = Utf8.encode message := by
  obtain ⟨c, hs, -⟩ := build_spec h
  rw [File.payloads, hs, List.flatMap_cons] at hb
  cases p with
  | exit => exact nomatch hb
  | hello => exact List.mem_singleton.1 hb
  | factorial => exact nomatch hb

/-- A program is written as a text under every layout. -/
theorem exists_emitText {p : Program} {t : Target} {n : Int32} {message : String} {f : File}
    (h : (p.build t n message).result = .ok f) (l : Layout) :
    ∃ text, (f.emitText l).result = .ok text := by
  have hv : Utf8.Valid (f.bytes l) := by
    refine File.valid_bytes (.inr fun bs hb => ?_)
    rw [eq_of_mem_payloads h hb]
    exact Utf8.valid_encode message
  obtain ⟨text, ht⟩ := Utf8.valid_iff.1 hv
  exact ⟨text, by rw [File.emitText_result, ht]; rfl⟩

end Program

theorem mapError_eq_ok_iff {ε ε' α : Type} {x : Except ε α} {g : ε → ε'} {a : α} :
    x.mapError g = .ok a ↔ x = .ok a := by
  cases x with
  | error e => exact iff_of_false nofun nofun
  | ok b => exact ⟨fun h => by cases h; rfl, fun h => by cases h; rfl⟩

namespace CommandLine

variable {σ : Type}

/-- What the requests of a run do to the bytes on the standard output and to the contents of files.
Nothing is assumed about which requests succeed, nor about the state after one that failed. -/
structure Surroundings.Lawful (w : Surroundings (StateM σ)) (printed : σ → List UInt8)
    (contents : σ → String → Option (List UInt8)) : Prop where
  /-- Reading leaves the standard output as it is. -/
  printed_read : ∀ path s, printed (w.read path s).2 = printed s
  /-- Reading leaves the files as they are. -/
  contents_read : ∀ path s, contents (w.read path s).2 = contents s
  /-- What is printed goes behind what was printed before. -/
  printed_print : ∀ bytes s, (w.print bytes s).1 = .ok () →
    printed (w.print bytes s).2 = printed s ++ bytes
  /-- What is written becomes the entire contents of its file. -/
  contents_write : ∀ path bytes s, (w.write path bytes s).1 = .ok () →
    contents (w.write path bytes s).2 path = some bytes

namespace Options

variable (o : Options) (w : Surroundings (StateM σ)) (s : σ) (text : String)

/-- The text meets the check file, where one was named: the file can be read, it is a text, and the
output meets its directives. -/
def Passes : Prop :=
  o.check = none ∨ ∃ path content, o.check = some path ∧
    (w.read path s).1 = .ok (Utf8.encode content) ∧
    (Check.validate text (Check.CheckFile.parse content).directives).result = .ok ()

/-- The state after the check file was read, where one was named. -/
def checked : σ :=
  match o.check with
  | none => s
  | some path => (w.read path s).2

/-- The place of the output takes the text. -/
def CanPublish : Prop :=
  match o.output with
  | none => (w.print (Utf8.encode text) s).1 = .ok ()
  | some path => (w.write path (Utf8.encode text) s).1 = .ok ()

/-- The state after the one request that puts the text out. -/
def published : σ :=
  match o.output with
  | none => (w.print (Utf8.encode text) s).2
  | some path => (w.write path (Utf8.encode text) s).2

/-- Between `s` and `u` exactly the text was put out: it was added to the standard output, or it is
all that its file contains. -/
def Delivered (printed : σ → List UInt8) (contents : σ → String → Option (List UInt8)) (u : σ) :
    Prop :=
  match o.output with
  | none => printed u = printed s ++ Utf8.encode text
  | some path => contents u path = some (Utf8.encode text)

/-! ## The text and its check -/

variable {o w s text}

theorem text_eq {f : File} (hf : (o.program.build o.target o.exitCode o.message).result = .ok f)
    (ht : (f.emitText o.layout).result = .ok text) : o.text = .ok text := by
  rw [Options.text, hf]
  show (f.emitText o.layout).result.mapError Failure.emission = _
  rw [ht]
  rfl

theorem verify_eq_ok_iff {contents : Except IoError (List UInt8)} :
    verify text contents = .ok () ↔ ∃ content, contents = .ok (Utf8.encode content) ∧
      (Check.validate text (Check.CheckFile.parse content).directives).result = .ok () := by
  cases contents with
  | error e => exact iff_of_false nofun nofun
  | ok bs =>
    have hbs (content : String) : (.ok bs : Except IoError _) = .ok (Utf8.encode content) ↔
        Utf8.decode bs = .ok content := by
      rw [Utf8.decode_eq_ok_iff, Except.ok.injEq, eq_comm]
    simp only [hbs, verify]
    cases Utf8.decode bs with
    | error fault => simp
    | ok content =>
      rw [mapError_eq_ok_iff]
      simp [Check.run]

/-- One request after another. -/
theorem bind_apply {α β : Type} (x : StateM σ α) (f : α → StateM σ β) (s : σ) :
    (x >>= f) s = f (x s).1 (x s).2 :=
  rfl

/-- Holding the text against its check is at most one request to read. -/
theorem meetCheck_cases (o : Options) (w : Surroundings (StateM σ)) (s : σ) (text : String) :
    (o.Passes w s text ∧ o.meetCheck w text s = (.ok (), o.checked w s)) ∨
      (¬ o.Passes w s text ∧ ∃ f, o.meetCheck w text s = (.error f, o.checked w s)) := by
  unfold meetCheck checked
  cases hc : o.check with
  | none => exact .inl ⟨.inl hc, rfl⟩
  | some path =>
    have hpass : o.Passes w s text ↔ verify text (w.read path s).1 = .ok () := by
      rw [verify_eq_ok_iff, Passes, hc]
      simp
    simp only [hpass, bind_apply]
    cases verify text (w.read path s).1 with
    | error f => exact .inr ⟨nofun, f, rfl⟩
    | ok u => exact .inl ⟨rfl, rfl⟩

/-! ## Putting the text out -/

theorem publish_eq_ok_iff : (o.publish w text s).1 = .ok () ↔ o.CanPublish w s text := by
  unfold publish CanPublish
  cases o.output <;> exact Iff.rfl

theorem publish_snd : (o.publish w text s).2 = o.published w s text := by
  unfold publish published
  cases o.output <;> rfl

section

variable {printed : σ → List UInt8} {contents : σ → String → Option (List UInt8)}

/-- Reading the check file changes neither the standard output nor a file. -/
theorem unchanged_checked (hw : w.Lawful printed contents) (o : Options) (s : σ) :
    printed (o.checked w s) = printed s ∧ contents (o.checked w s) = contents s := by
  unfold checked
  cases o.check with
  | none => exact ⟨rfl, rfl⟩
  | some path => exact ⟨hw.printed_read path s, hw.contents_read path s⟩

theorem delivered_published (hw : w.Lawful printed contents) (h : o.CanPublish w s text) :
    o.Delivered s text printed contents (o.published w s text) := by
  unfold CanPublish at h
  unfold Delivered published
  cases ho : o.output with
  | none =>
    rw [ho] at h
    exact hw.printed_print _ s h
  | some path =>
    rw [ho] at h
    exact hw.contents_write path _ s h

theorem delivered_congr {s' u : σ} (h : printed s' = printed s)
    (hd : o.Delivered s' text printed contents u) : o.Delivered s text printed contents u := by
  unfold Delivered at hd ⊢
  rwa [h] at hd

end

/-! ## Runs -/

/-- A run that passes its check puts its text out, and any other has only read. -/
theorem run_cases (ht : o.text = .ok text) (w : Surroundings (StateM σ)) (s : σ) :
    (o.Passes w s text ∧
      (o.run w s).1 = (o.publish w text (o.checked w s)).1.mapError .io ∧
      (o.run w s).2 = o.published w (o.checked w s) text) ∨
    (¬ o.Passes w s text ∧ (∃ f, (o.run w s).1 = .error f) ∧ (o.run w s).2 = o.checked w s) := by
  unfold run
  rw [ht, ← publish_snd]
  simp only [bind_apply]
  rcases meetCheck_cases o w s text with ⟨hp, h⟩ | ⟨hp, f, h⟩
  · rw [h]
    exact .inl ⟨hp, rfl, rfl⟩
  · rw [h]
    exact .inr ⟨hp, ⟨f, rfl⟩, rfl⟩

/-- The exit status tells whether the run succeeded. -/
theorem execute_eq_zero_iff (o : Options) (w : Surroundings (StateM σ)) (s : σ) :
    (o.execute w s).1 = 0 ↔ (o.run w s).1 = .ok () := by
  unfold execute
  rw [bind_apply]
  cases (o.run w s).1 with
  | error f => exact iff_of_false (show (1 : UInt32) ≠ 0 by decide) nofun
  | ok u => exact iff_of_true rfl rfl

/-- **A run fails only at its check or at its output.** The program is built and written as a text
whatever was asked for. The run succeeds exactly when the text meets its check and can be put out. A
run that does not meet its check has only read, and any other has then made the one request that
puts the text out. So the former changes neither the standard output nor a file, and after a success
exactly the text was put out. -/
theorem run_delivers (w : Surroundings (StateM σ)) (o : Options) (s : σ) :
    ∃ f text, (o.program.build o.target o.exitCode o.message).result = .ok f ∧
      (∀ l : Layout, ∃ t, (f.emitText l).result = .ok t) ∧
      (f.emitText o.layout).result = .ok text ∧
      ((o.run w s).1 = .ok () ↔ o.Passes w s text ∧ o.CanPublish w (o.checked w s) text) ∧
      ((o.execute w s).1 = 0 ↔ (o.run w s).1 = .ok ()) ∧
      (¬ o.Passes w s text → (o.run w s).2 = o.checked w s) ∧
      (o.Passes w s text → (o.run w s).2 = o.published w (o.checked w s) text) ∧
      ∀ printed contents, w.Lawful printed contents →
        (¬ o.Passes w s text →
          printed (o.run w s).2 = printed s ∧ contents (o.run w s).2 = contents s) ∧
        ((o.run w s).1 = .ok () → o.Delivered s text printed contents (o.run w s).2) := by
  obtain ⟨f, hf⟩ := o.program.exists_build o.target o.exitCode o.message
  have hl := Program.exists_emitText hf
  obtain ⟨text, ht⟩ := hl o.layout
  refine ⟨f, text, hf, hl, ht, ?_⟩
  rcases run_cases (text_eq hf ht) w s with ⟨hp, hr, hu⟩ | ⟨hp, ⟨e, hr⟩, hu⟩
  · have hok : (o.run w s).1 = .ok () ↔ o.CanPublish w (o.checked w s) text := by
      rw [hr, mapError_eq_ok_iff, publish_eq_ok_iff]
    refine ⟨?_, o.execute_eq_zero_iff w s, absurd hp, fun _ => hu, ?_⟩
    · rw [hok, and_iff_right hp]
    · intro printed contents hw
      refine ⟨absurd hp, fun h => ?_⟩
      rw [hu]
      exact delivered_congr (unchanged_checked hw o s).1 (delivered_published hw (hok.1 h))
  · have hok : (o.run w s).1 ≠ .ok () := by
      rw [hr]
      exact nofun
    refine ⟨iff_of_false hok fun h => hp h.1, o.execute_eq_zero_iff w s, fun _ => hu,
      fun h => absurd h hp, ?_⟩
    intro printed contents hw
    rw [hu]
    exact ⟨fun _ => unchanged_checked hw o s, fun h => absurd h hok⟩

end Options

/-! ## A working directory -/

/-- The files of a directory that can be written, and what was printed. -/
structure Desk where
  files : List (String × List UInt8)
  printed : List UInt8

namespace Desk

def contents (d : Desk) (path : String) : Option (List UInt8) := d.files.lookup path

def surroundings : Surroundings (StateM Desk) where
  read path d :=
    match d.contents path with
    | some bytes => (.ok bytes, d)
    | none => (.error ⟨.notFound, "No such file or directory (os error 2)"⟩, d)
  write path bytes d := (.ok (), { d with files := (path, bytes) :: d.files })
  print bytes d := (.ok (), { d with printed := d.printed ++ bytes })
  printError _ d := ((), d)

theorem read_snd (path : String) (d : Desk) : (surroundings.read path d).2 = d := by
  simp only [surroundings]
  cases d.contents path <;> rfl

theorem lawful : surroundings.Lawful printed contents where
  printed_read path d := by rw [read_snd]
  contents_read path d := by rw [read_snd]
  printed_print bytes d _ := rfl
  contents_write path bytes d _ := List.lookup_cons_self

/-- A directory with a check file that asks for nothing. -/
def start : Desk := ⟨[("out.check", Utf8.encode "# COM: as it comes")], []⟩

end Desk

/-- Options that name both files. -/
def Options.filed : Options := { standard with output := some "out.s", check := some "out.check" }

/-- The check file is read and passed, and the text is in its file. -/
theorem Options.run_delivers_desk : Desk.surroundings.Lawful Desk.printed Desk.contents ∧
    ∃ (f : File) (text : String), (f.emitText filed.layout).result = .ok text ∧
      (filed.run Desk.surroundings Desk.start).1 = .ok () ∧
      Desk.contents (filed.run Desk.surroundings Desk.start).2 "out.s" =
        some (Utf8.encode text) := by
  obtain ⟨f, text, -, -, ht, hok, -, -, -, hlaw⟩ :=
    run_delivers Desk.surroundings filed Desk.start
  obtain ⟨-, hd⟩ := hlaw Desk.printed Desk.contents Desk.lawful
  have hcheck : (Check.validate text
      (Check.CheckFile.parse "# COM: as it comes").directives).result = .ok () := rfl
  have hrun := hok.2 ⟨.inr ⟨"out.check", "# COM: as it comes", rfl, rfl, hcheck⟩, rfl⟩
  exact ⟨Desk.lawful, f, text, ht, hrun, hd hrun⟩

end CommandLine

end AttAsm
