import RegexLab.Proofs.Shell.Start
import RegexLab.Proofs.Text.Endings

/-!
# Ends of lines in a whole run

Three readers take a text apart into lines: the one of the lines to run, the one of the settings and
the one of the words to match. Each takes a carriage return off the end of a line, so how lines end
does not get through any of them. Two runs whose texts differ in nothing else take the same steps:
they show the same, and leave the same in the file for the output.

## Main definitions

* `Files.Alike` — files with the same lines, however these end.
* `World.Alike` — worlds whose files are alike, and equal in all that has been written.
* `Program.StartsAlike` — two ways to start that lead to the same run.
* `Program.finish` — the world at the end of a run.
* `Files.Respelled` — files after changes to how their lines end.
* `Program.OutFile` — the file that output goes to.
-/

namespace RegexLab

variable {files files' opened : Files} {w w' : World} {lines lines' arguments : List Bytes}
  {name input input' stdin stdin' : Bytes} {out : Option Bytes}

/-! ## Files -/

/-- The files have the same names and, however these end, the same lines. -/
def Files.Alike (files files' : Files) : Prop :=
  files.SameUnder Bytes.plainLines files'

namespace Files.Alike

theorem symm (h : files.Alike files') : files'.Alike files :=
  SameUnder.symm h

theorem locate_eq (h : files.Alike files') (path : Bytes) : files.locate path = files'.locate path :=
  SameUnder.locate_eq h path

/-- A path can be read in both or in none, and the lines are the same. -/
theorem read_cases (h : files.Alike files') (path : Bytes) :
    (∃ cause, files.read path = .error cause ∧ files'.read path = .error cause) ∨
      ∃ content content', files.read path = .ok content ∧ files'.read path = .ok content' ∧
        content.plainLines = content'.plainLines := by
  have hread := SameUnder.map_read_eq h path
  cases hcontent : files.read path <;> cases hcontent' : files'.read path <;>
    simp_all [Except.map]

/-- The same words are on the lines of a file. -/
theorem map_read_wordsOf (h : files.Alike files') (path : Bytes) :
    (files.read path).map Command.wordsOf = (files'.read path).map Command.wordsOf := by
  obtain ⟨cause, hread, hread'⟩ | ⟨content, content', hread, hread', hlines⟩ := h.read_cases path
  · rw [hread, hread']
  · rw [Bytes.plainLines, Bytes.plainLines] at hlines
    simp only [hread, hread', Except.map, Command.wordsOf_eq, hlines]

/-- Files stay alike when the same is written to one of them. -/
theorem put (h : files.Alike files') (name content : Bytes) :
    (files.put name content).Alike (files'.put name content) := by
  refine ⟨h.lookup, fun other => ?_⟩
  by_cases hother : other = name
  · rw [hother, find?_put_self, find?_put_self]
  · rw [find?_put_of_ne files hother, find?_put_of_ne files' hother]
    exact h.map_find? other

/-- A path can be written to in both or in none, and it leads to the same name. -/
theorem create_cases (h : files.Alike files') (path : Bytes) :
    (files.create path = none ∧ files'.create path = none) ∨
      ∃ name, files.create path = some (name, files.put name []) ∧
        files'.create path = some (name, files'.put name []) := by
  rw [create, create, h.lookup, SameUnder.isFile_eq h]
  split_ifs
  · exact .inl ⟨rfl, rfl⟩
  · cases files'.lookup.toWrite files'.isFile path.untilNul with
    | none => exact .inl ⟨rfl, rfl⟩
    | some name => exact .inr ⟨name, rfl, rfl⟩

end Files.Alike

/-! ## Settings -/

/-- How lines end does not matter to what they set. -/
theorem Settings.applyLines_congr (h : lines.map Bytes.stripReturn = lines'.map Bytes.stripReturn)
    (path : Bytes) (s : Settings) (number : Int32) :
    s.applyLines path lines number = s.applyLines path lines' number := by
  induction lines generalizing lines' s number with
  | nil =>
    obtain rfl := List.map_eq_nil_iff.mp h.symm
    rfl
  | cons line lines ih =>
    cases lines' with
    | nil => cases h
    | cons line' lines' =>
      obtain ⟨hline, hlines⟩ := List.cons.inj h
      unfold applyLines
      rw [hline]
      split
      · exact ih hlines _ _
      · rfl

/-- Files that are alike load in the same way. -/
theorem Settings.load_congr (h : files.Alike files') (path : Bytes) (s : Settings) :
    s.load files path = s.load files' path := by
  obtain ⟨cause, hread, hread'⟩ | ⟨content, content', hread, hread', hlines⟩ := h.read_cases path
  · simp only [load, hread, hread']
  · rw [Bytes.plainLines, Bytes.plainLines] at hlines
    simp only [load, hread, hread', Bytes.lines_eq_segments, applyLines_congr hlines]

/-! ## Worlds -/

/-- The files of the worlds are alike, and all that has been written is equal. -/
structure World.Alike (w w' : World) : Prop where
  files : w.files.Alike w'.files
  outlet : w.outlet = w'.outlet
  shown : w.shown = w'.shown
  same : ∀ name, w.outlet.name? = some name → w.files.find? name = w'.files.find? name

namespace World.Alike

/-- Worlds stay alike when both show the same. -/
theorem show_event (h : w.Alike w') (event : Event) :
    Alike { w with shown := event :: w.shown } { w' with shown := event :: w'.shown } :=
  ⟨h.files, h.outlet, congrArg (event :: ·) h.shown, h.same⟩

/-- Worlds stay alike when both let the same reach the file for the output. -/
theorem deliver (h : w.Alike w') (hname : w.outlet.name? = some name) (held : Backlog) :
    (w.deliver name held).Alike (w'.deliver name held) := by
  have hself : (w.deliver name held).files.find? name = (w'.deliver name held).files.find? name := by
    rw [find?_deliver, find?_deliver, h.same name hname]
  refine ⟨⟨h.files.lookup, fun other => ?_⟩, rfl, h.shown, fun other hother => ?_⟩
  · by_cases hother : other = name
    · rw [hother, hself]
    · simpa only [World.deliver, Files.find?_append_of_ne _ hother] using h.files.map_find? other
  · obtain rfl : name = other := Option.some.inj hother
    exact hself

/-- Worlds stay alike when the same is written to both. -/
theorem write (h : w.Alike w') (event : Event) : (w.write event).Alike (w'.write event) := by
  cases houtlet : w.outlet with
  | console =>
    rw [write_console houtlet, write_console (h.outlet ▸ houtlet)]
    exact h.show_event event
  | file name held =>
    have houtlet' : w'.outlet = .file name held := h.outlet ▸ houtlet
    have hname : w.outlet.name? = some name := by rw [houtlet, Outlet.name?]
    cases event with
    | log entry =>
      rw [write_log, write_log]
      exact h.show_event _
    | flush =>
      rw [write_flush houtlet, write_flush houtlet']
      exact h.deliver hname held
    | out text =>
      rw [write_out houtlet, write_out houtlet']
      split
      · exact ⟨h.files, rfl, h.shown, fun other hother => h.same other (hname.trans hother)⟩
      · exact h.deliver hname (held.add text)

theorem writeAll (h : w.Alike w') (written : Transcript) :
    (w.writeAll written).Alike (w'.writeAll written) := by
  induction written generalizing w w' with
  | nil => exact h
  | cons event written ih => exact ih (h.write event)

/-- Worlds stay alike when both run the same lines. -/
theorem runEach (h : w.Alike w') (greeting : Transcript) (input : List Bytes) (s : Session) :
    (Registry.standard.runEach greeting input s w).2.Alike
      (Registry.standard.runEach greeting input s w').2 := by
  induction input generalizing s w w' with
  | nil => exact h.writeAll greeting
  | cons line rest ih =>
    have hgreeting := h.writeAll greeting
    have hline : Registry.standard.runLine (w.writeAll greeting).files s line =
        Registry.standard.runLine (w'.writeAll greeting).files s line :=
      Registry.runLine_congr fun path _ => hgreeting.files.map_read_wordsOf path
    simp only [Registry.runEach, hline]
    split
    · exact hgreeting.writeAll _
    · exact ih (hgreeting.writeAll _) _

/-- Worlds stay alike when both run texts with the same lines. -/
theorem runLines (h : w.Alike w') (hinput : input.plainLines = input'.plainLines)
    (prompt : Option Bytes) (s : Session) :
    (Registry.standard.runLines { source := { rest := input }, prompt } s w).2.Alike
      (Registry.standard.runLines { source := { rest := input' }, prompt } s w').2 := by
  have hlines : (LineSource.lines { rest := input }).map Bytes.stripReturn =
      (LineSource.lines { rest := input' }).map Bytes.stripReturn := hinput
  rw [Registry.runLines_eq_runEach, Registry.runLines_eq_runEach, hlines]
  exact h.runEach _ _ s

end World.Alike

/-! ## Starting -/

namespace Program

/-- Two ways to start that lead to the same run: the worlds are alike, and the settings and what goes
wrong are equal, or the session, the prompt and the lines to run. -/
inductive StartsAlike : Settings × World × Except StartError (Session × Console) →
    Settings × World × Except StartError (Session × Console) → Prop
  | error {settings : Settings} {w w' : World} (e : StartError) : w.Alike w' →
      StartsAlike (settings, w, .error e) (settings, w', .error e)
  | ok {settings : Settings} {w w' : World} {input input' : Bytes} (s : Session)
      (prompt : Option Bytes) : w.Alike w' → input.plainLines = input'.plainLines →
      StartsAlike (settings, w, .ok (s, { source := { rest := input }, prompt }))
        (settings, w', .ok (s, { source := { rest := input' }, prompt }))

/-- The same settings are loaded from files that are alike. -/
theorem loadSettings_congr (h : files.Alike files') (named : Option Bytes) :
    loadSettings files named = loadSettings files' named := by
  unfold loadSettings
  simp only [Settings.load_congr h]
  obtain ⟨cause, hread, hread'⟩ | ⟨content, content', hread, hread', -⟩ :=
    h.read_cases defaultSettingsPath
  · rw [hread, hread']
  · rw [hread, hread']
    cases named <;> rfl

/-- In worlds that are alike the program gets ready in the same way. -/
theorem prepare_alike (h : w.Alike w') (hinput : input.plainLines = input'.plainLines)
    (named : Option Bytes) (prompted : Bool) :
    StartsAlike (prepare w named input prompted) (prepare w' named input' prompted) := by
  unfold prepare
  rw [loadSettings_congr h.files]
  split
  · exact .error _ h
  · split
    · exact .error _ (h.writeAll _)
    · exact .ok _ _ ((h.writeAll _).writeAll _) hinput

/-- The files that are named can be opened in both or in neither, and show the same lines. -/
theorem openFiles_alike (h : files.Alike files') (hstdin : stdin.plainLines = stdin'.plainLines)
    (replay : Option (Bytes × Bytes)) :
    (∃ e, openFiles files stdin replay = .error e ∧ openFiles files' stdin' replay = .error e) ∨
      ∃ (input input' : Bytes) (outlet : Outlet) (opened opened' : Files),
        openFiles files stdin replay = .ok (input, outlet, opened) ∧
        openFiles files' stdin' replay = .ok (input', outlet, opened') ∧
        input.plainLines = input'.plainLines ∧
        World.Alike { files := opened, outlet } { files := opened', outlet } := by
  cases replay with
  | none =>
    exact .inr ⟨stdin, stdin', .console, files, files', rfl, rfl, hstdin, h, rfl, rfl,
      by simp [Outlet.name?]⟩
  | some paths =>
    obtain ⟨input, output⟩ := paths
    cases hlocate : files.locate input with
    | error cause =>
      have hlocate' := (h.locate_eq input).symm.trans hlocate
      exact .inl ⟨.input, by simp [openFiles, hlocate], by simp [openFiles, hlocate']⟩
    | ok place =>
      have hlocate' := (h.locate_eq input).symm.trans hlocate
      obtain ⟨hcreate, hcreate'⟩ | ⟨name, hcreate, hcreate'⟩ := h.create_cases output
      · exact .inl ⟨.output, by simp [openFiles, hlocate, hcreate],
          by simp [openFiles, hlocate', hcreate']⟩
      · have hput := h.put name []
        refine .inr ⟨_, _, .file name .empty, files.put name [], files'.put name [],
          by simp only [openFiles, hlocate, hcreate], by simp only [openFiles, hlocate', hcreate'],
          Files.SameUnder.textAt_eq hput place, hput, rfl, rfl, ?_⟩
        intro other hother
        obtain rfl : name = other := Option.some.inj hother
        exact (Files.find?_put_self files name []).trans (Files.find?_put_self files' name []).symm

/-- The program starts in the same way with files that are alike. -/
theorem start_alike (h : files.Alike files') (hstdin : stdin.plainLines = stdin'.plainLines)
    (arguments : List Bytes) :
    StartsAlike (start arguments stdin files) (start arguments stdin' files') := by
  have hfirst : World.Alike { files } { files := files' } :=
    ⟨h, rfl, rfl, by simp [Outlet.name?]⟩
  rw [start_eq, start_eq]
  split
  · exact .error _ hfirst
  · rename_i asked _
    obtain ⟨e, hopen, hopen'⟩ | ⟨input, input', outlet, opened, opened', hopen, hopen', hinput, hw⟩ :=
      openFiles_alike h hstdin asked.replay
    · rw [hopen, hopen']
      exact .error e hfirst
    · rw [hopen, hopen']
      exact prepare_alike hw hinput _ _

/-! ## The whole run -/

def finish (registry : Registry) : Settings × World × Except StartError (Session × Console) → World
  | (_, w, .error _) => w
  | (_, w, .ok (s, c)) => (registry.runLines c s w).2.write .flush

/-- The report about a start that goes wrong does not reach any file. -/
theorem files_run (registry : Registry) (program : Bytes) (arguments : List Bytes) (stdin : Bytes)
    (files : Files) : (run registry program arguments stdin files).files =
      (finish registry (start (arguments.map Bytes.untilNul) stdin files)).files := by
  unfold run finish
  generalize start (arguments.map Bytes.untilNul) stdin files = started
  obtain ⟨settings, w, e | ready⟩ := started
  · simp only [World.writeAll_console]
  · rfl

/-- Files that are alike show the same in the end. -/
theorem run_alike (h : files.Alike files') (hstdin : stdin.plainLines = stdin'.plainLines)
    (program : Bytes) (arguments : List Bytes) :
    (run .standard program arguments stdin files).status =
        (run .standard program arguments stdin' files').status ∧
      (run .standard program arguments stdin files).stdout =
        (run .standard program arguments stdin' files').stdout ∧
      (finish .standard (start (arguments.map Bytes.untilNul) stdin files)).Alike
        (finish .standard (start (arguments.map Bytes.untilNul) stdin' files')) := by
  have hstart := start_alike h hstdin (arguments.map Bytes.untilNul)
  unfold run
  generalize start (arguments.map Bytes.untilNul) stdin files = started at hstart ⊢
  generalize start (arguments.map Bytes.untilNul) stdin' files' = started' at hstart ⊢
  cases hstart with
  | error e hw =>
    refine ⟨rfl, ?_, hw⟩
    simp only [World.writeAll_console, World.console, hw.shown]
  | ok s prompt hw hinput =>
    have hfinish := (hw.runLines hinput prompt s).write .flush
    refine ⟨rfl, ?_, hfinish⟩
    simp only [World.console, hfinish.shown]

/-- Until the end, only the file for the output changes. -/
theorem Opens.exists_finish_adds (h : Opens files (Arguments.others arguments) out opened)
    (registry : Registry) (stdin : Bytes) : ∃ text,
    World.Adds { files := opened, outlet := .fresh out } text
      (finish registry (start arguments stdin files)) := by
  obtain ⟨input, hstart⟩ := h.start_eq_prepare stdin
  rw [hstart, prepare]
  split
  · exact ⟨_, .refl _⟩
  · rename_i notes _
    have hnotes := World.adds_writeAll { files := opened, outlet := .fresh out } notes
    split
    · exact ⟨_, hnotes⟩
    · rename_i s more _
      have hmore := hnotes.trans (World.adds_writeAll _ more)
      obtain ⟨turns, stopped, -, hlines, -⟩ := registry.runs_runLines
        { source := { rest := input }, prompt := if out.isNone then some _ else none } s _
      exact ⟨_, (hmore.trans hlines).trans (World.adds_write _ .flush)⟩

end Program

/-! ## Changing how lines end -/

/-- The files `files'` are `files` after changes to how the lines of some of them end. -/
structure Files.Respelled (files files' : Files) : Prop where
  lookup : files.lookup = files'.lookup
  rel : ∀ name, Option.Rel Bytes.Respelled (files.find? name) (files'.find? name)

namespace Files.Respelled

theorem alike (h : files.Respelled files') : files.Alike files' := by
  refine ⟨h.lookup, fun name => ?_⟩
  match files.find? name, files'.find? name, h.rel name with
  | some _, some _, .some hcontent => exact congrArg some hcontent.plainLines_eq
  | none, none, .none => rfl

theorem refl (files : Files) : files.Respelled files := by
  refine ⟨rfl, fun name => ?_⟩
  cases files.find? name with
  | some content => exact .some .refl
  | none => exact .none

theorem put (h : files.Respelled files') {content content' : Bytes}
    (hcontent : content.Respelled content') (name : Bytes) :
    (files.put name content).Respelled (files'.put name content') := by
  refine ⟨h.lookup, fun other => ?_⟩
  by_cases hother : other = name
  · rw [hother, find?_put_self, find?_put_self]
    exact .some hcontent
  · rw [find?_put_of_ne files hother, find?_put_of_ne files' hother]
    exact h.rel other

end Files.Respelled

namespace Program

/-- With these arguments, output goes to the file with the given name. -/
def OutFile (arguments : List Bytes) (files : Files) (name : Bytes) : Prop :=
  ∃ opened, Opens files (Arguments.others (arguments.map Bytes.untilNul)) (some name) opened

/-- Which file output goes to does not depend on how lines end. -/
theorem OutFile.of_alike (h : OutFile arguments files name) (halike : files.Alike files') :
    OutFile arguments files' name := by
  obtain ⟨opened, hopens⟩ := h
  generalize hothers : Arguments.others (arguments.map Bytes.untilNul) = rest at hopens
  cases hopens with
  | @replay input output _ place _ hlocate hcreate =>
    have hlocate' := (halike.locate_eq input).symm.trans hlocate
    obtain ⟨hnone, -⟩ | ⟨other, hother, hcreate'⟩ := halike.create_cases output
    · cases hcreate.symm.trans hnone
    · obtain ⟨rfl, -⟩ := Prod.mk.inj (Option.some.inj (hcreate.symm.trans hother))
      have hopens' : Opens files' [input, output] (some name) (files'.put name []) :=
        .replay hlocate' hcreate'
      exact ⟨_, by rwa [hothers]⟩

/-- A run changes no file but the one that output goes to. -/
theorem find?_run_of_not_outFile (h : ¬ OutFile arguments files name) (registry : Registry)
    (program stdin : Bytes) :
    (run registry program arguments stdin files).files.find? name = files.find? name := by
  obtain ⟨out, opened, hopens⟩ | ⟨e, hfails⟩ :=
    opens_or_fails (arguments.map Bytes.untilNul) files
  · have hout : out ≠ some name := by
      rintro rfl
      exact h ⟨opened, hopens⟩
    obtain ⟨text, hadds⟩ := hopens.exists_finish_adds registry stdin
    rw [files_run, hadds.files.find?_eq name (by rwa [Outlet.name?_fresh]), hopens.find?_eq, if_neg hout]
  · obtain ⟨level, entries, hrun⟩ := hfails.run_eq
    rw [hrun]

/-- How lines end does not matter anywhere. Put carriage returns before the line feeds of any of the
texts, or a line feed behind their last lines: the run ends with the same status and shows the same,
it leaves the same in the file for the output, and it changes no other file. -/
theorem run_respelled (hstdin : stdin.Respelled stdin') (hfiles : files.Respelled files')
    (program : Bytes) (arguments : List Bytes) :
    (run .standard program arguments stdin files).status =
        (run .standard program arguments stdin' files').status ∧
      (run .standard program arguments stdin files).stdout =
        (run .standard program arguments stdin' files').stdout ∧
      (∀ name, OutFile arguments files name →
        (run .standard program arguments stdin files).files.find? name =
          (run .standard program arguments stdin' files').files.find? name) ∧
      ∀ name, ¬ OutFile arguments files name →
        (run .standard program arguments stdin files).files.find? name = files.find? name ∧
        (run .standard program arguments stdin' files').files.find? name = files'.find? name := by
  have halike := hfiles.alike
  obtain ⟨hstatus, hstdout, hfinish⟩ := run_alike halike hstdin.plainLines_eq program arguments
  refine ⟨hstatus, hstdout, ?_, fun name hname => ⟨?_, ?_⟩⟩
  · rintro name ⟨opened, hopens⟩
    obtain ⟨text, hadds⟩ := hopens.exists_finish_adds .standard stdin
    rw [files_run, files_run]
    exact hfinish.same name (by rw [hadds.name, Outlet.name?_fresh])
  · exact find?_run_of_not_outFile hname .standard program stdin
  · exact find?_run_of_not_outFile (fun h => hname (h.of_alike halike.symm)) .standard program stdin'

def fromInToOut : List Bytes :=
  [ascii "/tmp/in", ascii "/tmp/out"]

def matchWords : Files :=
  (({} : Files).put (ascii "words") (ascii "a\n\nb\n")).put (ascii "/tmp/in")
    (ascii "compile a*\nbatch words")

def matchWordsReturns : Files :=
  (({} : Files).put (ascii "words") (ascii "a\n\nb\n").withReturns).put (ascii "/tmp/in")
    ((ascii "compile a*\nbatch words").withReturns ++ [lineFeed])

theorem run_respelled_matchWords :
    (run .standard (ascii "shell") fromInToOut [] matchWords).stdout =
        ascii "[INFO] Matching 3 lines of words against \x60a*\x60.\n" ∧
      (run .standard (ascii "shell") fromInToOut [] matchWords).stdout =
        (run .standard (ascii "shell") fromInToOut [] matchWordsReturns).stdout ∧
      (run .standard (ascii "shell") fromInToOut [] matchWords).files.find? (ascii "/tmp/out") =
        (run .standard (ascii "shell") fromInToOut [] matchWordsReturns).files.find?
          (ascii "/tmp/out") := by
  have hwords : (ascii "a\n\nb\n").Respelled (ascii "a\n\nb\n").withReturns :=
    .returns .refl (by decide +kernel)
  have hlines : (ascii "compile a*\nbatch words").Respelled
      ((ascii "compile a*\nbatch words").withReturns ++ [lineFeed]) :=
    .feed (.returns .refl (by decide +kernel)) (by decide +kernel) (by decide +kernel)
  have hout : OutFile fromInToOut matchWords (ascii "/tmp/out") := by
    refine ⟨matchWords.put (ascii "/tmp/out") [], ?_⟩
    have hothers : Arguments.others (fromInToOut.map Bytes.untilNul) = fromInToOut := by
      decide +kernel
    have hlocate : matchWords.locate (ascii "/tmp/in") = .ok (.file (ascii "/tmp/in")) := by
      decide +kernel
    have hpath : (ascii "/tmp/out").untilNul = ascii "/tmp/out" ∧ ascii "/tmp/out" ≠ [] := by
      decide +kernel
    have hcreate : matchWords.create (ascii "/tmp/out") =
        some (ascii "/tmp/out", matchWords.put (ascii "/tmp/out") []) := by
      rw [Files.create, hpath.1, if_neg hpath.2]
      rfl
    rw [hothers]
    exact .replay hlocate hcreate
  have hstdout : (run .standard (ascii "shell") fromInToOut [] matchWords).stdout =
      ascii "[INFO] Matching 3 lines of words against \x60a*\x60.\n" := by decide +kernel
  have hstdin : Bytes.Respelled [] [] := .refl
  obtain ⟨-, hsame, hfiles, -⟩ := run_respelled hstdin
    (((Files.Respelled.refl {}).put hwords (ascii "words")).put hlines (ascii "/tmp/in"))
    (ascii "shell") fromInToOut
  exact ⟨hstdout, hsame, hfiles _ hout⟩

end Program

end RegexLab
