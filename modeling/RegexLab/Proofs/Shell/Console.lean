import RegexLab.Proofs.Shell.Reading
import RegexLab.Shell.Console

/-!
# Sessions with and without a prompt

Running an input is running its lines, up to and including the first one after which the session is
over. It makes no difference to the session whether there is a prompt before each line, nor where
the output goes. The output is what the lines write, with the prompts in front of it, and one more
prompt if the input ends before the session.

## Main definitions

* `Files.SameBut` — files of which at most one has changed.
* `World.output` — all that has been output.
* `World.Adds` — one world is another with more output.
* `LineSource.lines` — the lines that are still to be read.
* `Registry.runEach` — running several lines.
* `Turn`, `Registry.Runs` — the lines that are run, with what each of them writes.
-/

namespace RegexLab

variable {w w' w'' : World} {text text' name line path : Bytes} {s s' t t' : Session}
  {held : Backlog} {input : List Bytes} {registry : Registry} {stopped stopped' : Bool}

/-! ## Files -/

/-- The files are the same, but for the one with the given name if there is one. -/
structure Files.SameBut (out : Option Bytes) (files files' : Files) : Prop where
  lookup : files.lookup = files'.lookup
  find?_eq : ∀ name, out ≠ some name → files.find? name = files'.find? name

namespace Files.SameBut

variable {files files' files'' : Files} {out : Option Bytes}

theorem refl (out : Option Bytes) (files : Files) : files.SameBut out files :=
  ⟨rfl, fun _ _ => rfl⟩

theorem trans (h : files.SameBut out files') (h' : files'.SameBut out files'') :
    files.SameBut out files'' :=
  ⟨h.lookup.trans h'.lookup, fun name hname => (h.find?_eq name hname).trans (h'.find?_eq name hname)⟩

theorem append (files : Files) (name : Bytes) (more : List Bytes) :
    (files.append name more).SameBut (some name) files :=
  ⟨rfl, fun _ hother => find?_append_of_ne files (fun heq => hother (congrArg some heq.symm)) more⟩

/-- The same is read in files of which none has changed. -/
theorem read_eq (h : files.SameBut none files') (path : Bytes) :
    files.read path = files'.read path := by
  have hsame : files.SameUnder id files' :=
    ⟨h.lookup, fun name => congrArg _ (h.find?_eq name (by simp))⟩
  simpa using hsame.map_read_eq path

end Files.SameBut

/-! ## Output -/

def Outlet.name? : Outlet → Option Bytes
  | .console => none
  | .file name _ => some name

namespace World

/-- On a console every event is shown. -/
theorem write_console (h : w.outlet = .console) (event : Event) :
    w.write event = { w with shown := event :: w.shown } := by
  cases event <;> simp [write, h]

/-- The log is shown wherever output goes. -/
theorem write_log (w : World) (entry : LogEntry) :
    w.write (.log entry) = { w with shown := .log entry :: w.shown } :=
  rfl

theorem write_flush (h : w.outlet = .file name held) : w.write .flush = w.deliver name held := by
  simp [write, h]

theorem write_out (h : w.outlet = .file name held) (text : Bytes) : w.write (.out text) =
    if held.hasRoom text then { w with outlet := .file name (held.add text) }
    else w.deliver name (held.add text) := by
  simp [write, h]

/-- All that has been output, whether or not it has reached its file. -/
def output (w : World) : Bytes :=
  match w.outlet with
  | .console => Transcript.output w.shown.reverse
  | .file name held => (w.files.find? name).getD [] ++ held.content

/-- `w'` is `w` with more output, and no file has changed but the one that output goes to. -/
structure Adds (w : World) (text : Bytes) (w' : World) : Prop where
  output : w'.output = w.output ++ text
  name : w'.outlet.name? = w.outlet.name?
  files : w'.files.SameBut w.outlet.name? w.files

namespace Adds

theorem refl (w : World) : w.Adds [] w where
  output := (List.append_nil _).symm
  name := rfl
  files := .refl _ _

theorem trans (h : w.Adds text w') (h' : w'.Adds text' w'') : w.Adds (text ++ text') w'' where
  output := by rw [h'.output, h.output, List.append_assoc]
  name := h'.name.trans h.name
  files := (h.name ▸ h'.files).trans h.files

end Adds

/-- What reaches the file has been output before. -/
theorem adds_deliver (w : World) (held : Backlog) (h : w.outlet.name? = some name)
    (houtput : w.output ++ text = (w.files.find? name).getD [] ++ held.content) :
    w.Adds text (w.deliver name held) where
  output := by
    rw [houtput]
    simp [output, deliver, Backlog.content, Backlog.empty]
  name := h.symm
  files := h ▸ .append w.files name held.pieces

/-- An event adds its output. -/
theorem adds_write (w : World) (event : Event) : w.Adds event.output (w.write event) := by
  cases houtlet : w.outlet with
  | console =>
    rw [write_console houtlet]
    refine ⟨?_, rfl, .refl _ _⟩
    simp [output, houtlet, Transcript.output]
  | file name held =>
    have hname : w.outlet.name? = some name := by rw [houtlet, Outlet.name?]
    have houtput : w.output = (w.files.find? name).getD [] ++ held.content := by
      rw [output, houtlet]
    cases event with
    | log entry =>
      rw [write_log]
      exact ⟨by simp [output, houtlet, Event.output], rfl, .refl _ _⟩
    | flush =>
      rw [write_flush houtlet]
      exact adds_deliver w held hname (by simp [houtput, Event.output])
    | out text =>
      have hadd : w.output ++ text = (w.files.find? name).getD [] ++ (held.add text).content := by
        simp [houtput]
      rw [write_out houtlet]
      split
      · exact ⟨hadd.symm, hname.symm, .refl _ _⟩
      · exact adds_deliver w (held.add text) hname hadd

/-- A transcript adds its output. -/
theorem adds_writeAll (w : World) (written : Transcript) :
    w.Adds written.output (w.writeAll written) := by
  induction written generalizing w with
  | nil => exact .refl w
  | cons event written ih => exact (w.adds_write event).trans (ih _)

end World

/-! ## Lines -/

namespace LineSource

def lines (source : LineSource) : List Bytes :=
  if source.ended then [] else source.rest.segments

/-- There is a next line until all lines have been read. -/
theorem next?_cases (source : LineSource) :
    (source.lines = [] ∧ ∃ after, source.next? = (none, after)) ∨
      ∃ line after, source.lines = line :: after.lines ∧ source.next? = (some line, after) := by
  obtain ⟨rest, ended⟩ := source
  by_cases hnone : ended = true ∨ rest = []
  · refine .inl ⟨?_, { rest, ended := true }, ?_⟩
    · obtain rfl | rfl := hnone <;> simp [lines]
    · simp [next?, hnone]
  · obtain ⟨hended, hne⟩ := not_or.mp hnone
    obtain rfl : ended = false := by simpa using hended
    by_cases hmem : lineFeed ∈ rest
    · obtain ⟨line, rest, rfl, hline⟩ := List.eq_append_cons_of_mem hmem
      refine .inr ⟨line, { rest }, ?_, ?_⟩
      · simp [lines, Bytes.segments_append hline]
      · simp [next?, Bytes.takeLine_append hline]
    · refine .inr ⟨rest, { rest := [], ended := true }, ?_, ?_⟩
      · simp [lines, Bytes.segments_of_notMem hne hmem]
      · simp [next?, hne, Bytes.takeLine_of_notMem hmem]

end LineSource

/-- Run several lines with a greeting before each, until the session is over. If it is not, there is
one more greeting in the end. -/
def Registry.runEach (registry : Registry) (greeting : Transcript) :
    List Bytes → Session → World → Session × World
  | [], s, w => (s, w.writeAll greeting)
  | line :: rest, s, w =>
    let w := w.writeAll greeting
    let (written, s) := registry.runLine w.files s line
    let w := w.writeAll written
    if s.stopped then (s, w) else registry.runEach greeting rest s w

/-- A console runs the lines of its source, each without a carriage return at its end. -/
theorem Registry.runLines_eq_runEach (registry : Registry) (c : Console) (s : Session) (w : World) :
    registry.runLines c s w =
      registry.runEach c.greeting (c.source.lines.map Bytes.stripReturn) s w := by
  rw [runLines]
  obtain ⟨hlines, after, hnext⟩ | ⟨line, after, hlines, hnext⟩ := c.source.next?_cases
  · rw [hlines]
    split
    · rfl
    · simp_all
  · rw [hlines, List.map_cons, runEach]
    split
    · simp_all
    · rename_i line' after' hnext'
      obtain ⟨rfl, rfl⟩ : line' = line ∧ after' = after := by simpa [hnext] using hnext'.symm
      simp only [runLines_eq_runEach registry { c with source := after' }]
      rfl
termination_by c.source.rest.length
decreasing_by exact LineSource.length_rest_lt_of_next? hnext

/-! ## Turns -/

/-- A line that is run, with the files as they are then, and what it writes. -/
structure Turn where
  files : Files
  line : Bytes
  written : Transcript

/-- In its turn a line finds the files as they were at the start, but for the one that output goes
to. -/
def Turn.Finds (turn : Turn) (w : World) : Prop :=
  turn.files.SameBut w.outlet.name? w.files

/-- Of some lines, those in `turns` are run one after the other, up to and including the first one
after which the session is over. Whether there is such a line is told as well. -/
inductive Registry.Runs (registry : Registry) :
    Session → List Bytes → List Turn → Session → Bool → Prop
  | ended (s : Session) : Runs registry s [] [] s false
  | stop {s s' : Session} {files : Files} {line : Bytes} {written : Transcript}
      (rest : List Bytes) : registry.runLine files s line = (written, s') → s'.stopped = true →
      Runs registry s (line :: rest) [⟨files, line, written⟩] s' true
  | more {s s' t : Session} {files : Files} {line : Bytes} {written : Transcript}
      {rest : List Bytes} {turns : List Turn} {stopped : Bool} :
      registry.runLine files s line = (written, s') → s'.stopped = false →
      Runs registry s' rest turns t stopped →
      Runs registry s (line :: rest) (⟨files, line, written⟩ :: turns) t stopped

namespace Registry

/-- Running several lines takes turns, and each turn adds what it writes behind the greeting. -/
theorem runs_runEach (registry : Registry) (greeting : Transcript) (input : List Bytes)
    (s : Session) (w : World) :
    ∃ turns stopped, registry.Runs s input turns (registry.runEach greeting input s w).1 stopped ∧
      w.Adds (turns.flatMap (fun turn => greeting.output ++ turn.written.output) ++
        if stopped then [] else greeting.output) (registry.runEach greeting input s w).2 ∧
      ∀ turn ∈ turns, turn.Finds w := by
  induction input generalizing s w with
  | nil => exact ⟨[], false, .ended s, w.adds_writeAll greeting, by simp⟩
  | cons line rest ih =>
    have hgreeting := w.adds_writeAll greeting
    obtain ⟨⟨written, s'⟩, hline⟩ :
        ∃ answer, registry.runLine (w.writeAll greeting).files s line = answer := ⟨_, rfl⟩
    have hwritten := (w.writeAll greeting).adds_writeAll written
    simp only [runEach, hline]
    cases hstopped : s'.stopped with
    | true =>
      refine ⟨[⟨(w.writeAll greeting).files, line, written⟩], true, .stop rest hline hstopped,
        ?_, ?_⟩
      · simpa using hgreeting.trans hwritten
      · exact List.forall_mem_singleton.mpr hgreeting.files
    | false =>
      obtain ⟨turns, stopped, hruns, hadds, hfiles⟩ := ih s' ((w.writeAll greeting).writeAll written)
      have hbefore := hgreeting.trans hwritten
      refine ⟨⟨(w.writeAll greeting).files, line, written⟩ :: turns, stopped,
        .more hline hstopped hruns, ?_, ?_⟩
      · simpa using hbefore.trans hadds
      · refine List.forall_mem_cons.mpr ⟨hgreeting.files, fun turn hturn => ?_⟩
        have hfinds := hfiles turn hturn
        rw [Turn.Finds, hbefore.name] at hfinds
        exact hfinds.trans hbefore.files

/-- Running the lines of a console takes turns, and the greeting comes before each of them. -/
theorem runs_runLines (registry : Registry) (c : Console) (s : Session) (w : World) :
    ∃ turns stopped,
      registry.Runs s (c.source.lines.map Bytes.stripReturn) turns (registry.runLines c s w).1
        stopped ∧
      w.Adds (turns.flatMap (fun turn => c.greeting.output ++ turn.written.output) ++
        if stopped then [] else c.greeting.output) (registry.runLines c s w).2 ∧
      ∀ turn ∈ turns, turn.Finds w := by
  rw [runLines_eq_runEach]
  exact runs_runEach registry c.greeting _ s w

namespace Runs

variable {turns turns' : List Turn}

/-- A run of some lines takes a turn for the first of them. What that makes of the session does not
depend on the files, and decides whether the run goes on. -/
theorem cons_cases (h : standard.Runs s (line :: input) turns t stopped) (files : Files) :
    ∃ turn later, turns = turn :: later ∧ turn.line = line ∧
      turn.written = (standard.runLine turn.files s line).1 ∧
      ((standard.runLine files s line).2.stopped = true ∧ later = [] ∧
          t = (standard.runLine files s line).2 ∧ stopped = true ∨
        (standard.runLine files s line).2.stopped = false ∧
          standard.Runs (standard.runLine files s line).2 input later t stopped) := by
  cases h with
  | stop _ hline hstopped =>
    rename_i files' written
    rw [session_runLine_eq files files', hline]
    exact ⟨_, _, rfl, rfl, by rw [hline], .inl ⟨hstopped, rfl, rfl, rfl⟩⟩
  | more hline hstopped hruns =>
    rename_i mid files' written later
    rw [session_runLine_eq files files', hline]
    exact ⟨_, _, rfl, rfl, by rw [hline], .inr ⟨hstopped, hruns⟩⟩

/-- Two runs of the same lines take a turn for the first of them alike, and then both are over or both
go on with the same session. -/
theorem cons_cases_both (h : standard.Runs s (line :: input) turns t stopped)
    (h' : standard.Runs s (line :: input) turns' t' stopped') :
    ∃ turn turn' later later', turns = turn :: later ∧ turns' = turn' :: later' ∧
      turn.line = line ∧ turn'.line = line ∧
      turn.written = (standard.runLine turn.files s line).1 ∧
      turn'.written = (standard.runLine turn'.files s line).1 ∧
      (later = [] ∧ later' = [] ∧ t = t' ∧ stopped = stopped' ∨
        ∃ s', standard.Runs s' input later t stopped ∧
          standard.Runs s' input later' t' stopped') := by
  obtain ⟨turn, later, hturns, hline, hwritten, hend⟩ := h.cons_cases {}
  obtain ⟨turn', later', hturns', hline', hwritten', hend'⟩ := h'.cons_cases {}
  refine ⟨turn, turn', later, later', hturns, hturns', hline, hline', hwritten, hwritten', ?_⟩
  obtain ⟨hstop, rfl, rfl, rfl⟩ | ⟨hmore, hruns⟩ := hend <;>
    obtain ⟨hstop', rfl, rfl, rfl⟩ | ⟨hmore', hruns'⟩ := hend'
  · exact .inl ⟨rfl, rfl, rfl, rfl⟩
  · exact absurd (hstop.symm.trans hmore') (by simp)
  · exact absurd (hstop'.symm.trans hmore) (by simp)
  · exact .inr ⟨_, hruns, hruns'⟩

/-- Which lines are run and what becomes of the session does not depend on the files. -/
theorem same_session (h : standard.Runs s input turns t stopped)
    (h' : standard.Runs s input turns' t' stopped') :
    turns.map Turn.line = turns'.map Turn.line ∧ t = t' ∧ stopped = stopped' := by
  induction input generalizing s turns turns' with
  | nil =>
    cases h
    cases h'
    exact ⟨rfl, rfl, rfl⟩
  | cons line rest ih =>
    obtain ⟨turn, turn', later, later', rfl, rfl, hline, hline', -, -, hend⟩ := h.cons_cases_both h'
    obtain ⟨rfl, rfl, hsession, hstopped⟩ | ⟨s', hruns, hruns'⟩ := hend
    · exact ⟨by simp [hline, hline'], hsession, hstopped⟩
    · obtain ⟨hlines, hsession, hstopped⟩ := ih hruns hruns'
      exact ⟨by simp [hline, hline', hlines], hsession, hstopped⟩

/-- Only lines that are given are run. -/
theorem line_mem {turn : Turn} (h : registry.Runs s input turns t stopped) (hturn : turn ∈ turns) :
    turn.line ∈ input := by
  induction h with
  | ended => simp at hturn
  | stop => simp_all
  | more _ _ _ ih =>
    obtain rfl | hlater := List.mem_cons.mp hturn
    · exact List.mem_cons_self
    · exact List.mem_cons_of_mem _ (ih hlater)

/-- If no line that is run tells the files of one run from those of the other, each line writes the
same in both. -/
theorem same_written (h : standard.Runs s input turns t stopped)
    (h' : standard.Runs s input turns' t' stopped')
    (hsame : ∀ turn ∈ turns, ∀ turn' ∈ turns', ∀ s,
      standard.runLine turn.files s turn.line = standard.runLine turn'.files s turn.line) :
    turns.map Turn.written = turns'.map Turn.written := by
  induction input generalizing s turns turns' with
  | nil =>
    cases h
    cases h'
    rfl
  | cons line rest ih =>
    obtain ⟨turn, turn', later, later', rfl, rfl, rfl, -, hwritten, hwritten', hend⟩ :=
      h.cons_cases_both h'
    have hfirst : turn.written = turn'.written := by
      rw [hwritten, hwritten', hsame turn List.mem_cons_self turn' List.mem_cons_self s]
    have hlater : later.map Turn.written = later'.map Turn.written := by
      obtain ⟨rfl, rfl, -, -⟩ | ⟨s', hruns, hruns'⟩ := hend
      · rfl
      · exact ih hruns hruns' fun u hu u' hu' =>
          hsame u (List.mem_cons_of_mem _ hu) u' (List.mem_cons_of_mem _ hu')
    rw [List.map_cons, List.map_cons, hfirst, hlater]

end Runs

end Registry

/-- What the line reads depends on the file that output goes to. -/
def World.Rereads (w : World) (line : Bytes) : Prop :=
  ∃ (path : Bytes) (files : Files), splitLine line = (ascii "batch", [path]) ∧
    files.SameBut w.outlet.name? w.files ∧ files.read path ≠ w.files.read path

/-- On a console no line reads what is output. -/
theorem World.not_rereads_of_console (h : w.outlet = .console) (line : Bytes) :
    ¬ w.Rereads line := by
  rintro ⟨path, files, -, hfiles, hne⟩
  rw [h] at hfiles
  exact hne (hfiles.read_eq path)

/-- A line that does not read the file that output goes to has the same effect in any turn as at the
start. -/
theorem Turn.Finds.runLine_eq {turn : Turn} (h : turn.Finds w) (hline : ¬ w.Rereads line)
    (s : Session) :
    Registry.standard.runLine turn.files s line = Registry.standard.runLine w.files s line := by
  refine Registry.runLine_congr fun path hpath => congrArg _ ?_
  by_contra hne
  exact hline ⟨path, turn.files, hpath, h, hne⟩

namespace Registry

/-- If two runs of the same lines start with the same files, and no line reads the file that output
goes to, each line writes the same in both. -/
theorem Runs.written_eq {turns turns' : List Turn} (h : standard.Runs s input turns t stopped)
    (h' : standard.Runs s input turns' t' stopped') (hfinds : ∀ turn ∈ turns, turn.Finds w)
    (hfinds' : ∀ turn ∈ turns', turn.Finds w') (hfiles : w.files.SameBut none w'.files)
    (hreads : ∀ turn ∈ turns, ¬ w.Rereads turn.line ∧ ¬ w'.Rereads turn.line) :
    turns.map Turn.written = turns'.map Turn.written := by
  refine h.same_written h' fun turn hturn turn' hturn' s => ?_
  obtain ⟨hline, hline'⟩ := hreads turn hturn
  calc standard.runLine turn.files s turn.line
      = standard.runLine w.files s turn.line := (hfinds turn hturn).runLine_eq hline s
    _ = standard.runLine w'.files s turn.line :=
      runLine_congr fun path _ => congrArg _ (hfiles.read_eq path)
    _ = standard.runLine turn'.files s turn.line :=
      ((hfinds' turn' hturn').runLine_eq hline' s).symm

/-- With a prompt and without one the same lines are run and the session is the same in the end. The
prompt is output before each line, and once more if the lines end before the session. -/
theorem exists_runs_prompt_and_none (input prompt : Bytes) (s : Session) (w w' : World) :
    ∃ turns turns' t stopped typed replayed,
      standard.runLines { source := { rest := input }, prompt := some prompt } s w = (t, typed) ∧
      standard.runLines { source := { rest := input }, prompt := none } s w' = (t, replayed) ∧
      standard.Runs s (input.segments.map Bytes.stripReturn) turns t stopped ∧
      standard.Runs s (input.segments.map Bytes.stripReturn) turns' t stopped ∧
      turns.map Turn.line = turns'.map Turn.line ∧
      typed.output = w.output ++ ((turns.flatMap fun turn => prompt ++ turn.written.output) ++
        if stopped then [] else prompt) ∧
      replayed.output = w'.output ++ turns'.flatMap (fun turn => turn.written.output) ∧
      (∀ turn ∈ turns, turn.Finds w) ∧ (∀ turn ∈ turns', turn.Finds w') := by
  let c : Console := { source := { rest := input }, prompt := some prompt }
  obtain ⟨turns, stopped, hruns, hadds, hfinds⟩ := standard.runs_runLines c s w
  obtain ⟨turns', stopped', hruns', hadds', hfinds'⟩ :=
    standard.runs_runLines { c with prompt := none } s w'
  obtain ⟨hlines, hsession, rfl⟩ := hruns.same_session hruns'
  have hprompt : c.greeting.output = prompt := by
    simp [c, Console.greeting, Transcript.output, Event.output]
  rw [← hsession] at hruns'
  refine ⟨turns, turns', _, stopped, _, (standard.runLines { c with prompt := none } s w').2, rfl,
    Prod.ext hsession.symm rfl, hruns, hruns', hlines, ?_, ?_, hfinds, hfinds'⟩
  · simpa only [hprompt] using hadds.output
  · simpa [Console.greeting, Transcript.output] using hadds'.output

/-- Running an input with a prompt and without one runs the same lines: the segments of the input,
each without a carriage return at its end, up to and including the first one after which the session
is over. Both runs leave the same session. The output without a prompt is what the lines write, and
with one there is the prompt before each of these, and once more if the input has ended before the
session. Where both runs start with the same files, and none of the lines reads the file that output
goes to, each line writes the same in both. -/
theorem runLines_prompt_or_none (input prompt : Bytes) (s : Session) (w w' : World) :
    ∃ turns turns' t stopped typed replayed,
      standard.runLines { source := { rest := input }, prompt := some prompt } s w = (t, typed) ∧
      standard.runLines { source := { rest := input }, prompt := none } s w' = (t, replayed) ∧
      standard.Runs s (input.segments.map Bytes.stripReturn) turns t stopped ∧
      standard.Runs s (input.segments.map Bytes.stripReturn) turns' t stopped ∧
      turns.map Turn.line = turns'.map Turn.line ∧
      typed.output = w.output ++ ((turns.flatMap fun turn => prompt ++ turn.written.output) ++
        if stopped then [] else prompt) ∧
      replayed.output = w'.output ++ turns'.flatMap (fun turn => turn.written.output) ∧
      (∀ turn ∈ turns, turn.Finds w) ∧ (∀ turn ∈ turns', turn.Finds w') ∧
      (w.files.SameBut none w'.files →
        (∀ turn ∈ turns, ¬ w.Rereads turn.line ∧ ¬ w'.Rereads turn.line) →
        turns.map Turn.written = turns'.map Turn.written) := by
  obtain ⟨turns, turns', t, stopped, typed, replayed, htyped, hreplayed, hruns, hruns', hlines,
    houtput, houtput', hfinds, hfinds'⟩ := exists_runs_prompt_and_none input prompt s w w'
  exact ⟨turns, turns', t, stopped, typed, replayed, htyped, hreplayed, hruns, hruns', hlines,
    houtput, houtput', hfinds, hfinds', hruns.written_eq hruns' hfinds hfinds'⟩

/-- On two consoles each line writes the same with a prompt and without one, whatever it reads. -/
theorem runLines_on_consoles (input prompt : Bytes) (s : Session) (hw : w.outlet = .console)
    (hw' : w'.outlet = .console) (hfiles : w.files.SameBut none w'.files) :
    ∃ turns t stopped typed replayed,
      standard.runLines { source := { rest := input }, prompt := some prompt } s w = (t, typed) ∧
      standard.runLines { source := { rest := input }, prompt := none } s w' = (t, replayed) ∧
      standard.Runs s (input.segments.map Bytes.stripReturn) turns t stopped ∧
      typed.output = w.output ++ ((turns.flatMap fun turn => prompt ++ turn.written.output) ++
        if stopped then [] else prompt) ∧
      replayed.output = w'.output ++ turns.flatMap (fun turn => turn.written.output) := by
  obtain ⟨turns, turns', t, stopped, typed, replayed, htyped, hreplayed, hruns, hruns', -,
    houtput, houtput', hfinds, hfinds'⟩ := exists_runs_prompt_and_none input prompt s w w'
  have hwritten := hruns.written_eq hruns' hfinds hfinds' hfiles fun turn _ =>
    ⟨World.not_rereads_of_console hw turn.line, World.not_rereads_of_console hw' turn.line⟩
  refine ⟨turns, t, stopped, typed, replayed, htyped, hreplayed, hruns, houtput, ?_⟩
  have hsame := congrArg (List.flatMap Transcript.output) hwritten
  rw [List.flatMap_map, List.flatMap_map] at hsame
  rw [houtput', hsame]

def exitInside : Bytes :=
  ascii "compile a\r\nexit\nshow"

theorem runLines_prompt_or_none_exitInside :
    ∃ (turns turns' : List Turn) (t : Session) (typed replayed : World),
      standard.runLines { source := { rest := exitInside } } {} {} = (t, typed) ∧
      standard.runLines { source := { rest := exitInside }, prompt := none } {}
        { outlet := .file (ascii "out") .empty } = (t, replayed) ∧
      t.stopped = true ∧ turns.map Turn.line = turns'.map Turn.line ∧
      turns.map Turn.written = turns'.map Turn.written ∧
      typed.output = ascii "> compiled `a`: 2 states\n> " ∧
      replayed.output = turns'.flatMap fun turn => turn.written.output := by
  obtain ⟨turns, turns', t, stopped, typed, replayed, htyped, hreplayed, hruns, -, hlines, -,
    houtput, -, -, hwritten⟩ := runLines_prompt_or_none exitInside (ascii "> ") {} {}
      { outlet := .file (ascii "out") .empty }
  have hrun : (standard.runLines { source := { rest := exitInside } } {} {}).1.stopped = true ∧
      (standard.runLines { source := { rest := exitInside } } {} {}).2.output =
        ascii "> compiled `a`: 2 states\n> " := by decide +kernel
  have hnames : ∀ line ∈ exitInside.segments.map Bytes.stripReturn,
      (splitLine line).1 ≠ ascii "batch" := by decide +kernel
  have hreads : ∀ turn ∈ turns, ∀ w : World, ¬ w.Rereads turn.line := by
    rintro turn hturn w ⟨path, files, hline, -⟩
    exact hnames _ (hruns.line_mem hturn) (congrArg Prod.fst hline)
  have hdefault : standard.runLines { source := { rest := exitInside } } {} {} = (t, typed) := htyped
  rw [hdefault] at hrun
  exact ⟨turns, turns', t, typed, replayed, htyped, hreplayed, hrun.1, hlines,
    hwritten (.refl none {}) fun turn hturn => ⟨hreads turn hturn _, hreads turn hturn _⟩, hrun.2,
    by simpa [World.output, Files.find?, Files.pieces?, Backlog.content, Backlog.empty]
      using houtput⟩

end Registry

end RegexLab
