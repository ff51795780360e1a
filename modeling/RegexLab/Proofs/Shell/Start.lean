import RegexLab.Proofs.Shell.Console
import RegexLab.Proofs.Shell.Settings
import RegexLab.Shell.Directory
import RegexLab.Shell.Program

/-!
# Starting up

The program looks at its arguments, opens the files they name, loads the settings and compiles the
first pattern, and any of these can fail. If one does, the program only reports that: no line is
run, no prompt is shown, and the file for the output is left empty. If none does, the program
succeeds, whatever becomes of the lines.

## Main definitions

* `Arguments.settings?`, `Arguments.others` — the settings file that is named, and the other
  arguments.
* `Program.Opens` — the files after those for input and output have been opened.
* `Program.prepare` — starting up once they have been.
* `Program.Fails` — what can go wrong, and the files that are left then.
-/

namespace RegexLab

variable {w : World} {name path source content program : Bytes} {arguments rest : List Bytes}
  {named out : Option Bytes} {files opened left : Files} {cause : OpenError} {settings : Settings}
  {e : RegexError} {notes t : Transcript}

/-! ## Arguments -/

namespace Arguments

/-- The settings file that the arguments of the program name: the first, if it ends in `.conf`. -/
def settings? (arguments : List Bytes) : Option Bytes :=
  arguments.head?.filter fun first => ascii ".conf" <:+ first

def others (arguments : List Bytes) : List Bytes :=
  arguments.drop (settings? arguments).toList.length

theorem ofList_eq (arguments : List Bytes) :
    ofList arguments = withFiles (settings? arguments) (others arguments) := by
  cases arguments with
  | nil => rfl
  | cons first rest =>
    by_cases h : ascii ".conf" <:+ first
    · have hsettings : settings? (first :: rest) = some first := by
        simp [settings?, Option.filter, h]
      rw [others, hsettings, ofList, if_pos (List.isSuffixOf_iff_suffix.mpr h)]
      rfl
    · have hsettings : settings? (first :: rest) = none := by
        simp [settings?, Option.filter, h]
      rw [others, hsettings, ofList, if_neg (mt List.isSuffixOf_iff_suffix.mp h)]
      rfl

/-- Arguments that are understood are none or two, beside the settings file. -/
theorem withFiles_eq_none (h : rest.length ≠ 0) (h' : rest.length ≠ 2) :
    withFiles named rest = none := by
  match rest, h, h' with
  | [_], _, _ => rfl
  | _ :: _ :: _ :: _, _, _ => rfl

end Arguments

/-! ## Files -/

/-- The file to write to is empty, and all others are as they were. -/
theorem Files.create_spec (h : files.create path = some (name, opened)) :
    opened = files.put name [] := by
  unfold create at h
  split_ifs at h
  obtain ⟨_, -, hpair⟩ := Option.map_eq_some_iff.mp h
  obtain ⟨rfl, rfl⟩ := Prod.mk.inj hpair
  rfl

def Outlet.fresh : Option Bytes → Outlet
  | none => .console
  | some name => .file name .empty

@[simp] theorem Outlet.name?_fresh (out : Option Bytes) : (Outlet.fresh out).name? = out := by
  cases out <;> rfl

namespace World

/-- If every event is shown, nothing else changes. -/
theorem writeAll_shown (h : ∀ event ∈ t, ∀ shown,
      World.write { w with shown } event = { w with shown := event :: shown }) :
    w.writeAll t = { w with shown := t.reverse ++ w.shown } := by
  induction t generalizing w with
  | nil => rfl
  | cons event t ih =>
    obtain ⟨hevent, ht⟩ := List.forall_mem_cons.mp h
    have hrest := ih (w := { w with shown := event :: w.shown }) ht
    rw [writeAll, List.foldl_cons, ← writeAll, hevent w.shown, hrest, List.reverse_cons,
      List.append_assoc, List.singleton_append]

/-- Notes are shown, wherever output goes. -/
theorem writeAll_logs (w : World) (entries : List LogEntry) :
    w.writeAll (entries.map .log) =
      { w with shown := (entries.map Event.log).reverse ++ w.shown } := by
  refine writeAll_shown fun event hevent shown => ?_
  obtain ⟨entry, -, rfl⟩ := List.mem_map.mp hevent
  exact write_log _ entry

/-- On a console everything is shown. -/
theorem writeAll_console (h : w.outlet = .console) (t : Transcript) :
    w.writeAll t = { w with shown := t.reverse ++ w.shown } :=
  writeAll_shown fun event _ shown => write_console (w := { w with shown }) h event

end World

namespace Program

/-- The other arguments are none, or they name a file that can be read and one that can be written
to, which is empty now. The files are `opened` then. -/
inductive Opens (files : Files) : List Bytes → Option Bytes → Files → Prop
  | console : Opens files [] none files
  | replay {input output name : Bytes} {place : Place} {opened : Files} :
      files.locate input = .ok place → files.create output = some (name, opened) →
      Opens files [input, output] (some name) opened

def prepare (w : World) (named : Option Bytes) (input : Bytes) (prompted : Bool) :
    Settings × World × Except StartError (Session × Console) :=
  match loadSettings w.files named with
  | (settings, .error e) => (settings, w, .error (.settings e))
  | (settings, .ok notes) =>
    match firstSession settings with
    | .error e => (settings, w.writeAll notes, .error (.pattern e))
    | .ok (session, more) =>
      let prompt := if prompted then some settings.prompt else none
      (settings, (w.writeAll notes).writeAll more,
        .ok (session, { source := { rest := input }, prompt }))

/-- First the arguments are looked at, then the files are opened, and the rest is up to those. -/
theorem start_eq (arguments : List Bytes) (stdin : Bytes) (files : Files) :
    start arguments stdin files =
      match Arguments.withFiles (Arguments.settings? arguments) (Arguments.others arguments) with
      | none => ({}, { files }, .error .arguments)
      | some asked =>
        match openFiles files stdin asked.replay with
        | .error e => ({}, { files }, .error e)
        | .ok (input, outlet, opened) =>
          prepare { files := opened, outlet } asked.settingsPath input asked.replay.isNone := by
  rw [← Arguments.ofList_eq]
  rfl

namespace Opens

/-- Only the file to write to has changed, and it is empty. -/
theorem find?_eq (h : Opens files rest out opened) (name : Bytes) :
    opened.find? name = if out = some name then some [] else files.find? name := by
  cases h with
  | console => rfl
  | @replay _ _ created _ _ _ hcreate =>
    rw [Files.create_spec hcreate]
    split_ifs with hname
    · obtain rfl := Option.some.inj hname
      exact Files.find?_put_self files created []
    · exact Files.find?_put_of_ne files (fun heq => hname (congrArg some heq.symm)) []

/-- The files are as they were, or one of them is the empty one to write to. -/
theorem opened_eq (h : Opens files rest out opened) :
    opened = files ∨ ∃ input output name, rest = [input, output] ∧
      files.create output = some (name, opened) ∧ opened.find? name = some [] ∧
      ∀ other, other ≠ name → opened.find? other = files.find? other := by
  have hfind := h.find?_eq
  cases h with
  | console => exact .inl rfl
  | replay _ hcreate =>
    refine .inr ⟨_, _, _, rfl, hcreate, by rw [hfind, if_pos rfl], fun other hother => ?_⟩
    rw [hfind, if_neg fun heq => hother (Option.some.inj heq).symm]

/-- Once the files have been opened, the program goes on with the settings. -/
theorem start_eq_prepare (h : Opens files (Arguments.others arguments) out opened) (stdin : Bytes) :
    ∃ input, start arguments stdin files =
      prepare { files := opened, outlet := .fresh out }
        (Arguments.settings? arguments) input out.isNone := by
  generalize hothers : Arguments.others arguments = rest at h
  cases h with
  | console =>
    refine ⟨stdin, ?_⟩
    rw [start_eq, hothers]
    rfl
  | @replay _ _ _ place _ hlocate hcreate =>
    refine ⟨opened.textAt place, ?_⟩
    rw [start_eq, hothers]
    simp only [Arguments.withFiles, openFiles, hlocate, hcreate]
    rfl

end Opens

/-- What goes wrong when the program starts with some arguments, and the files that it leaves: the
other arguments are neither none nor two, a file cannot be opened, the settings that are named are
missing, those that are there have a bad line, or the last pattern in them is not empty and has no
tree, or one whose automaton has too many states. -/
inductive Fails (arguments : List Bytes) (files : Files) : StartError → Files → Prop
  | arguments : (Arguments.others arguments).length ≠ 0 → (Arguments.others arguments).length ≠ 2 →
      Fails arguments files .arguments files
  | input {input output : Bytes} {cause : OpenError} :
      Arguments.others arguments = [input, output] → files.locate input = .error cause →
      Fails arguments files .input files
  | output {input output : Bytes} {place : Place} :
      Arguments.others arguments = [input, output] → files.locate input = .ok place →
      files.create output = none → Fails arguments files .output files
  -- From here on the files have been opened, and the one to write to is empty already.
  | missing {out : Option Bytes} {opened : Files} {path : Bytes} {cause : OpenError} :
      Opens files (Arguments.others arguments) out opened →
      Arguments.settings? arguments = some path → opened.read path = .error cause →
      Fails arguments files (.settings (.notFound path)) opened
  | badLine {out : Option Bytes} {opened : Files} {path content line : Bytes}
      {good after : List Bytes} {problem : LineProblem} :
      Opens files (Arguments.others arguments) out opened →
      (Arguments.settings? arguments).getD defaultSettingsPath = path →
      opened.read path = .ok content → content.segments = good ++ line :: after →
      (∀ line ∈ good, ∀ problem, ¬ BadLine line problem) → BadLine line problem →
      Fails arguments files (.settings (.badLine path (.ofNat (good.length + 1)) problem)) opened
  | pattern {out : Option Bytes} {opened : Files} {content source : Bytes} {e : RegexError} :
      Opens files (Arguments.others arguments) out opened →
      opened.read ((Arguments.settings? arguments).getD defaultSettingsPath) = .ok content →
      (∀ line ∈ content.segments, ∀ problem, ¬ BadLine line problem) →
      Latest content.segments (ascii "pattern") (fun value source => source = some value) none
        (some source) →
      source ≠ [] → (parse source = .error e ∨
        e = .tooManyStates ∧ ∃ t, parse source = .ok t ∧ Arena.limit < t.stateCount) →
      Fails arguments files (.pattern e) opened

/-! ## Settings and the first pattern -/

/-- A settings file that was named has to be there. -/
theorem loadSettings_of_missing (h : files.read path = .error cause) :
    loadSettings files (some path) = ({}, .error (.notFound path)) := by
  simp [loadSettings, Settings.load, h, Except.map]

/-- No settings file has to be there if none was named. -/
theorem loadSettings_of_none (h : files.read defaultSettingsPath = .error cause) :
    ∃ entries : List LogEntry, loadSettings files none = ({}, .ok (entries.map .log)) := by
  simp only [loadSettings, h]
  exact ⟨[⟨_, _⟩], rfl⟩

/-- A settings file that is there is loaded. -/
theorem loadSettings_of_read (h : files.read (named.getD defaultSettingsPath) = .ok content) :
    ∃ entries : List LogEntry, loadSettings files named =
      ((Settings.applyLines (named.getD defaultSettingsPath) {} content.segments 1).1,
        (Settings.applyLines (named.getD defaultSettingsPath) {} content.segments 1).2.map
          fun _ => entries.map .log) := by
  have hload : loadSettings files named =
      ((Settings.load {} files (named.getD defaultSettingsPath)).1,
        (Settings.load {} files (named.getD defaultSettingsPath)).2.map fun notes =>
          notes.map .log ++ [Event.note .info (ascii "Loaded configuration " ++
            named.getD defaultSettingsPath ++ ascii ".")]) := by
    unfold loadSettings
    split
    · simp_all
    · rfl
  simp only [hload, Settings.load, h, Bytes.lines_eq_segments]
  cases (Settings.applyLines (named.getD defaultSettingsPath) {} content.segments 1).2 with
  | error e => exact ⟨[], rfl⟩
  | ok => exact ⟨[Settings.loadedNote _, ⟨_, _⟩], rfl⟩

/-- The session can start without a pattern, with the empty one, and with one that has a tree and not
too many states. -/
theorem firstSession_ok (h : ∀ source, settings.pattern = some source → source ≠ [] →
    ∃ t, parse source = .ok t ∧ t.stateCount ≤ Arena.limit) :
    ∃ (session : Session) (entries : List LogEntry),
      firstSession settings = .ok (session, entries.map .log) := by
  cases hsource : settings.pattern with
  | none =>
    simp only [firstSession, hsource]
    exact ⟨{}, [], rfl⟩
  | some source =>
    obtain ⟨build, hbuild⟩ : ∃ build, buildInfix source = .ok build :=
      exists_buildInfix_iff.mpr (or_iff_not_imp_left.mpr (h source hsource))
    simp only [firstSession, hsource, Pattern.compile, hbuild]
    exact ⟨_, build.notes ++ [⟨_, _⟩], by rw [List.map_append]; rfl⟩

/-- The session cannot start with any other pattern. -/
theorem firstSession_error (hsource : settings.pattern = some source) (hne : source ≠ [])
    (h : parse source = .error e ∨
      e = .tooManyStates ∧ ∃ t, parse source = .ok t ∧ Arena.limit < t.stateCount) :
    firstSession settings = .error e := by
  have hbuild : buildInfix source = .error e := by
    obtain hparse | ⟨rfl, t, hparse, hlimit⟩ := h
    · simp [buildInfix, hne, hparse, bind, Except.bind]
    · exact buildInfix_of_lt hparse hlimit
  simp [firstSession, hsource, Pattern.compile, hbuild, bind, Except.bind]

/-! ## Starting -/

/-- What goes wrong once the files have been opened is told. -/
theorem Opens.start_error {e : StartError}
    (h : Opens files (Arguments.others arguments) out opened) (settings : Settings)
    (entries : List LogEntry)
    (hprepare : ∀ (w : World) (input : Bytes) (prompted : Bool), w.files = opened →
      prepare w (Arguments.settings? arguments) input prompted =
        (settings, w.writeAll (entries.map .log), .error e)) :
    ∃ (settings : Settings) (outlet : Outlet) (entries : List LogEntry), ∀ stdin,
      start arguments stdin files =
        (settings, { files := opened, outlet, shown := (entries.map .log).reverse }, .error e) := by
  refine ⟨settings, .fresh out, entries, fun stdin => ?_⟩
  obtain ⟨input, hstart⟩ := h.start_eq_prepare stdin
  rw [hstart, hprepare _ input _ rfl, World.writeAll_logs, List.append_nil]

/-- What goes wrong is told, and what is noted before that is in the log only. -/
theorem Fails.start_eq {e : StartError} (h : Fails arguments files e left) :
    ∃ (settings : Settings) (outlet : Outlet) (entries : List LogEntry), ∀ stdin,
      start arguments stdin files =
        (settings, { files := left, outlet, shown := (entries.map .log).reverse }, .error e) := by
  cases h with
  | arguments h h' =>
    refine ⟨{}, .console, [], fun stdin => ?_⟩
    rw [start_eq, Arguments.withFiles_eq_none h h']
    rfl
  | input hothers hlocate =>
    refine ⟨{}, .console, [], fun stdin => ?_⟩
    simp [start_eq, hothers, Arguments.withFiles, openFiles, hlocate]
  | output hothers hlocate hcreate =>
    refine ⟨{}, .console, [], fun stdin => ?_⟩
    simp [start_eq, hothers, Arguments.withFiles, openFiles, hlocate, hcreate]
  | missing hopens hnamed hread =>
    refine hopens.start_error {} [] fun w input prompted hfiles => ?_
    subst hfiles
    rw [prepare, hnamed, loadSettings_of_missing hread]
    rfl
  | badLine hopens hpath hread hlines hgood hbad =>
    subst hpath
    obtain ⟨entries, hload⟩ := loadSettings_of_read hread
    obtain ⟨settings, hsettings⟩ := Settings.applyLines_of_bad hgood hbad _ {} _ 1
    rw [hlines, hsettings, Settings.one_add_ofNat] at hload
    refine hopens.start_error settings [] fun w input prompted hfiles => ?_
    subst hfiles
    rw [prepare, hload]
    rfl
  | pattern hopens hread hgood hlatest hne hrefused =>
    obtain ⟨entries, hload⟩ := loadSettings_of_read hread
    obtain ⟨settings, hsettings, hfollows⟩ := Settings.applyLines_of_good hgood _ {} 1
    have hpattern : settings.pattern = some _ :=
      hfollows.pattern.unique (by grind) hlatest
    rw [hsettings] at hload
    refine hopens.start_error settings entries fun w input prompted hfiles => ?_
    subst hfiles
    rw [prepare, hload]
    simp only [Except.map, firstSession_error hpattern hne hrefused]

/-- The files that the arguments name can be opened, or that is what goes wrong. -/
theorem opens_or_fails (arguments : List Bytes) (files : Files) :
    (∃ out opened, Opens files (Arguments.others arguments) out opened) ∨
      ∃ e, Fails arguments files e files := by
  match hothers : Arguments.others arguments with
  | [] => exact .inl ⟨none, files, .console⟩
  | [input, output] =>
    cases hlocate : files.locate input with
    | error cause => exact .inr ⟨_, .input hothers hlocate⟩
    | ok place =>
      cases hcreate : files.create output with
      | none => exact .inr ⟨_, .output hothers hlocate hcreate⟩
      | some created => exact .inl ⟨some created.1, created.2, .replay hlocate hcreate⟩
  | [_] | _ :: _ :: _ :: _ => exact .inr ⟨_, .arguments (by simp [hothers]) (by simp [hothers])⟩

/-- With settings and a first pattern that are good the program is ready to run lines. -/
theorem prepare_ok (hload : loadSettings w.files named = (settings, .ok notes))
    (hpattern : ∀ source, settings.pattern = some source → source ≠ [] →
      ∃ t, parse source = .ok t ∧ t.stateCount ≤ Arena.limit)
    (input : Bytes) (prompted : Bool) :
    ∃ w' ready, prepare w named input prompted = (settings, w', .ok ready) := by
  obtain ⟨session, more, hsession⟩ := firstSession_ok hpattern
  simp only [prepare, hload, hsession]
  exact ⟨_, _, rfl⟩

/-- Once the files have been opened, the program is ready to run lines, or the settings or the first
pattern are wrong. -/
theorem Opens.prepare_or_fails (h : Opens files (Arguments.others arguments) out opened) :
    (∃ e, Fails arguments files e opened) ∨
      ∃ settings, ∀ (outlet : Outlet) (input : Bytes) (prompted : Bool), ∃ w ready,
        prepare { files := opened, outlet } (Arguments.settings? arguments) input prompted =
          (settings, w, .ok ready) := by
  cases hread : opened.read ((Arguments.settings? arguments).getD defaultSettingsPath) with
  | error cause =>
    cases hnamed : Arguments.settings? arguments with
    | some path => exact .inl ⟨_, .missing h hnamed (by rwa [hnamed] at hread)⟩
    | none =>
      rw [hnamed] at hread
      obtain ⟨entries, hload⟩ := loadSettings_of_none hread
      exact .inr ⟨_, fun _ => prepare_ok hload (by simp)⟩
  | ok content =>
    obtain ⟨entries, hload⟩ := loadSettings_of_read hread
    obtain ⟨good, hgood, hfollows, ⟨hlines, hok⟩ | ⟨line, after, problem, hlines, hbad, -⟩⟩ :=
      Settings.applyLines_spec ((Arguments.settings? arguments).getD defaultSettingsPath) {}
        content.segments 1
    · rw [hok] at hload
      by_cases hpattern : ∀ source,
        (Settings.applyLines ((Arguments.settings? arguments).getD defaultSettingsPath) {}
          content.segments 1).1.pattern = some source → source ≠ [] →
            ∃ t, parse source = .ok t ∧ t.stateCount ≤ Arena.limit
      · exact .inr ⟨_, fun _ => prepare_ok hload hpattern⟩
      · simp only [not_forall] at hpattern
        obtain ⟨source, hsource, hne, hnone⟩ := hpattern
        have hlatest := hfollows.pattern
        rw [hsource, ← hlines] at hlatest
        have hfails := fun e => @Fails.pattern arguments files out opened content source e h hread
          (hlines ▸ hgood) hlatest hne
        cases hparse : parse source with
        | error e => exact .inl ⟨_, hfails e (.inl hparse)⟩
        | ok t =>
          have hlimit : Arena.limit < t.stateCount :=
            Nat.lt_of_not_le fun hle => hnone ⟨t, hparse, hle⟩
          exact .inl ⟨_, hfails _ (.inr ⟨rfl, t, hparse, hlimit⟩)⟩
    · exact .inl ⟨_, .badLine h rfl hread hlines hgood hbad⟩

/-- Either something goes wrong at the start, or there are lines to run. -/
theorem fails_or_starts (arguments : List Bytes) (stdin : Bytes) (files : Files) :
    (∃ e left, Fails arguments files e left) ∨
      ∃ settings w ready, start arguments stdin files = (settings, w, .ok ready) := by
  obtain ⟨out, opened, hopens⟩ | ⟨e, hfails⟩ := opens_or_fails arguments files
  · obtain ⟨e, hfails⟩ | ⟨settings, hready⟩ := hopens.prepare_or_fails
    · exact .inl ⟨e, opened, hfails⟩
    · obtain ⟨input, hstart⟩ := hopens.start_eq_prepare stdin
      rw [hstart]
      exact .inr ⟨settings, hready _ input out.isNone⟩
  · exact .inl ⟨e, files, hfails⟩

/-! ## The whole run -/

/-- A start that goes wrong leaves the files as they were, but for the file to write to, which is
empty if it got that far. -/
theorem Fails.left_eq {e : StartError} (h : Fails arguments files e left) :
    left = files ∨ ∃ input output name, Arguments.others arguments = [input, output] ∧
      files.create output = some (name, left) ∧ left.find? name = some [] ∧
      ∀ other, other ≠ name → left.find? other = files.find? other := by
  cases h with
  | arguments | input | output => exact .inl rfl
  | missing hopens => exact hopens.opened_eq
  | badLine hopens => exact hopens.opened_eq
  | pattern hopens => exact hopens.opened_eq

/-- The report shows how to use the program if that is what is wrong, and a line of the log. -/
theorem StartError.console_report (e : StartError) (program : Bytes) (level : LogLevel) :
    Transcript.console level (e.report program) =
      (if e = .arguments then usage program else []) ++
        LogEntry.written level ⟨.error, e.message⟩ := by
  cases e <;> simp [report, Transcript.console, Event.shown, Event.output, Event.logged, Event.note]

/-- A run that goes wrong at the start shows what the log has to say and ends, whatever commands
there are and whatever there is to run. -/
theorem Fails.run_eq {e : StartError} (h : Fails (arguments.map Bytes.untilNul) files e left) :
    ∃ (level : LogLevel) (entries : List LogEntry), ∀ registry program stdin,
      run registry program arguments stdin files =
        { status := 1
          stdout := entries.flatMap (·.written level) ++
            (if e = .arguments then usage program.untilNul else []) ++
            LogEntry.written level ⟨.error, e.message⟩
          files := left } := by
  obtain ⟨settings, outlet, entries, hstart⟩ := h.start_eq
  have hlog : Transcript.console settings.level (entries.map Event.log) =
      entries.flatMap (·.written settings.level) := by
    simp [Transcript.console, Event.shown, Event.output, Event.logged, List.flatMap_def,
      Function.comp_def]
  refine ⟨settings.level, entries, fun registry program stdin => ?_⟩
  simp only [run, hstart stdin]
  rw [World.writeAll_console rfl, World.console, List.reverse_append, List.reverse_reverse,
    List.reverse_reverse, Transcript.console_append, hlog, StartError.console_report,
    List.append_assoc]

/-- Starting is all or nothing. The program fails if and only if something goes wrong at the start,
and succeeds otherwise, whatever commands there are and whatever the lines do. If something goes
wrong, the log and perhaps the line about the arguments are all that is shown, whatever there is to
run; the file for the output is empty if it was opened, and no other file has changed. -/
theorem run_all_or_nothing (arguments : List Bytes) (files : Files) :
    (∀ registry program stdin,
      ((run registry program arguments stdin files).status = 1 ↔
        ∃ e left, Fails (arguments.map Bytes.untilNul) files e left) ∧
      ((run registry program arguments stdin files).status = 0 ↔
        ¬ ∃ e left, Fails (arguments.map Bytes.untilNul) files e left)) ∧
    ∀ e left, Fails (arguments.map Bytes.untilNul) files e left →
      (∃ (level : LogLevel) (entries : List LogEntry), ∀ registry program stdin,
        run registry program arguments stdin files =
          { status := 1
            stdout := entries.flatMap (·.written level) ++
              (if e = .arguments then usage program.untilNul else []) ++
              LogEntry.written level ⟨.error, e.message⟩
            files := left }) ∧
      (left = files ∨ ∃ input output name,
        Arguments.others (arguments.map Bytes.untilNul) = [input, output] ∧
        files.create output = some (name, left) ∧ left.find? name = some [] ∧
        ∀ other, other ≠ name → left.find? other = files.find? other) := by
  refine ⟨fun registry program stdin => ?_, fun e left h => ⟨h.run_eq, h.left_eq⟩⟩
  obtain ⟨e, left, h⟩ | ⟨settings, w, ready, hstart⟩ :=
    fails_or_starts (arguments.map Bytes.untilNul) stdin files
  · obtain ⟨level, entries, hrun⟩ := h.run_eq
    rw [hrun registry program stdin]
    exact ⟨iff_of_true rfl ⟨e, left, h⟩, iff_of_false (by simp) (not_not.mpr ⟨e, left, h⟩)⟩
  · have hnone : ¬ ∃ e left, Fails (arguments.map Bytes.untilNul) files e left := by
      rintro ⟨e, left, h⟩
      obtain ⟨_, _, _, herror⟩ := h.start_eq
      cases hstart.symm.trans (herror stdin)
    have hstatus : (run registry program arguments stdin files).status = 0 := by
      simp only [run, hstart]
    rw [hstatus]
    exact ⟨iff_of_false (by simp) hnone, iff_of_true rfl hnone⟩

def withSettings : List Bytes :=
  [ascii "a.conf", ascii "in", ascii "out"]

def badPattern : Files :=
  .ofList .directory [(ascii "a.conf", ascii "log error\npattern b\npattern a(\n"),
    (ascii "in", ascii "show\n"), (ascii "out", ascii "old")]

theorem run_all_or_nothing_badPattern :
    ∃ e left, Fails withSettings badPattern e left ∧ left.find? (ascii "out") = some [] ∧
      ∀ registry program stdin,
        (run registry program withSettings stdin badPattern).files = left := by
  have hrun : (run .standard (ascii "shell") withSettings [] badPattern).status = 1 ∧
      (run .standard (ascii "shell") withSettings [] badPattern).files.find? (ascii "out") =
        some [] := by
    decide +kernel
  have harguments : withSettings.map Bytes.untilNul = withSettings := by decide +kernel
  obtain ⟨hstatus, hleft⟩ := run_all_or_nothing withSettings badPattern
  rw [harguments] at hstatus hleft
  obtain ⟨e, left, h⟩ := (hstatus .standard (ascii "shell") []).1.mp hrun.1
  obtain ⟨⟨level, entries, houtcome⟩, -⟩ := hleft e left h
  refine ⟨e, left, h, ?_, fun registry program stdin => by rw [houtcome registry program stdin]⟩
  rw [← hrun.2, houtcome]

def patternLine (n : Nat) : Bytes :=
  ascii "pattern" ++ 0x20 :: List.replicate n 0x61

theorem notMem_patternLine {c : UInt8} (hc : c ∉ ascii "pattern a") (n : Nat) :
    c ∉ patternLine n := by
  intro hmem
  obtain hword | hrest := List.mem_append.mp hmem
  · exact hc (List.mem_append_left (ascii " a") hword)
  · obtain rfl | hbyte := List.mem_cons.mp hrest
    · exact hc (by decide +kernel)
    · rw [List.eq_of_mem_replicate hbyte] at hc
      exact hc (by decide +kernel)

theorem segments_patternLine (n : Nat) : (patternLine n).segments = [patternLine n] :=
  Bytes.segments_of_notMem (by simp [patternLine]) (notMem_patternLine (by decide +kernel) n)

theorem assigns_patternLine {n : Nat} (hn : 0 < n) :
    Assigns (patternLine n) (ascii "pattern") (List.replicate n 0x61) := by
  have hstrip : (patternLine n).stripReturn = patternLine n :=
    if_neg fun hlast => notMem_patternLine (by decide +kernel) n (List.mem_of_getLast? hlast)
  rw [Assigns, hstrip]
  refine ⟨0x20 :: List.replicate n 0x61, ⟨[], by simp, rfl, ?_⟩, [0x20], [], ?_⟩
  · exact ⟨by decide, by decide +kernel, by simp [isWhite]⟩
  · simp [isWhite, hn.ne', List.getLast?_replicate, List.head?_replicate]

/-- No line is bad, and the pattern is the repeated byte. -/
theorem latest_patternLine {n : Nat} (hn : 0 < n) :
    (∀ line ∈ (patternLine n).segments, ∀ problem, ¬ BadLine line problem) ∧
      Latest (patternLine n).segments (ascii "pattern") (fun value source => source = some value)
        none (some (List.replicate n 0x61)) := by
  have hline := assigns_patternLine hn
  rw [segments_patternLine]
  exact ⟨fun line hmem problem => List.mem_singleton.mp hmem ▸ hline.not_badLine,
    .single hline rfl⟩

def patternFile (n : Nat) : Files :=
  .ofList .byName [(ascii "a.conf", patternLine n)]

theorem read_patternFile (n : Nat) :
    (patternFile n).read (ascii "a.conf") = .ok (patternLine n) :=
  Files.read_byName (by decide +kernel) (by decide) (patternLine n)

theorem fails_patternFile {n : Nat} {t : Tree} (hn : 0 < n)
    (hparse : parse (List.replicate n 0x61) = .ok t) (hlimit : Arena.limit < t.stateCount) :
    Fails [ascii "a.conf"] (patternFile n) (.pattern .tooManyStates) (patternFile n) := by
  have hopens : Opens (patternFile n) (Arguments.others [ascii "a.conf"]) none (patternFile n) :=
    .console
  obtain ⟨hgood, hlatest⟩ := latest_patternLine hn
  exact .pattern hopens (read_patternFile n) hgood hlatest (by simp [hn.ne'])
    (.inr ⟨rfl, t, hparse, hlimit⟩)

/-- A first pattern with a tree, but so many states that there is no room for them. Nothing else is
wrong. -/
theorem run_all_or_nothing_tooManyLiterals :
    Arguments.settings? [ascii "a.conf"] = some (ascii "a.conf") ∧
      Arguments.others [ascii "a.conf"] = [] ∧
      (patternFile (2 ^ 31)).read (ascii "a.conf") = .ok (patternLine (2 ^ 31)) ∧
      (∀ line ∈ (patternLine (2 ^ 31)).segments, ∀ problem, ¬ BadLine line problem) ∧
      Latest (patternLine (2 ^ 31)).segments (ascii "pattern")
        (fun value source => source = some value) none (some (List.replicate (2 ^ 31) 0x61)) ∧
      (∃ t, parse (List.replicate (2 ^ 31) 0x61) = .ok t) ∧
      ∀ registry program stdin,
        (run registry program [ascii "a.conf"] stdin (patternFile (2 ^ 31))).status = 1 := by
  have hpos : 0 < 2 ^ 31 := by decide
  obtain ⟨t, ht, hcount⟩ := exists_parse_replicate (c := 0x61) (by decide +kernel) hpos
  have hmany : Arena.limit < t.stateCount := by
    rw [hcount]
    decide
  obtain ⟨hgood, hlatest⟩ := latest_patternLine hpos
  refine ⟨rfl, rfl, read_patternFile _, hgood, hlatest, ⟨t, ht⟩, fun registry program stdin => ?_⟩
  have harguments : [ascii "a.conf"].map Bytes.untilNul = [ascii "a.conf"] := by decide +kernel
  have hfails := fails_patternFile hpos ht hmany
  rw [← harguments] at hfails
  obtain ⟨level, entries, hrun⟩ := hfails.run_eq
  rw [hrun]

end Program

end RegexLab
