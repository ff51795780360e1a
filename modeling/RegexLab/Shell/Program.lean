import RegexLab.Shell.Console
import RegexLab.Shell.Settings

/-!
# The program

The shell reads the arguments, then the settings, then the first pattern, and then runs lines: from
a console, with a prompt before each, or from one file into another.

## Main definitions

* `Arguments` — what the command line asks for.
* `Program.start` — starting up, and what can go wrong there.
* `Program.run` — the whole run.
-/

namespace RegexLab

/-! ## The command line -/

/-- The settings file that is read when none is named. It need not exist. -/
def defaultSettingsPath : Bytes := ascii "thompson.conf"

structure Arguments where
  /-- The settings file, if one is named. -/
  settingsPath : Option Bytes := none
  /-- The file to read lines from and the file to write to, if they are named. -/
  replay : Option (Bytes × Bytes) := none
deriving DecidableEq, Repr

def Arguments.withFiles (settingsPath : Option Bytes) : List Bytes → Option Arguments
  | [] => some { settingsPath }
  | [input, output] => some { settingsPath, replay := some (input, output) }
  | _ => none

/-- What the arguments of the program ask for, if they are understood. A first argument that ends
in `.conf` names the settings file. -/
def Arguments.ofList : List Bytes → Option Arguments
  | [] => withFiles none []
  | first :: rest =>
    if (ascii ".conf").isSuffixOf first then withFiles (some first) rest
    else withFiles none (first :: rest)

/-! ## The whole program -/

namespace Program

inductive StartError where
  | arguments
  | input
  | output
  | settings (e : SettingsError)
  | pattern (e : RegexError)
deriving DecidableEq, Repr

def StartError.message : StartError → Bytes
  | arguments => ascii "Incorrect arguments."
  | input => ascii "Input file is invalid."
  | output => ascii "Output file is invalid."
  | settings e => ascii "Config: " ++ e.message
  | pattern e => ascii "Pattern: " ++ e.message

def usage (program : Bytes) : Bytes :=
  ascii "Usage: " ++ program ++ ascii " [config-file.conf] [in-file out-file]\n"

def StartError.report (program : Bytes) (e : StartError) : Transcript :=
  (match e with
    | arguments => [.out (usage program), .flush]
    | _ => []) ++ [Event.note .error e.message]

/-- Open the files that lines are read from and output goes to. The second is emptied before the
first is read, which matters if they are one file. -/
def openFiles (files : Files) (stdin : Bytes) :
    Option (Bytes × Bytes) → Except StartError (Bytes × Outlet × Files)
  | none => .ok (stdin, .console, files)
  | some (input, output) =>
    match files.locate input, files.create output with
    | .error _, _ => .error .input
    | .ok _, none => .error .output
    | .ok place, some (name, files) => .ok (files.textAt place, .file name .empty, files)

/-- The settings to start with, and what is noted about them. The file is optional unless it was
named. -/
def loadSettings (files : Files) (path : Option Bytes) :
    Settings × Except SettingsError Transcript :=
  match path, files.read defaultSettingsPath with
  | none, .error _ =>
    ({}, .ok [Event.note .debug (ascii "No " ++ defaultSettingsPath
      ++ ascii ", using the default settings.")])
  | _, _ =>
    let path := path.getD defaultSettingsPath
    let (settings, outcome) := Settings.load {} files path
    (settings, outcome.map fun notes => notes.map .log ++
      [Event.note .info (ascii "Loaded configuration " ++ path ++ ascii ".")])

def firstSession (settings : Settings) : Except RegexError (Session × Transcript) :=
  match settings.pattern with
  | none => .ok ({}, [])
  | some source => do
    let (p, notes) ← Pattern.compile source
    return ({ current := some p }, notes.map .log ++
      [Event.note .info (ascii "Current pattern is " ++ source.backquoted ++ ascii ".")])

/-- Start up: the arguments, the files they name, the settings, the first pattern. The settings are
told in either case, and the world as far as it has been changed. -/
def start (arguments : List Bytes) (stdin : Bytes) (files : Files) :
    Settings × World × Except StartError (Session × Console) :=
  let w : World := { files }
  match Arguments.ofList arguments with
  | none => ({}, w, .error .arguments)
  | some asked =>
    match openFiles files stdin asked.replay with
    | .error e => ({}, w, .error e)
    | .ok (input, outlet, files) =>
      let w : World := { files, outlet }
      match loadSettings files asked.settingsPath with
      | (settings, .error e) => (settings, w, .error (.settings e))
      | (settings, .ok notes) =>
        let w := w.writeAll notes
        match firstSession settings with
        | .error e => (settings, w, .error (.pattern e))
        | .ok (session, notes) =>
          let prompt := if asked.replay.isNone then some settings.prompt else none
          (settings, w.writeAll notes, .ok (session, { source := { rest := input }, prompt }))

structure Outcome where
  status : Nat
  stdout : Bytes
  files : Files

/-- The whole run of the program, which was started by the name `program`. It fails only if it
cannot start. The name and the arguments end at their first zero byte. -/
def run (registry : Registry) (program : Bytes) (arguments : List Bytes) (stdin : Bytes)
    (files : Files) : Outcome :=
  match start (arguments.map Bytes.untilNul) stdin files with
  | (settings, w, .error e) =>
    let w := { w with outlet := .console }.writeAll (e.report program.untilNul)
    { status := 1, stdout := w.console settings.level, files := w.files }
  | (settings, w, .ok (session, console)) =>
    let w := (registry.runLines console session w).2.write .flush
    { status := 0, stdout := w.console settings.level, files := w.files }

end Program

end RegexLab
