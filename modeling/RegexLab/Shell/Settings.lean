import RegexLab.Log
import RegexLab.Shell.Files
import RegexLab.Text.Lines
import RegexLab.Text.Words

/-!
# Settings

A settings file has a keyword at the start of each line and the value of that keyword after it.
Lines without a word, and lines whose first word starts with a hash, say nothing. The lines before
the first bad one are applied.

## Main definitions

* `Settings` — the prompt, the level of the log and the first pattern.
* `Directive` — what a line says.
* `SettingsError` — why a file is refused.
* `Settings.load` — the settings after reading a file.
-/

namespace RegexLab

structure Settings where
  prompt : Bytes := ascii "> "
  level : LogLevel := .info
  /-- The pattern to start with. The empty pattern is one too. -/
  pattern : Option Bytes := none
deriving DecidableEq, Repr

/-! ## Lines -/

inductive Directive where
  | nothing
  | prompt (text : Bytes)
  | log (level : LogLevel)
  | pattern (source : Bytes)
deriving DecidableEq, Repr

inductive LineProblem where
  | emptyPrompt
  | unknownLevel
  | unknownKeyword (keyword : Bytes)
deriving DecidableEq, Repr

def LineProblem.text : LineProblem → Bytes
  | emptyPrompt => ascii "`prompt` keyword expects one string"
  | unknownLevel => ascii "`log` keyword expects one of error, info, debug"
  | unknownKeyword keyword => ascii "Can't understand keyword " ++ keyword.backquoted

/-- What a line says: its first word is the keyword, the trimmed rest the value. -/
def Directive.ofLine (line : Bytes) : Except LineProblem Directive :=
  let line := line.dropWhile isWhite
  let keyword := line.takeWhile (!isWhite ·)
  let value := Bytes.trim (line.dropWhile (!isWhite ·))
  if keyword = [] then .ok .nothing
  else if keyword = ascii "prompt" then
    if value = [] then .error .emptyPrompt else .ok (.prompt value)
  else if keyword = ascii "log" then
    match LogLevel.ofName? value with
    | some level => .ok (.log level)
    | none => .error .unknownLevel
  else if keyword = ascii "pattern" then .ok (.pattern value)
  else if keyword.head? = some '#'.toUInt8 then .ok .nothing
  else .error (.unknownKeyword keyword)

/-- The settings after a line. A space keeps the prompt apart from the input. -/
def Settings.apply (settings : Settings) : Directive → Settings
  | .nothing => settings
  | .prompt text => { settings with prompt := text ++ ascii " " }
  | .log level => { settings with level }
  | .pattern source => { settings with pattern := some source }

/-! ## Files -/

/-- Why a settings file is refused. The number of a line is what a counter of 32 bits makes of
it. -/
inductive SettingsError where
  | notFound (path : Bytes)
  | badLine (path : Bytes) (line : Int32) (problem : LineProblem)
deriving DecidableEq, Repr

namespace SettingsError

/-- The wording of a problem in a line of a file. Without a positive number the problem concerns
the whole file. -/
def located (path : Bytes) (line : Int32) (problem : Bytes) : Bytes :=
  if line ≤ 0 then problem
  else path ++ ascii ":" ++ decimal line.toNatClampNeg ++ ascii ", " ++ problem

def message (e : SettingsError) : Bytes :=
  match e with
  | notFound path => (located path 0 (ascii "file " ++ path ++ ascii " not found")).untilNul
  | badLine path line problem => (located path line problem.text).untilNul

end SettingsError

namespace Settings

/-- Apply lines up to the first bad one; the first of them has the number `number`. -/
def applyLines (path : Bytes) (settings : Settings) :
    List Bytes → Int32 → Settings × Except SettingsError Unit
  | [], _ => (settings, .ok ())
  | line :: rest, number =>
    match Directive.ofLine line.stripReturn with
    | .ok directive => (settings.apply directive).applyLines path rest (number + 1)
    | .error problem => (settings, .error (.badLine path number problem))

def loadedNote (path : Bytes) : LogEntry where
  level := .debug
  message := ascii "Loaded configuration from " ++ path ++ ascii "."

def load (settings : Settings) (files : Files) (path : Bytes) :
    Settings × Except SettingsError (List LogEntry) :=
  match files.read path with
  | .error _ => (settings, .error (.notFound path))
  | .ok content =>
    let (settings, outcome) := settings.applyLines path content.lines 1
    (settings, outcome.map fun _ => [loadedNote path])

end Settings

end RegexLab
