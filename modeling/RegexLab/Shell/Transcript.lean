import RegexLab.Log

/-!
# Transcripts

A command does not write anywhere: it tells what it has to write, in order, and whoever runs it
decides where that goes.

## Main definitions

* `Event` — something that is written.
* `Transcript` — what is written, in order.
* `Transcript.output`, `Transcript.log`, `Transcript.console` — the output alone, the log alone,
  and both as they interleave.
-/

namespace RegexLab

inductive Event where
  /-- Output that may be held back for a while. -/
  | out (text : Bytes)
  /-- All output so far has to appear. -/
  | flush
  /-- A note in the log. -/
  | log (entry : LogEntry)
deriving DecidableEq, Repr

abbrev Transcript := List Event

namespace Event

/-- A line of output that appears at once. -/
def line (text : Bytes) : Transcript :=
  [.out (text ++ ascii "\n"), .flush]

def note (level : LogLevel) (message : Bytes) : Event :=
  .log { level, message }

def output : Event → Bytes
  | out text => text
  | _ => []

def logged (level : LogLevel) : Event → Bytes
  | log entry => entry.written level
  | _ => []

/-- What an event shows on a console, to which both output and log go. -/
def shown (level : LogLevel) (event : Event) : Bytes :=
  event.output ++ event.logged level

end Event

namespace Transcript

def output (t : Transcript) : Bytes :=
  (t.map Event.output).flatten

def log (level : LogLevel) (t : Transcript) : Bytes :=
  (t.map (Event.logged level)).flatten

/-- Output and log as they interleave. -/
def console (level : LogLevel) (t : Transcript) : Bytes :=
  (t.map (Event.shown level)).flatten

@[simp] theorem output_append (t u : Transcript) : output (t ++ u) = output t ++ output u := by
  simp [output]

@[simp] theorem log_append (level : LogLevel) (t u : Transcript) :
    log level (t ++ u) = log level t ++ log level u := by
  simp [log]

@[simp] theorem console_append (level : LogLevel) (t u : Transcript) :
    console level (t ++ u) = console level t ++ console level u := by
  simp [console]

end Transcript

end RegexLab
