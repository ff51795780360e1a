import RegexLab.Text.Bytes

/-!
# The log

Whatever happens is noted; which notes are written is decided by the level that is in force.

## Main definitions

* `LogLevel` — the three levels.
* `LogEntry` — a note.
* `LogEntry.written` — the line that a note makes at a given level.
-/

namespace RegexLab

inductive LogLevel where
  | error
  | info
  | debug
deriving DecidableEq, Repr

namespace LogLevel

def rank : LogLevel → Nat
  | error => 0
  | info => 1
  | debug => 2

def name : LogLevel → Bytes
  | error => ascii "error"
  | info => ascii "info"
  | debug => ascii "debug"

def ofName? (name : Bytes) : Option LogLevel :=
  [error, info, debug].find? (·.name == name)

def mark : LogLevel → Bytes
  | error => ascii "[ERROR] "
  | info => ascii "[INFO] "
  | debug => ascii "[DEBUG] "

@[simp] theorem ofName?_name (level : LogLevel) : ofName? level.name = some level := by
  cases level <;> decide

theorem ofName?_eq_some_iff {name : Bytes} {level : LogLevel} :
    ofName? name = some level ↔ name = level.name := by
  constructor
  · intro h
    exact (by simpa using List.find?_some h : level.name = name).symm
  · rintro rfl
    exact ofName?_name level

end LogLevel

structure LogEntry where
  level : LogLevel
  message : Bytes
deriving DecidableEq, Repr

namespace LogEntry

def written (level : LogLevel) (entry : LogEntry) : Bytes :=
  if entry.level.rank ≤ level.rank then entry.level.mark ++ entry.message ++ ascii "\n" else []

end LogEntry

end RegexLab
