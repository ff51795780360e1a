import RegexLab.Pattern
import RegexLab.Shell.Files
import RegexLab.Shell.Transcript
import RegexLab.Text.Words

/-!
# Commands

A command tells which arguments it takes; they are checked before it runs. It works on the session
and answers with what it writes and the session afterwards, or with what went wrong.

## Main definitions

* `ArgumentKind`, `checkArguments` — the arguments that a command takes.
* `CommandError`, `Failure` — what can go wrong.
* `Session` — the pattern in use, and whether the session is over.
* `Command` — a command.
* `Registry` — the commands by name.
-/

namespace RegexLab

/-! ## What can go wrong -/

inductive CommandError where
  | unknown (name : Bytes)
  | argumentCount
  | badPath
  | noPattern
  /-- The empty pattern has no tree. -/
  | noTree
  | cannotOpen (path : Bytes) (cause : OpenError)
deriving DecidableEq, Repr

namespace CommandError

def description : CommandError → Bytes
  | unknown name => ascii "command " ++ name ++ ascii " not found."
  | argumentCount => ascii "number of arguments doesn't match."
  | badPath => ascii "incorrect path."
  | noPattern => ascii "no pattern compiled, use `compile` first."
  | noTree => ascii "the empty pattern has no parse tree."
  | cannotOpen path cause =>
    ascii "can't open " ++ path ++ ascii ": " ++ cause.reason ++ ascii "."

def message (e : CommandError) : Bytes :=
  e.description.untilNul

end CommandError

inductive Failure where
  | command (e : CommandError)
  | regex (e : RegexError)
deriving DecidableEq, Repr

def Failure.message : Failure → Bytes
  | command e => e.message
  | regex e => e.message

/-! ## Arguments -/

inductive ArgumentKind where
  | pattern
  | tokens
  /-- A word, which is empty when it is left out. -/
  | word
  | path
deriving DecidableEq, Repr

/-- Check one argument. A path has at least one byte, and no zero byte. -/
def ArgumentKind.check (kind : ArgumentKind) (argument : Bytes) : Except CommandError Bytes :=
  if kind = .path ∧ (argument = [] ∨ 0 ∈ argument) then .error .badPath else .ok argument

/-- Check arguments one by one and fill in the words that were left out. -/
def fillArguments : List ArgumentKind → List Bytes → Except CommandError (List Bytes)
  | [], _ => .ok []
  | .word :: kinds, [] => return [] :: (← fillArguments kinds [])
  | _ :: _, [] => .error .argumentCount
  | kind :: kinds, argument :: rest => do
    let argument ← kind.check argument
    return argument :: (← fillArguments kinds rest)

/-- The arguments that a command gets. There may not be more than it takes. -/
def checkArguments (kinds : List ArgumentKind) (arguments : List Bytes) :
    Except CommandError (List Bytes) :=
  if kinds.length < arguments.length then .error .argumentCount
  else fillArguments kinds arguments

/-! ## Sessions and commands -/

structure Session where
  /-- The pattern that words are matched against. -/
  current : Option Pattern := none
  stopped : Bool := false
deriving DecidableEq, Repr

def Session.pattern (s : Session) : Except Failure Pattern :=
  match s.current with
  | some p => .ok p
  | none => .error (.command .noPattern)

structure Surroundings where
  files : Files := {}
  /-- The descriptions of all commands, in the order of their names. -/
  descriptions : List Bytes := []

structure Command where
  /-- One line about how to use it. -/
  description : Bytes
  /-- The arguments that it takes. -/
  kinds : List ArgumentKind
  /-- What it does with checked arguments. -/
  run : Surroundings → Session → List Bytes → Except Failure (Transcript × Session)

/-! ## Registry -/

structure Registry where
  commands : List (Bytes × Command) := []

namespace Registry

def register (registry : Registry) (name : Bytes) (command : Command) : Registry where
  commands := insert registry.commands
where
  /-- The place of the command in the rest of the list. -/
  insert : List (Bytes × Command) → List (Bytes × Command)
    | [] => [(name, command)]
    | (other, c) :: rest =>
      if other = name then (name, command) :: rest
      else if name.before other then (name, command) :: (other, c) :: rest
      else (other, c) :: insert rest

def find (registry : Registry) (name : Bytes) : Except CommandError Command :=
  match registry.commands.lookup name with
  | some command => .ok command
  | none => .error (.unknown name)

def names (registry : Registry) : List Bytes :=
  registry.commands.map (·.1)

def descriptions (registry : Registry) : List Bytes :=
  registry.commands.map (·.2.description)

end Registry

end RegexLab
