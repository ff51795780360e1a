import RegexLab.Shell.Standard

/-!
# The effect of a line

## Main definitions

* `splitLine` — the command word of a line and its arguments.
* `Registry.perform` — the effect of a line, or what went wrong.
* `Registry.runLine` — the effect of a line, errors being reported.
-/

namespace RegexLab

/-- The command word of a line and its arguments. A blank line has an empty command word. -/
def splitLine (line : Bytes) : Bytes × List Bytes :=
  let line := line.dropWhile isWhite
  (line.takeWhile (!isWhite ·), Bytes.arguments (line.dropWhile (!isWhite ·)))

/-- What is reported about a line that failed. Wrong patterns are also noted in the log. -/
def Failure.report (line : Bytes) (failure : Failure) : Transcript :=
  Event.line (ascii "Error: " ++ failure.message) ++
    match failure with
    | .command _ => []
    | .regex _ => [Event.note .debug (ascii "Rejected line " ++ line.backquoted ++ ascii ".")]

namespace Registry

def commandOf (registry : Registry) (line : Bytes) :
    Except CommandError (Command × List Bytes) := do
  let (name, arguments) := splitLine line
  return (← registry.find name, arguments)

def perform (registry : Registry) (files : Files) (s : Session) (line : Bytes) :
    Except Failure (Transcript × Session) := do
  let (command, arguments) ← (registry.commandOf line).mapError .command
  let arguments ← (checkArguments command.kinds arguments).mapError .command
  command.run { files, descriptions := registry.descriptions } s arguments

/-- The effect of a line. A blank line does nothing, and a line that fails is reported and leaves
the session as it was. -/
def runLine (registry : Registry) (files : Files) (s : Session) (line : Bytes) :
    Transcript × Session :=
  if line.all isWhite then ([], s)
  else
    match registry.perform files s line with
    | .ok result => result
    | .error failure => (failure.report line, s)

end Registry

end RegexLab
