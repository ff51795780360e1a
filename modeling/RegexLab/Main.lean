import RegexLab.Shell.Program

/-!
# The executable

Reads the files that the arguments and the lines name, hands their contents to the shell, and
prints what it answers. The shell itself is in `RegexLab.Shell.Program`.
-/

namespace RegexLab

namespace Executable

def fileName? (name : Bytes) : Option String :=
  String.fromUTF8? name.toByteArray

/-- Read the files at the given paths, leaving out those that cannot be read. Each path is a name of
its own. -/
def readFiles (paths : List Bytes) : IO Files := do
  let mut files : Files := {}
  for path in paths do
    if let some name := fileName? path then
      try
        files := files.put path (← IO.FS.readBinFile name).toList
      catch _ => pure ()
  return files

def writeFile (path content : Bytes) : IO Bool := do
  let some name := fileName? path | return false
  try
    IO.FS.writeBinFile name content.toByteArray
    return true
  catch _ => return false

/-- Read a line from a stream, byte by byte. There is none at the end of the stream. -/
partial def readLine? (stream : IO.FS.Stream) (line : Bytes) : IO (Option Bytes) := do
  match (← stream.read 1).toList with
  | [] => return if line.isEmpty then none else some line.reverse
  | c :: _ => if c = lineFeed then return some line.reverse else readLine? stream (c :: line)

def print (text : Bytes) : IO Unit := do
  let stdout ← IO.getStdout
  stdout.write text.toByteArray
  stdout.flush

partial def converse (settings : Settings) (s : Session) : IO Unit := do
  print settings.prompt
  let some line ← readLine? (← IO.getStdin) [] | return
  let files ← readFiles (splitLine line).2
  let (written, s) := Registry.standard.runLine files s (Bytes.stripReturn line)
  print (written.console settings.level)
  if s.stopped then return
  converse settings s

def programName : Bytes :=
  ascii "thompson"

/-- Run the lines of a file, and write what they print into another. -/
def replay (arguments : List Bytes) (input output : Bytes) (startPaths : List Bytes) :
    IO UInt32 := do
  let script := (← readFiles [input]).read input
  let named := match script with
    | .ok content => content.lines.flatMap fun line => (splitLine line).2
    | .error _ => []
  let files ← readFiles (startPaths ++ named)
  -- The file to write to is emptied once the other can be read, and not before.
  let writable ← if script.isOk then writeFile output [] else pure false
  let toWrite (_ : Bytes → Bool) (path : Bytes) := if writable then some path else none
  let result := Program.run Registry.standard programName arguments []
    { files with lookup := { Lookup.byName with toWrite } }
  print result.stdout
  if writable then
    if let some content := result.files.find? output then
      discard <| writeFile output content
  return result.status.toUInt32

def interactive (arguments : List Bytes) (startPaths : List Bytes) : IO UInt32 := do
  let (settings, w, outcome) := Program.start arguments [] (← readFiles startPaths)
  match outcome with
  | .ok (s, _) =>
    print (w.console settings.level)
    converse settings s
    return 0
  | .error e =>
    print ((w.writeAll (e.report programName)).console settings.level)
    return 1

end Executable

end RegexLab

open RegexLab Executable in
def main (arguments : List String) : IO UInt32 := do
  let arguments := arguments.map fun a => a.toUTF8.toList
  match Arguments.ofList arguments with
  | some { settingsPath, replay := some (input, output) } =>
    replay arguments input output [settingsPath.getD defaultSettingsPath, input]
  | some { settingsPath, replay := none } =>
    interactive arguments [settingsPath.getD defaultSettingsPath]
  | none => interactive arguments []
