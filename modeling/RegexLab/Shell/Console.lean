import RegexLab.Shell.Session
import RegexLab.Shell.World

/-!
# Running lines

## Main definitions

* `Console` — lines to run, with the prompt before each.
* `Console.readOver` — reading the next line.
* `Registry.runLines` — run lines until they end or the session is over.
-/

namespace RegexLab

/-- Lines to run. There is a prompt before each if someone types them in. -/
structure Console where
  source : LineSource
  prompt : Option Bytes := some (ascii "> ")
deriving DecidableEq, Repr

namespace Console

def greeting (c : Console) : Transcript :=
  match c.prompt with
  | some text => [.out text, .flush]
  | none => []

/-- Read a line over the previous one: whether there was one, what the line is now, what is written
and the console afterwards. -/
def readOver (c : Console) (previous : Bytes) : Bool × Bytes × Transcript × Console :=
  let (found, line, source) := c.source.readOver previous
  (found, line, c.greeting, { c with source })

end Console

/-- Run lines until they end or the session is over. -/
def Registry.runLines (registry : Registry) (c : Console) (s : Session) (w : World) :
    Session × World :=
  let w := w.writeAll c.greeting
  match _h : c.source.next? with
  | (none, _) => (s, w)
  | (some line, source) =>
    let (written, s) := registry.runLine w.files s (Bytes.stripReturn line)
    let w := w.writeAll written
    if s.stopped then (s, w) else registry.runLines { c with source } s w
termination_by c.source.rest.length
decreasing_by exact LineSource.length_rest_lt_of_next? _h

end RegexLab
