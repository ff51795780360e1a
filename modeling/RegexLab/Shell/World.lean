import RegexLab.Shell.Files
import RegexLab.Shell.Transcript

/-!
# Where output goes

The log always goes to the console. Output goes there too, or into a file, which gets to hold it
only when it has to appear.

## Main definitions

* `Backlog` — output that has not reached its file yet.
* `Outlet` — where output goes.
* `World` — the files as they are now, and what has been written so far.
* `World.write` — the world after an event.
-/

namespace RegexLab

/-! ## Output that waits -/

/-- Output that has not reached its file yet, in pieces, latest first. -/
structure Backlog where
  pieces : List Bytes := []
  /-- The number of bytes of all pieces. -/
  size : Nat := 0
  size_eq : size = pieces.flatten.length := by rfl
deriving DecidableEq, Repr

namespace Backlog

def empty : Backlog := {}

/-- The number of bytes that there is room for. A backlog never fills it. -/
def capacity : Nat := 8191

/-- The length from which on a piece does not wait. -/
def longPiece : Nat := 1024

def content (b : Backlog) : Bytes :=
  b.pieces.reverse.flatten

def add (b : Backlog) (piece : Bytes) : Backlog where
  pieces := piece :: b.pieces
  size := piece.length + b.size
  size_eq := by simp [b.size_eq]

/-- Whether another piece can wait: it is not long and does not fill the room that is left. -/
def hasRoom (b : Backlog) (piece : Bytes) : Bool :=
  piece.length < min longPiece (capacity - b.size)

@[simp] theorem content_add (b : Backlog) (piece : Bytes) :
    (b.add piece).content = b.content ++ piece := by
  simp [content, add]

end Backlog

/-! ## The world -/

inductive Outlet where
  | console
  /-- To a file, with the output that has not reached it yet. -/
  | file (name : Bytes) (held : Backlog)
deriving DecidableEq, Repr

/-- The files as they are now, where output goes, and what the console has shown, latest first. -/
structure World where
  files : Files := {}
  outlet : Outlet := .console
  shown : Transcript := []

namespace World

def deliver (w : World) (name : Bytes) (held : Backlog) : World :=
  { w with files := w.files.append name held.pieces, outlet := .file name .empty }

/-- What has been held back ends up behind what the file holds. -/
@[simp] theorem find?_deliver (w : World) (name : Bytes) (held : Backlog) :
    (w.deliver name held).files.find? name =
      some ((w.files.find? name).getD [] ++ held.content) := by
  simp [deliver, Backlog.content]

/-- Write an event. Output for a file is held back until it has to appear or there is no room. -/
def write (w : World) (event : Event) : World :=
  match event, w.outlet with
  | .log _, _ | _, .console => { w with shown := event :: w.shown }
  | .flush, .file name held => w.deliver name held
  | .out text, .file name held =>
    if held.hasRoom text then { w with outlet := .file name (held.add text) }
    else w.deliver name (held.add text)

def writeAll (w : World) (t : Transcript) : World :=
  t.foldl write w

def console (w : World) (level : LogLevel) : Bytes :=
  Transcript.console level w.shown.reverse

end World

end RegexLab
