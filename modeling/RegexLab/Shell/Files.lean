import RegexLab.Text.Bytes

/-!
# Files

A file has one name, however many paths lead to it. Where a path leads is for the system to say. It
may depend on which files there are, but not on what they hold.

## Main definitions

* `Lookup` — how the system finds what a path leads to.
* `Files` — the files that a shell can see.
* `Files.find?`, `Files.put`, `Files.append` — the content of a file, giving a file a content, and
  adding to one.
* `Files.locate` — what a path leads to.
* `Files.read`, `Files.create` — reading a file, and emptying or making one.
-/

namespace RegexLab

/-! ## Paths -/

inductive OpenError where
  | missing
  | notDirectory
  | nameTooLong
  /-- Any other reason, in the words of the system. -/
  | other (reason : Bytes)
deriving DecidableEq, Repr

def OpenError.reason : OpenError → Bytes
  | missing => ascii "No such file or directory"
  | notDirectory => ascii "Not a directory"
  | nameTooLong => ascii "File name too long"
  | other reason => reason

inductive Place where
  | directory
  | file (name : Bytes)
deriving DecidableEq, Repr

/-- How the system finds what a path leads to. It is told which names are those of files. -/
structure Lookup where
  /-- What is opened when the path is to be read. -/
  toRead : (Bytes → Bool) → Bytes → Except OpenError Place
  /-- The name of the file that is opened or made when the path is to be written to. -/
  toWrite : (Bytes → Bool) → Bytes → Option Bytes

/-- Every path is a name of its own. -/
def Lookup.byName : Lookup where
  toRead isFile path := if isFile path then .ok (.file path) else .error .missing
  toWrite _ path := some path

/-! ## Files by name -/

/-- The files that a shell can see, by name, and how paths lead to them. A content is kept in the
pieces that were written one after the other, latest first, so that adding to a long file is as
quick as to a short one. -/
structure Files where
  lookup : Lookup := .byName
  entries : List (Bytes × List Bytes) := []

namespace Files

def pieces? (files : Files) (name : Bytes) : Option (List Bytes) :=
  files.entries.lookup name

def setPieces (files : Files) (name : Bytes) (pieces : List Bytes) : Files :=
  { files with entries := (name, pieces) :: files.entries.filter (·.1 != name) }

def find? (files : Files) (name : Bytes) : Option Bytes :=
  (files.pieces? name).map fun pieces => pieces.reverse.flatten

def isFile (files : Files) (name : Bytes) : Bool :=
  (files.pieces? name).isSome

def put (files : Files) (name content : Bytes) : Files :=
  files.setPieces name [content]

/-- Add pieces to a file, which come latest first. -/
def append (files : Files) (name : Bytes) (more : List Bytes) : Files :=
  files.setPieces name (more ++ (files.pieces? name).getD [])

/-- The files with the given names and contents. Of two with one name, the first counts. -/
def ofList (lookup : Lookup) (contents : List (Bytes × Bytes)) : Files where
  lookup
  entries := contents.map fun (name, content) => (name, [content])

/-! ## Opening -/

/-- Where a path leads, if it is to be read. A path ends at its first zero byte, and an empty one
leads nowhere. -/
def locate (files : Files) (path : Bytes) : Except OpenError Place :=
  if path.untilNul = [] then .error .missing
  else files.lookup.toRead files.isFile path.untilNul

/-- What is read at a place: nothing, if there is no file. -/
def textAt (files : Files) : Place → Bytes
  | .directory => []
  | .file name => (files.find? name).getD []

def read (files : Files) (path : Bytes) : Except OpenError Bytes :=
  (files.locate path).map files.textAt

/-- The name of the file to write to at a path, and the files once it has been emptied or made. -/
def create (files : Files) (path : Bytes) : Option (Bytes × Files) :=
  if path.untilNul = [] then none
  else (files.lookup.toWrite files.isFile path.untilNul).map fun name => (name, files.put name [])

/-! ## What has been written -/

/-- A file that exists has a content. -/
theorem isFile_eq (files : Files) (name : Bytes) :
    files.isFile name = (files.find? name).isSome := by
  simp [isFile, find?]

@[simp] theorem pieces?_setPieces_self (files : Files) (name : Bytes) (pieces : List Bytes) :
    (files.setPieces name pieces).pieces? name = some pieces := by
  simp [pieces?, setPieces]

theorem pieces?_setPieces_of_ne (files : Files) {name other : Bytes} (h : other ≠ name)
    (pieces : List Bytes) : (files.setPieces name pieces).pieces? other = files.pieces? other := by
  simp only [pieces?, setPieces, List.lookup_cons, beq_false_of_ne h]
  induction files.entries with
  | nil => rfl
  | cons entry entries ih =>
    obtain ⟨key, value⟩ := entry
    by_cases hk : key = name
    · simp_all [List.lookup_cons, beq_false_of_ne h]
    · simp_all [List.lookup_cons]

@[simp] theorem find?_put_self (files : Files) (name content : Bytes) :
    (files.put name content).find? name = some content := by
  simp [find?, put]

theorem find?_put_of_ne (files : Files) {name other : Bytes} (h : other ≠ name) (content : Bytes) :
    (files.put name content).find? other = files.find? other := by
  simp [find?, put, pieces?_setPieces_of_ne files h]

/-- Adding to a file writes behind what it holds. -/
@[simp] theorem find?_append_self (files : Files) (name : Bytes) (more : List Bytes) :
    (files.append name more).find? name =
      some ((files.find? name).getD [] ++ more.reverse.flatten) := by
  cases h : files.pieces? name <;> simp [find?, append, h]

theorem find?_append_of_ne (files : Files) {name other : Bytes} (h : other ≠ name)
    (more : List Bytes) : (files.append name more).find? other = files.find? other := by
  simp [find?, append, pieces?_setPieces_of_ne files h]

/-- By its name a file that stands alone is read. -/
theorem read_byName {name : Bytes} (hname : name.untilNul = name) (hne : name ≠ [])
    (content : Bytes) : (ofList .byName [(name, content)]).read name = .ok content := by
  simp [read, locate, hname, hne, ofList, Lookup.byName, isFile, pieces?, Except.map, textAt,
    find?]

end Files

end RegexLab
