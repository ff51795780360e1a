import RegexLab.Shell.Files

/-!
# The paths of a directory

A directory with files in it but no directories. A path is followed part by part, so the first part
that fails decides the error.

## Main definitions

* `Directory.follow` — where the parts of a path lead.
* `Lookup.directory` — how paths are looked up in the directory.
-/

namespace RegexLab

namespace Directory

def slash : UInt8 := '/'.toUInt8

def parts (path : Bytes) : List Bytes :=
  path.foldr (fun c parts =>
    match parts with
    | [] => [[c]]
    | part :: rest => if c = slash then [] :: part :: rest else (c :: part) :: rest) [[]]

/-- Where the parts of a path lead. The name at its end may be that of no file. Outside of the
directory there is nothing. -/
def follow (isFile : Bytes → Bool) (inside : Bool) : List Bytes → Except OpenError Place
  | [] => .ok .directory
  | part :: rest =>
    if part = [] ∨ part = ascii "." then follow isFile inside rest
    else if part = ascii ".." then follow isFile false rest
    else if 255 < part.length then .error .nameTooLong
    else if !inside then .error .missing
    else if rest = [] then .ok (.file part)
    else if isFile part then .error .notDirectory
    else .error .missing

/-- Where a path leads. It has fewer than 4096 bytes. -/
def followPath (isFile : Bytes → Bool) (path : Bytes) : Except OpenError Place :=
  if 4096 ≤ path.length then .error .nameTooLong
  else follow isFile (path.head? != some slash) (parts path)

end Directory

/-- Only a file can be read, and only a name can be written to, whether or not it has a file. -/
def Lookup.directory : Lookup where
  toRead isFile path :=
    match Directory.followPath isFile path with
    | .ok (.file name) => if isFile name then .ok (.file name) else .error .missing
    | answer => answer
  toWrite isFile path :=
    match Directory.followPath isFile path with
    | .ok (.file name) => some name
    | _ => none

end RegexLab
