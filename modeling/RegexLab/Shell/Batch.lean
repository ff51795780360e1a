import RegexLab.Pattern
import RegexLab.Workers.Pool

/-!
# Matching many words

The words are cut into chunks, and each chunk is a job for a pool of workers: it writes the results
of its words and touches no others.

## Main definitions

* `Chunk`, `Chunk.cover` — a run of word numbers, and the chunks that cover all of them.
* `Chunk.run` — the job of a chunk.
* `Chunk.script`, `Pool.chunks` — the script of a pool that runs the chunks, and the chunks in the
  order in which it has run them.
* `Pattern.acceptsEach` — the results of all words.
-/

namespace RegexLab

/-- The words from number `first` up to number `stop`, which is not one of them. -/
structure Chunk where
  first : Nat
  stop : Nat
deriving DecidableEq, Repr

namespace Chunk

def capacity : Nat := 256

/-- The chunks of a given number of words: all are full except perhaps the last. -/
def cover (count : Nat) : List Chunk :=
  (List.range ((count + capacity - 1) / capacity)).map fun k =>
    { first := k * capacity, stop := min count (k * capacity + capacity) }

def indices (c : Chunk) : List Nat :=
  List.range' c.first (c.stop - c.first)

def run (p : Pattern) (words : Array Bytes) (results : Array Bool) (c : Chunk) : Array Bool :=
  c.indices.foldl (fun results i =>
    match words[i]? with
    | some word => results.setIfInBounds i (p.accepts word)
    | none => results) results

def workers : Nat := 4

theorem workers_pos : 0 < workers := by decide

/-- The script of a pool that runs the chunks of some words. Each job has the number of its chunk
as its tag, which may wrap around. -/
def script (count : Nat) : List (Order UInt32) :=
  (List.range (cover count).length).map (fun k => .schedule (.ofNat k)) ++ [.join]

end Chunk

/-- The chunks that a pool has run, in order. A job runs the chunk of its own number. -/
def Pool.chunks {n : Nat} (q : Pool UInt32 n) (count : Nat) : List Chunk :=
  let cover := Chunk.cover count
  q.done.reverse.filterMap fun job => cover[job.number]?

namespace Pattern

def runChunks (p : Pattern) (words : Array Bytes) (order : List Chunk) : Array Bool :=
  order.foldl (Chunk.run p words) (Array.replicate words.size false)

/-- Whether a pattern matches each of several words. The workers run the chunks. -/
def acceptsEach (p : Pattern) (words : Array Bytes) : Array Bool :=
  let q := Pool.runScript (Chunk.script words.size) Chunk.workers_pos
  p.runChunks words (q.chunks words.size)

end Pattern

end RegexLab
