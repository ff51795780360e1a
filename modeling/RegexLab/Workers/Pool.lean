import RegexLab.Workers.Lanes

/-!
# A pool of workers

A pool follows a script: give jobs, wait until all jobs given so far are done, or close and join
the workers. The owner of the script and the workers take their steps in any order; each step is
one that no other can interrupt. A counter of pending jobs goes up before a job is given and down
after it has run.

## Main definitions

* `Order` — an entry of the script.
* `Pool` — the state between two steps.
* `Pool.ownerStep`, `Pool.workerStep` — the steps.
* `Pool.drive` — a run in which the owner goes first, and then the workers by number.
-/

namespace RegexLab

inductive Order (Tag : Type) where
  | schedule (tag : Tag)
  | wait
  | join
deriving DecidableEq, Repr

/-- A job: its number in the order of scheduling, and its tag. -/
structure Job (Tag : Type) where
  number : Nat
  tag : Tag
deriving DecidableEq, Repr

inductive Worker (Tag : Type) where
  | free
  /-- Run the job that it has taken. -/
  | holding (job : Job Tag)
  /-- Record that its job is done. -/
  | finished (job : Job Tag)
  | gone
deriving DecidableEq, Repr

inductive Owner (Tag : Type) (n : Nat) where
  | ready
  /-- Find the lane of a job that has been counted. -/
  | counted (job : Job Tag)
  /-- Put a job into its lane. -/
  | bound (worker : Fin n) (job : Job Tag)
  /-- Wait for the workers to go. The end of the script joins them too. -/
  | joining (last : Bool)
  | gone
deriving DecidableEq, Repr

structure Pool (Tag : Type) (n : Nat) where
  lanes : Lanes Tag (Job Tag) n
  /-- The number of jobs that were counted and are not recorded as done. -/
  pending : Nat := 0
  workers : Vector (Worker Tag) n := Vector.replicate n .free
  owner : Owner Tag n := .ready
  script : List (Order Tag)
  scheduled : Nat := 0
  /-- The jobs that have run, latest first. -/
  done : List (Job Tag) := []
  /-- The number of jobs that had run after each wait and each join, latest first. -/
  counts : List Nat := []

namespace Pool

variable {Tag : Type} {n : Nat}

def ofScript (script : List (Order Tag)) (hn : 0 < n := by omega) : Pool Tag n where
  lanes := .empty hn
  script

def ownerStep [BEq Tag] (p : Pool Tag n) : Option (Pool Tag n) :=
  match p.owner, p.script with
  | .ready, .schedule tag :: script =>
    some { p with
      owner := .counted ⟨p.scheduled, tag⟩, script,
      scheduled := p.scheduled + 1, pending := p.pending + 1 }
  | .ready, .wait :: script =>
    if p.pending = 0 then some { p with script, counts := p.done.length :: p.counts } else none
  | .ready, .join :: script =>
    some { p with lanes := p.lanes.close, owner := .joining false, script }
  | .ready, [] => some { p with lanes := p.lanes.close, owner := .joining true }
  | .counted job, _ =>
    let (worker, lanes) := p.lanes.bind job.tag
    some { p with lanes, owner := .bound worker job }
  | .bound worker job, _ => some { p with lanes := p.lanes.append worker job, owner := .ready }
  | .joining last, _ =>
    if p.workers.all (fun w => match w with | .gone => true | _ => false) then
      if last then some { p with owner := .gone }
      else some { p with owner := .ready, counts := p.done.length :: p.counts }
    else none
  | .gone, _ => none

def workerStep (p : Pool Tag n) (i : Fin n) : Option (Pool Tag n) :=
  match p.workers.get i with
  | .free =>
    match p.lanes.pop i with
    | .wait => none
    | .drained => some { p with workers := p.workers.set i .gone i.isLt }
    | .job job lanes => some { p with lanes, workers := p.workers.set i (.holding job) i.isLt }
  | .holding job =>
    some { p with workers := p.workers.set i (.finished job) i.isLt, done := job :: p.done }
  | .finished _ => some { p with workers := p.workers.set i .free i.isLt, pending := p.pending - 1 }
  | .gone => none

/-! ## One way to run -/

/-- A step of the owner if it can take one, or else of the first worker that can. -/
def anyStep [BEq Tag] (p : Pool Tag n) : Option (Pool Tag n) :=
  p.ownerStep.orElse fun _ => (List.finRange n).findSome? p.workerStep

def drive [BEq Tag] : Nat → Pool Tag n → Pool Tag n
  | 0, p => p
  | steps + 1, p =>
    match p.anyStep with
    | some next => drive steps next
    | none => p

/-- A bound on the steps of a script: six for each job, two for each join, and those in which the
workers go. -/
def stepBound (n : Nat) (script : List (Order Tag)) : Nat :=
  6 * script.length + n + 3

def runScript [BEq Tag] (script : List (Order Tag)) (hn : 0 < n := by omega) : Pool Tag n :=
  drive (stepBound n script) (ofScript script hn)

/-- The numbers of the jobs of a tag, in the order in which they ran. -/
def ranUnder [BEq Tag] (p : Pool Tag n) (tag : Tag) : List Nat :=
  (p.done.reverse.filter (·.tag == tag)).map (·.number)

def ranTags [BEq Tag] (p : Pool Tag n) : List Tag :=
  (p.done.map (·.tag)).eraseDups

end Pool

end RegexLab
