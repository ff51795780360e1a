/-!
# Lanes of jobs

Each worker has a lane of jobs. A tag belongs to the lane of one worker from its first job on, so
the jobs of a tag are taken in the order in which they were given. Tags are dealt out to the
workers in turn.

## Main definitions

* `Lanes` — the lanes of `n` workers.
* `Lanes.push`, `Lanes.close`, `Lanes.pop` — giving a job, closing, and taking a job.
-/

namespace RegexLab

structure Lanes (Tag Job : Type) (n : Nat) where
  /-- The jobs of each worker, the next one first. -/
  jobs : Vector (List Job) n
  /-- The worker of each tag that has been used, latest first. -/
  bindings : List (Tag × Fin n) := []
  /-- The worker that the next new tag will belong to. -/
  next : Fin n
  closed : Bool := false

inductive Delivery (Tag Job : Type) (n : Nat) where
  /-- The lane is empty but more may come: the worker has to wait. -/
  | wait
  /-- The lane is empty and closed. -/
  | drained
  /-- The next job, and the lanes without it. -/
  | job (job : Job) (rest : Lanes Tag Job n)

namespace Lanes

variable {Tag Job : Type} {n : Nat}

def empty (hn : 0 < n := by omega) : Lanes Tag Job n where
  jobs := Vector.replicate n []
  next := ⟨0, hn⟩

/-- The jobs in the lane of a worker, the next one first. -/
def lane (q : Lanes Tag Job n) (worker : Fin n) : List Job :=
  q.jobs[worker]

def binding? [BEq Tag] (q : Lanes Tag Job n) (tag : Tag) : Option (Fin n) :=
  q.bindings.lookup tag

/-- Bind a tag to a worker unless it is bound already. -/
def bind [BEq Tag] (q : Lanes Tag Job n) (tag : Tag) : Fin n × Lanes Tag Job n :=
  match q.binding? tag with
  | some worker => (worker, q)
  | none =>
    let next : Fin n := ⟨(q.next + 1) % n, Nat.mod_lt _ q.next.pos⟩
    (q.next, { q with bindings := (tag, q.next) :: q.bindings, next })

def append (q : Lanes Tag Job n) (worker : Fin n) (job : Job) : Lanes Tag Job n :=
  { q with jobs := q.jobs.set worker (q.lane worker ++ [job]) }

def push [BEq Tag] (q : Lanes Tag Job n) (tag : Tag) (job : Job) : Lanes Tag Job n :=
  let (worker, q) := q.bind tag
  q.append worker job

/-- Let no worker wait any more. -/
def close (q : Lanes Tag Job n) : Lanes Tag Job n :=
  { q with closed := true }

/-- Take the next job of a worker. Jobs that were given after the close are still delivered. -/
def pop (q : Lanes Tag Job n) (worker : Fin n) : Delivery Tag Job n :=
  match q.lane worker with
  | job :: rest => .job job { q with jobs := q.jobs.set worker rest }
  | [] => if q.closed then .drained else .wait

/-! ## Laws of binding -/

section Bind

variable [BEq Tag] {q : Lanes Tag Job n} {tag tag' : Tag} {w : Fin n}

theorem bind_of_bound (h : q.binding? tag = some w) : q.bind tag = (w, q) := by
  simp [bind, h]

theorem bind_of_unbound (h : q.binding? tag = none) :
    q.bind tag = (q.next, { q with
      bindings := (tag, q.next) :: q.bindings
      next := ⟨(q.next + 1) % n, Nat.mod_lt _ q.next.pos⟩ }) := by
  simp [bind, h]

@[simp] theorem lane_bind (q : Lanes Tag Job n) (tag : Tag) (v : Fin n) :
    (q.bind tag).2.lane v = q.lane v := by
  cases h : q.binding? tag with
  | some w => rw [bind_of_bound h]
  | none => rw [bind_of_unbound h]; rfl

@[simp] theorem closed_bind (q : Lanes Tag Job n) (tag : Tag) :
    (q.bind tag).2.closed = q.closed := by
  cases h : q.binding? tag with
  | some w => rw [bind_of_bound h]
  | none => rw [bind_of_unbound h]

@[simp] theorem binding?_bind_self [LawfulBEq Tag] (q : Lanes Tag Job n) (tag : Tag) :
    (q.bind tag).2.binding? tag = some (q.bind tag).1 := by
  cases h : q.binding? tag with
  | some w => rw [bind_of_bound h, h]
  | none => rw [bind_of_unbound h]; simp [binding?]

theorem binding?_bind_of_ne [LawfulBEq Tag] (h : tag' ≠ tag) :
    (q.bind tag).2.binding? tag' = q.binding? tag' := by
  cases hb : q.binding? tag with
  | some w => rw [bind_of_bound hb]
  | none => rw [bind_of_unbound hb]; simp [binding?, List.lookup_cons, beq_false_of_ne h]

/-- A tag that is bound stays bound. -/
theorem binding?_bind_of_bound [LawfulBEq Tag] (tag : Tag) (h : q.binding? tag' = some w) :
    (q.bind tag).2.binding? tag' = some w := by
  by_cases heq : tag' = tag
  · subst heq
    rw [bind_of_bound h, h]
  · rw [binding?_bind_of_ne heq, h]

@[simp] theorem binding?_append (q : Lanes Tag Job n) (v : Fin n) (job : Job) (tag : Tag) :
    (q.append v job).binding? tag = q.binding? tag := rfl

end Bind

/-! ## Laws of lanes -/

@[simp] theorem lane_empty (hn : 0 < n) (v : Fin n) :
    (empty hn : Lanes Tag Job n).lane v = [] := by
  simp [empty, lane]

@[simp] theorem closed_append (q : Lanes Tag Job n) (v : Fin n) (job : Job) :
    (q.append v job).closed = q.closed := rfl

@[simp] theorem lane_append_self (q : Lanes Tag Job n) (worker : Fin n) (job : Job) :
    (q.append worker job).lane worker = q.lane worker ++ [job] := by
  simp [append, lane]

theorem lane_append_of_ne (q : Lanes Tag Job n) {v w : Fin n} (h : v ≠ w) (job : Job) :
    (q.append v job).lane w = q.lane w := by
  simp [append, lane, Fin.val_inj, h]

/-- A job goes to the end of the lane of the worker that its tag is bound to. -/
theorem lane_push [BEq Tag] (q : Lanes Tag Job n) (tag : Tag) (job : Job) (v : Fin n) :
    (q.push tag job).lane v = q.lane v ++ if (q.bind tag).1 = v then [job] else [] := by
  have hpush : q.push tag job = (q.bind tag).2.append (q.bind tag).1 job := rfl
  rw [hpush]
  split
  next h =>
    subst h
    rw [lane_append_self, lane_bind]
  next h => rw [lane_append_of_ne _ h, lane_bind, List.append_nil]

/-- A job is delivered from the head of its lane. -/
theorem pop_of_lane_eq_cons {q : Lanes Tag Job n} {worker : Fin n} {job : Job} {rest : List Job}
    (h : q.lane worker = job :: rest) :
    q.pop worker = .job job { q with jobs := q.jobs.set worker rest } := by
  simp [pop, h]

/-- An empty lane is drained once it is closed. -/
theorem pop_of_lane_eq_nil {q : Lanes Tag Job n} {worker : Fin n} (h : q.lane worker = []) :
    q.pop worker = if q.closed then .drained else .wait := by
  simp [pop, h]

/-- A worker that gets a job gets the one at the head of its lane, which keeps the others. -/
theorem pop_eq_job {q q' : Lanes Tag Job n} {v : Fin n} {job : Job} (h : q.pop v = .job job q') :
    ∃ rest, q.lane v = job :: rest ∧ q'.lane v = rest ∧ (∀ w, w ≠ v → q'.lane w = q.lane w) ∧
      q'.bindings = q.bindings ∧ q'.next = q.next ∧ q'.closed = q.closed := by
  unfold pop at h
  split at h
  next job' rest hlane =>
    obtain ⟨rfl, rfl⟩ := Delivery.job.inj h
    refine ⟨rest, hlane, by simp [lane], fun w hne => ?_, rfl, rfl, rfl⟩
    simp [lane, Fin.val_inj, Ne.symm hne]
  next => split at h <;> cases h

theorem pop_eq_drained_iff {q : Lanes Tag Job n} {v : Fin n} :
    q.pop v = .drained ↔ q.closed = true ∧ q.lane v = [] := by
  cases h : q.lane v with
  | cons job rest => simp [pop_of_lane_eq_cons h]
  | nil => cases hc : q.closed <;> simp [pop_of_lane_eq_nil h, hc]

theorem pop_eq_wait_iff {q : Lanes Tag Job n} {v : Fin n} :
    q.pop v = .wait ↔ q.closed = false ∧ q.lane v = [] := by
  cases h : q.lane v with
  | cons job rest => simp [pop_of_lane_eq_cons h]
  | nil => cases hc : q.closed <;> simp [pop_of_lane_eq_nil h, hc]

end Lanes

end RegexLab
