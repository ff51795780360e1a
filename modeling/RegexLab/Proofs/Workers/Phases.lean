import Mathlib.Algebra.BigOperators.Group.Finset.Basic
import Mathlib.Algebra.Order.Group.Multiset
import Mathlib.Data.Fintype.BigOperators
import RegexLab.Workers.Pool

/-!
# The phases of a pool

A pool goes through three phases. First its owner gives jobs, while the lanes are open and every
worker is there. Then the owner waits for the workers, which leave one by one, each when its lane
is empty. In the end all workers are gone, and nothing runs any more. The jobs that were given
before the first join have run by then, each once, in whatever order the steps were taken.

## Main definitions

* `Pool.Step`, `Pool.Run` — a step of the owner or of a worker, and any number of steps.
* `Pool.OwnerMoves`, `Pool.WorkerMoves` — what a step can do.
* `Pool.share`, `Pool.shares` — the jobs of one worker, and of all of them, that have not run.
* `Pool.firstJobs` — the jobs that a script gives before its first join.
* `Pool.Giving`, `Pool.Draining`, `Pool.Settled`, `Pool.Phase` — the phases.
-/

namespace RegexLab

variable {Tag : Type} {n : Nat}

def Worker.held : Worker Tag → List (Job Tag)
  | holding job => [job]
  | _ => []

def Owner.held : Owner Tag n → List (Job Tag)
  | counted job | bound _ job => [job]
  | _ => []

/-- The owner is not waiting for the workers to go, and has not waited for the last time. -/
def Owner.Gives : Owner Tag n → Prop
  | ready | counted _ | bound _ _ => True
  | joining _ | gone => False

namespace Pool

variable {p q : Pool Tag n} {i j : Fin n} {job : Job Tag} {w : Worker Tag}
  {jobs : Multiset (Job Tag)}

/-! ## Steps -/

inductive Step [BEq Tag] (p q : Pool Tag n) : Prop
  | owner : p.ownerStep = some q → Step p q
  | worker (i : Fin n) : p.workerStep i = some q → Step p q

abbrev Run [BEq Tag] : Pool Tag n → Pool Tag n → Prop :=
  Relation.ReflTransGen Step

inductive OwnerMoves [BEq Tag] (p : Pool Tag n) : Pool Tag n → Prop
  | count {tag : Tag} {script : List (Order Tag)} :
      p.owner = .ready → p.script = .schedule tag :: script →
      OwnerMoves p { p with
        owner := .counted ⟨p.scheduled, tag⟩, script
        scheduled := p.scheduled + 1, pending := p.pending + 1 }
  | wait {script : List (Order Tag)} :
      p.owner = .ready → p.script = .wait :: script → p.pending = 0 →
      OwnerMoves p { p with script, counts := p.done.length :: p.counts }
  | join {script : List (Order Tag)} :
      p.owner = .ready → p.script = .join :: script →
      OwnerMoves p { p with lanes := p.lanes.close, owner := .joining false, script }
  | finish :
      p.owner = .ready → p.script = [] →
      OwnerMoves p { p with lanes := p.lanes.close, owner := .joining true }
  | find {job : Job Tag} :
      p.owner = .counted job →
      OwnerMoves p { p with
        lanes := (p.lanes.bind job.tag).2, owner := .bound (p.lanes.bind job.tag).1 job }
  | give {worker : Fin n} {job : Job Tag} :
      p.owner = .bound worker job →
      OwnerMoves p { p with lanes := p.lanes.append worker job, owner := .ready }
  | joined :
      p.owner = .joining false → (∀ i, p.workers.get i = .gone) →
      OwnerMoves p { p with owner := .ready, counts := p.done.length :: p.counts }
  | finished :
      p.owner = .joining true → (∀ i, p.workers.get i = .gone) →
      OwnerMoves p { p with owner := .gone }

inductive WorkerMoves (i : Fin n) (p : Pool Tag n) : Pool Tag n → Prop
  | take {job : Job Tag} {lanes : Lanes Tag (Job Tag) n} :
      p.workers.get i = .free → p.lanes.pop i = .job job lanes →
      WorkerMoves i p { p with lanes, workers := p.workers.set i (.holding job) i.isLt }
  | leave :
      p.workers.get i = .free → p.lanes.pop i = .drained →
      WorkerMoves i p { p with workers := p.workers.set i .gone i.isLt }
  | run {job : Job Tag} :
      p.workers.get i = .holding job →
      WorkerMoves i p { p with
        workers := p.workers.set i (.finished job) i.isLt, done := job :: p.done }
  | record {job : Job Tag} :
      p.workers.get i = .finished job →
      WorkerMoves i p { p with
        workers := p.workers.set i .free i.isLt, pending := p.pending - 1 }

theorem all_gone_iff :
    (p.workers.all fun w => match w with | .gone => true | _ => false) = true ↔
      ∀ i, p.workers.get i = .gone := by
  rw [Vector.all_eq_true]
  constructor
  · intro h i
    have hi := h i i.isLt
    split at hi
    next hgone => exact hgone
    next => cases hi
  · intro h i hi
    have hgone : p.workers[i] = .gone := h ⟨i, hi⟩
    simp [hgone]

theorem ownerMoves_of_ownerStep [BEq Tag] (h : p.ownerStep = some q) : p.OwnerMoves q := by
  unfold ownerStep at h
  split at h
  next howner hscript => cases h; exact .count howner hscript
  next howner hscript =>
    split at h
    next hpending => cases h; exact .wait howner hscript hpending
    next => cases h
  next howner hscript => cases h; exact .join howner hscript
  next howner hscript => cases h; exact .finish howner hscript
  next howner => cases h; exact .find howner
  next howner => cases h; exact .give howner
  next last howner =>
    split at h
    next hgone =>
      cases last with
      | true => cases h; exact .finished howner (all_gone_iff.mp hgone)
      | false => cases h; exact .joined howner (all_gone_iff.mp hgone)
    next => cases h
  next => cases h

theorem workerMoves_of_workerStep (h : p.workerStep i = some q) : p.WorkerMoves i q := by
  unfold workerStep at h
  split at h
  next hworker =>
    split at h
    next => cases h
    next hpop => cases h; exact .leave hworker hpop
    next hpop => cases h; exact .take hworker hpop
  next hworker => cases h; exact .run hworker
  next hworker => cases h; exact .record hworker
  next => cases h

@[simp] theorem get_set_self (workers : Vector (Worker Tag) n) (i : Fin n) (w : Worker Tag) :
    (workers.set i w i.isLt).get i = w :=
  Vector.getElem_set_self i.isLt

theorem get_set_of_ne (workers : Vector (Worker Tag) n) (w : Worker Tag) (h : j ≠ i) :
    (workers.set i w i.isLt).get j = workers.get j :=
  Vector.getElem_set_ne i.isLt j.isLt (Fin.val_ne_of_ne h.symm)

@[simp] theorem workers_ofScript (script : List (Order Tag)) (hn : 0 < n) (i : Fin n) :
    (ofScript script hn).workers.get i = .free :=
  Vector.getElem_replicate i.isLt

@[simp] theorem lane_ofScript (script : List (Order Tag)) (hn : 0 < n) (i : Fin n) :
    (ofScript script hn).lanes.lane i = [] :=
  Lanes.lane_empty hn i

/-! ## The jobs of the workers -/

/-- The jobs of a worker that have not run: the one that it has taken, and those in its lane. -/
def share (p : Pool Tag n) (i : Fin n) : List (Job Tag) :=
  (p.workers.get i).held ++ p.lanes.lane i

def shares (p : Pool Tag n) : Multiset (Job Tag) :=
  ∑ i, (p.share i : Multiset (Job Tag))

/-- Nobody has a job before the first step. -/
theorem shares_ofScript (script : List (Order Tag)) (hn : 0 < n) :
    (ofScript script hn).shares = 0 :=
  Finset.sum_eq_zero fun i _ => by simp [share, Worker.held]

theorem shares_congr (h : ∀ i, q.share i = p.share i) : q.shares = p.shares := by
  simp only [shares, h]

/-- A sum grows by what one of its terms grows. -/
theorem sum_eq_add {M : Type} [AddCommMonoid M] {f g : Fin n → M} {a : M} (hi : f i = a + g i)
    (hne : ∀ j, j ≠ i → f j = g j) : ∑ j, f j = a + ∑ j, g j := by
  have hothers : ∑ j ∈ Finset.univ.erase i, f j = ∑ j ∈ Finset.univ.erase i, g j :=
    Finset.sum_congr rfl fun j hj => hne j (Finset.ne_of_mem_erase hj)
  rw [← Finset.add_sum_erase _ _ (Finset.mem_univ i), ← Finset.add_sum_erase _ _ (Finset.mem_univ i),
    hothers, hi, add_assoc]

/-- One job less for one worker is one job less for all of them. -/
theorem shares_eq_cons (hi : (p.share i).Perm (job :: q.share i))
    (hne : ∀ j, j ≠ i → p.share j = q.share j) : p.shares = job ::ₘ q.shares := by
  rw [← Multiset.singleton_add]
  exact sum_eq_add (Multiset.coe_eq_coe.mpr hi) fun j hj => congrArg _ (hne j hj)

/-- Finding the lane of a tag moves no job. -/
theorem shares_find [BEq Tag] (p : Pool Tag n) (tag : Tag) (owner : Owner Tag n) :
    shares { p with lanes := (p.lanes.bind tag).2, owner } = p.shares :=
  shares_congr fun i => by simp [share]

/-- A job that is given comes last for its worker. -/
theorem share_give_self (p : Pool Tag n) (worker : Fin n) (job : Job Tag) (owner : Owner Tag n) :
    share { p with lanes := p.lanes.append worker job, owner } worker =
      p.share worker ++ [job] := by
  simp [share]

theorem share_give_of_ne (p : Pool Tag n) {worker : Fin n} (h : j ≠ worker) (job : Job Tag)
    (owner : Owner Tag n) :
    share { p with lanes := p.lanes.append worker job, owner } j = p.share j := by
  simp [share, Lanes.lane_append_of_ne _ h.symm]

/-- A job that is given is one more for all of them. -/
theorem shares_give (p : Pool Tag n) (worker : Fin n) (job : Job Tag) (owner : Owner Tag n) :
    shares { p with lanes := p.lanes.append worker job, owner } = job ::ₘ p.shares := by
  apply shares_eq_cons (i := worker)
  · rw [share_give_self]
    exact List.perm_append_singleton job _
  · exact fun j hj => share_give_of_ne p hj job owner

def Leaves (p : Pool Tag n) : Prop :=
  ∀ i, p.workers.get i = .gone → p.lanes.closed = true ∧ p.lanes.lane i = []

namespace WorkerMoves

/-- A worker that is gone does not move. -/
theorem ne_gone (h : p.WorkerMoves i q) : p.workers.get i ≠ .gone := by
  cases h with
  | take hworker | leave hworker | run hworker | record hworker => simp [hworker]

/-- A worker leaves the owner and the script alone, and does not open or close the lanes. -/
theorem frame (h : p.WorkerMoves i q) :
    q.owner = p.owner ∧ q.script = p.script ∧ q.scheduled = p.scheduled ∧
      q.lanes.closed = p.lanes.closed := by
  cases h with
  | take hworker hpop =>
    obtain ⟨rest, -, -, -, -, -, hclosed⟩ := Lanes.pop_eq_job hpop
    exact ⟨rfl, rfl, rfl, hclosed⟩
  | leave | run | record => exact ⟨rfl, rfl, rfl, rfl⟩

/-- A worker leaves the other workers and their lanes alone. -/
theorem others (h : p.WorkerMoves i q) (hj : j ≠ i) :
    q.workers.get j = p.workers.get j ∧ q.lanes.lane j = p.lanes.lane j := by
  cases h with
  | take hworker hpop =>
    obtain ⟨rest, -, -, hother, -⟩ := Lanes.pop_eq_job hpop
    exact ⟨get_set_of_ne _ _ hj, hother j hj⟩
  | leave | run | record => exact ⟨get_set_of_ne _ _ hj, rfl⟩

theorem share_of_ne (h : p.WorkerMoves i q) (hj : j ≠ i) : q.share j = p.share j := by
  rw [share, share, (h.others hj).1, (h.others hj).2]

theorem shares_eq (h : p.WorkerMoves i q) (hi : q.share i = p.share i) : q.shares = p.shares := by
  refine shares_congr fun j => ?_
  by_cases hj : j = i
  · rw [hj, hi]
  · exact h.share_of_ne hj

/-- A job that has not run stays where it is, or it runs. -/
theorem done_add_shares (h : p.WorkerMoves i q) :
    (q.done : Multiset (Job Tag)) + q.shares = p.done + p.shares := by
  have hsame := h.shares_eq
  have hne := fun j (hj : j ≠ i) => h.share_of_ne hj
  cases h with
  | take hworker hpop =>
    obtain ⟨rest, hlane, hself, -⟩ := Lanes.pop_eq_job hpop
    rw [hsame (by simp [share, hworker, Worker.held, hlane, hself])]
  | leave hworker | record hworker => rw [hsame (by simp [share, hworker, Worker.held])]
  | @run job hworker =>
    have hshares : p.shares = job ::ₘ _ :=
      shares_eq_cons (by simp [share, hworker, Worker.held]) fun j hj => (hne j hj).symm
    rw [hshares, ← Multiset.cons_coe, Multiset.cons_add, Multiset.add_cons]

/-- Those who are gone left when they had nothing to do, and get nothing to do. -/
theorem leaves (h : p.WorkerMoves i q) (hp : p.Leaves) : q.Leaves := by
  intro j hgone
  obtain ⟨-, -, -, hclosed⟩ := h.frame
  rw [hclosed]
  by_cases hj : j = i
  · subst hj
    cases h with
    | leave hworker hpop => exact Lanes.pop_eq_drained_iff.mp hpop
    | take | run | record => simp at hgone
  · obtain ⟨hworker, hlane⟩ := h.others hj
    rw [hlane]
    exact hp j (hworker ▸ hgone)

end WorkerMoves

/-! ## Phases -/

/-- The jobs that a script gives before its first join, numbered from `number` on. -/
def firstJobs (number : Nat) : List (Order Tag) → List (Job Tag)
  | .schedule tag :: script => ⟨number, tag⟩ :: firstJobs (number + 1) script
  | .wait :: script => firstJobs number script
  | .join :: _ | [] => []

/-- The owner gives jobs. Those that it has given have run or will, and the rest of the script
holds the others. -/
structure Giving (p : Pool Tag n) (jobs : Multiset (Job Tag)) : Prop where
  gives : p.owner.Gives
  closed : p.lanes.closed = false
  leaves : p.Leaves
  jobs_eq : (p.done : Multiset (Job Tag)) + p.shares +
    ↑(p.owner.held ++ firstJobs p.scheduled p.script) = jobs

structure Draining (p : Pool Tag n) (jobs : Multiset (Job Tag)) : Prop where
  joining : ∃ last, p.owner = .joining last
  closed : p.lanes.closed = true
  leaves : p.Leaves
  jobs_eq : (p.done : Multiset (Job Tag)) + p.shares = jobs

/-- All workers are gone, and all jobs have run. -/
structure Settled (p : Pool Tag n) (jobs : Multiset (Job Tag)) : Prop where
  gone : ∀ i, p.workers.get i = .gone
  jobs_eq : (p.done : Multiset (Job Tag)) = jobs

inductive Phase (p : Pool Tag n) (jobs : Multiset (Job Tag)) : Prop
  | giving : p.Giving jobs → Phase p jobs
  | draining : p.Draining jobs → Phase p jobs
  | settled : p.Settled jobs → Phase p jobs

/-- While the lanes are open no worker is gone. -/
theorem Giving.ne_gone (h : p.Giving jobs) (i : Fin n) : p.workers.get i ≠ .gone := by
  intro hgone
  have hclosed := (h.leaves i hgone).1
  simp [h.closed] at hclosed

theorem Giving.of_workerMoves (h : p.Giving jobs) (hstep : p.WorkerMoves i q) : q.Giving jobs := by
  obtain ⟨howner, hscript, hscheduled, hclosed⟩ := hstep.frame
  exact {
    gives := howner ▸ h.gives
    closed := hclosed.trans h.closed
    leaves := hstep.leaves h.leaves
    jobs_eq := by rw [hstep.done_add_shares, howner, hscript, hscheduled, h.jobs_eq] }

theorem Draining.of_workerMoves (h : p.Draining jobs) (hstep : p.WorkerMoves i q) :
    q.Draining jobs := by
  obtain ⟨howner, -, -, hclosed⟩ := hstep.frame
  exact {
    joining := howner ▸ h.joining
    closed := hclosed.trans h.closed
    leaves := hstep.leaves h.leaves
    jobs_eq := hstep.done_add_shares.trans h.jobs_eq }

/-- When all workers are gone, all jobs have run. -/
theorem Draining.done_eq (h : p.Draining jobs) (hgone : ∀ i, p.workers.get i = .gone) :
    (p.done : Multiset (Job Tag)) = jobs := by
  have hshares : p.shares = 0 :=
    Finset.sum_eq_zero fun i _ => by simp [share, hgone i, Worker.held, (h.leaves i (hgone i)).2]
  rw [← h.jobs_eq, hshares, add_zero]

/-- The jobs that have run are among those of the phase. -/
theorem Phase.done_le (h : p.Phase jobs) : (p.done : Multiset (Job Tag)) ≤ jobs := by
  cases h with
  | giving h =>
    rw [← h.jobs_eq, add_assoc]
    exact Multiset.le_add_right _ _
  | draining h =>
    rw [← h.jobs_eq]
    exact Multiset.le_add_right _ _
  | settled h => exact h.jobs_eq.le

section Owner

variable [BEq Tag]

/-- The owner runs no job and sends no worker away. -/
theorem OwnerMoves.frame (h : p.OwnerMoves q) : q.workers = p.workers ∧ q.done = p.done := by
  cases h <;> exact ⟨rfl, rfl⟩

/-- A join, or the end of the script, ends the giving of jobs. -/
theorem Giving.of_ownerMoves (h : p.Giving jobs) (hstep : p.OwnerMoves q) :
    q.Giving jobs ∨ q.Draining jobs := by
  obtain ⟨hgives, hclosed, hleaves, hjobs⟩ := h
  cases hstep with
  | count howner hscript =>
    -- The job goes from the head of the script to the owner.
    refine .inl ⟨trivial, hclosed, hleaves, ?_⟩
    rw [← hjobs, howner, hscript]
    rfl
  | wait howner hscript _ =>
    refine .inl ⟨hgives, hclosed, hleaves, ?_⟩
    rw [← hjobs, hscript]
    rfl
  | join howner hscript | finish howner hscript =>
    refine .inr ⟨⟨_, rfl⟩, rfl, fun i hi => ⟨rfl, (hleaves i hi).2⟩, ?_⟩
    rw [← hjobs, howner, hscript]
    exact (add_zero _).symm
  | @find job howner =>
    refine .inl ⟨trivial, by simp [hclosed], fun i hi => ?_, ?_⟩
    · simpa using hleaves i hi
    · rw [← hjobs, howner, shares_find]
      rfl
  | @give worker job howner =>
    -- The job goes from the owner to the lane of a worker, who is still there.
    refine .inl ⟨trivial, hclosed, fun i hi => ?_, ?_⟩
    · exact absurd hi (Giving.ne_gone ⟨hgives, hclosed, hleaves, hjobs⟩ i)
    · rw [← hjobs, howner, shares_give, Multiset.add_cons, Multiset.cons_add]
      exact (Multiset.add_cons _ _ _).symm
  | joined howner _ | finished howner _ => simp [howner, Owner.Gives] at hgives

/-- The owner waits until all workers are gone. -/
theorem Draining.of_ownerMoves (h : p.Draining jobs) (hstep : p.OwnerMoves q) : q.Settled jobs := by
  obtain ⟨last, hlast⟩ := h.joining
  cases hstep with
  | joined _ hgone | finished _ hgone => exact ⟨hgone, h.done_eq hgone⟩
  | count howner | wait howner | join howner | finish howner | find howner | give howner =>
    cases hlast.symm.trans howner

/-- Nobody is left to run a job that is given now. -/
theorem Settled.of_step (h : p.Settled jobs) (hstep : p.Step q) : q.Settled jobs := by
  cases hstep with
  | owner hstep =>
    obtain ⟨hworkers, hdone⟩ := (ownerMoves_of_ownerStep hstep).frame
    exact ⟨hworkers ▸ h.gone, hdone ▸ h.jobs_eq⟩
  | worker i hstep => exact absurd (h.gone i) (workerMoves_of_workerStep hstep).ne_gone

/-- A step leads to the same phase or to the next. -/
theorem Phase.of_step (h : p.Phase jobs) (hstep : p.Step q) : q.Phase jobs := by
  cases h with
  | giving h =>
    cases hstep with
    | owner hstep =>
      exact (h.of_ownerMoves (ownerMoves_of_ownerStep hstep)).elim .giving .draining
    | worker i hstep => exact .giving (h.of_workerMoves (workerMoves_of_workerStep hstep))
  | draining h =>
    cases hstep with
    | owner hstep => exact .settled (h.of_ownerMoves (ownerMoves_of_ownerStep hstep))
    | worker i hstep => exact .draining (h.of_workerMoves (workerMoves_of_workerStep hstep))
  | settled h => exact .settled (h.of_step hstep)

theorem Phase.of_run (h : p.Phase jobs) (hrun : p.Run q) : q.Phase jobs := by
  induction hrun with
  | refl => exact h
  | tail _ hstep ih => exact ih.of_step hstep

end Owner

/-- A pool starts with the giving of jobs. -/
theorem phase_ofScript (script : List (Order Tag)) (hn : 0 < n) :
    (ofScript script hn).Phase (firstJobs 0 script : List (Job Tag)) := by
  refine .giving ⟨trivial, rfl, fun i hi => ?_, ?_⟩
  · cases (workers_ofScript script hn i).symm.trans hi
  · rw [shares_ofScript]
    simp [ofScript, Owner.held]

/-- At the end of a run the jobs before the first join have run, each once, and no others. -/
theorem done_perm_of_run [BEq Tag] {script : List (Order Tag)} {hn : 0 < n}
    (hrun : (ofScript script hn).Run q) (hend : q.owner = .gone) :
    q.done.Perm (firstJobs 0 script) := by
  cases (phase_ofScript script hn).of_run hrun with
  | giving h => exact absurd h.gives (by simp [hend, Owner.Gives])
  | draining h =>
    obtain ⟨last, hlast⟩ := h.joining
    cases hlast.symm.trans hend
  | settled h => exact Multiset.coe_eq_coe.mp h.jobs_eq

end Pool

end RegexLab
