import RegexLab.Proofs.Workers.Phases

/-!
# Every run ends

Each step takes something off the work that is left, so no run goes on for ever. If the script asks
for no wait there is a step to take until the owner is gone. So every run that is not cut short
ends there, and so does the run that the step bound allows.

## Main definitions

* `Worker.work`, `Owner.work`, `Pool.work` — a bound on the steps that are left.
-/

namespace RegexLab

variable {Tag : Type} {n : Nat}

/-- The steps that a worker takes if it gets no other job. -/
def Worker.work : Worker Tag → Nat
  | free => 1
  | holding _ => 3
  | finished _ => 2
  | gone => 0

def Owner.work : Owner Tag n → Nat
  | ready => 2
  | counted _ => 7
  | bound _ _ => 6
  | joining false => 3
  | joining true => 1
  | gone => 0

namespace Pool

variable {p q : Pool Tag n} {i : Fin n} {jobs : Multiset (Job Tag)}

def load (lanes : Lanes Tag (Job Tag) n) (workers : Vector (Worker Tag) n) (i : Fin n) : Nat :=
  3 * (lanes.lane i).length + (workers.get i).work

/-- A bound on the steps that are left. -/
def work (p : Pool Tag n) : Nat :=
  6 * p.script.length + p.owner.work + ∑ i, load p.lanes p.workers i

/-! ## Less work at each step -/

section Load

variable {lanes : Lanes Tag (Job Tag) n} {workers : Vector (Worker Tag) n}

@[simp] theorem load_close : load lanes.close workers = load lanes workers := rfl

@[simp] theorem load_bind [BEq Tag] (tag : Tag) :
    load (lanes.bind tag).2 workers = load lanes workers := by
  funext i
  simp [load]

/-- A job that is given makes three steps for its worker. -/
theorem sum_load_append (w : Fin n) (job : Job Tag) :
    ∑ i, load (lanes.append w job) workers i = 3 + ∑ i, load lanes workers i := by
  apply sum_eq_add (i := w)
  · simp only [load, Lanes.lane_append_self, List.length_append, List.length_singleton]
    omega
  · intro j hj
    simp only [load, Lanes.lane_append_of_ne _ hj.symm]

end Load

/-- Each step of a worker is one of those that its jobs need. -/
theorem WorkerMoves.sum_load (h : p.WorkerMoves i q) :
    ∑ j, load p.lanes p.workers j = 1 + ∑ j, load q.lanes q.workers j := by
  apply sum_eq_add (i := i)
  · cases h with
    | take hworker hpop =>
      obtain ⟨rest, hlane, hself, -⟩ := Lanes.pop_eq_job hpop
      simp only [load, hlane, hself, hworker, get_set_self, Worker.work, List.length_cons]
      omega
    | leave hworker | run hworker | record hworker =>
      simp only [load, hworker, get_set_self, Worker.work]
      omega
  · intro j hj
    rw [load, load, (h.others hj).1, (h.others hj).2]

theorem WorkerMoves.work_lt (h : p.WorkerMoves i q) : q.work < p.work := by
  obtain ⟨howner, hscript, -⟩ := h.frame
  have hsum := h.sum_load
  simp only [work, howner, hscript]
  omega

/-- A worker that is not gone has something to do unless it has to wait for a job. -/
theorem exists_workerStep (hpop : p.workers.get i = .free → p.lanes.pop i ≠ .wait)
    (hi : p.workers.get i ≠ .gone) : ∃ q, p.workerStep i = some q := by
  unfold workerStep
  split
  next hworker =>
    split
    next hwait => exact absurd hwait (hpop hworker)
    next => exact ⟨_, rfl⟩
    next => exact ⟨_, rfl⟩
  next => exact ⟨_, rfl⟩
  next => exact ⟨_, rfl⟩
  next hgone => exact absurd hgone hi

/-- Before the first step there are six steps for each entry of the script, one for each worker,
and two for the end. -/
theorem work_ofScript (script : List (Order Tag)) (hn : 0 < n) :
    (ofScript script hn).work = 6 * script.length + 2 + n := by
  have hload : ∑ i, load (ofScript script hn).lanes (ofScript script hn).workers i = n := by
    simp [load, Worker.work]
  rw [work, hload]
  rfl

section Owner

variable [BEq Tag]

theorem OwnerMoves.work_lt (h : p.OwnerMoves q) : q.work < p.work := by
  cases h with
  | count howner hscript | wait howner hscript | join howner hscript | finish howner hscript =>
    simp only [work, howner, hscript, Owner.work, List.length_cons, List.length_nil, load_close]
    omega
  | give howner =>
    simp only [work, howner, Owner.work, sum_load_append]
    omega
  | find howner | joined howner | finished howner =>
    simp only [work, howner, Owner.work, load_bind]
    omega

theorem work_lt_of_step (h : p.Step q) : q.work < p.work := by
  cases h with
  | owner h => exact (ownerMoves_of_ownerStep h).work_lt
  | worker i h => exact (workerMoves_of_workerStep h).work_lt

/-! ## A step to take -/

/-- The script only gets shorter. -/
theorem script_suffix_of_step (h : p.Step q) : q.script <:+ p.script := by
  cases h with
  | owner h =>
    cases ownerMoves_of_ownerStep h with
    | count _ hscript | wait _ hscript | join _ hscript => simp [hscript]
    | finish | find | give | joined | finished => exact List.suffix_rfl
  | worker i h =>
    obtain ⟨-, hscript, -⟩ := (workerMoves_of_workerStep h).frame
    rw [hscript]

theorem script_suffix_of_run (h : p.Run q) : q.script <:+ p.script := by
  induction h with
  | refl => exact List.suffix_rfl
  | tail _ hstep ih => exact (script_suffix_of_step hstep).trans ih

/-- An owner that gives jobs can go on, unless it has to wait for them. -/
theorem exists_ownerStep (hgives : p.owner.Gives)
    (hwait : p.owner = .ready → ∀ script, p.script = .wait :: script → p.pending = 0) :
    ∃ q, p.ownerStep = some q := by
  unfold ownerStep
  split
  next => exact ⟨_, rfl⟩
  next script howner hscript => exact ⟨_, if_pos (hwait howner script hscript)⟩
  next => exact ⟨_, rfl⟩
  next => exact ⟨_, rfl⟩
  next => exact ⟨_, rfl⟩
  next => exact ⟨_, rfl⟩
  next hjoining => simp [hjoining, Owner.Gives] at hgives
  next hgone => simp [hgone, Owner.Gives] at hgives

/-- An owner that waits for the workers can go on when all are gone. -/
theorem exists_ownerStep_of_gone {last : Bool} (hjoining : p.owner = .joining last)
    (hgone : ∀ i, p.workers.get i = .gone) : ∃ q, p.ownerStep = some q := by
  rw [ownerStep, hjoining]
  cases last with
  | true => exact ⟨{ p with owner := .gone }, if_pos (all_gone_iff.mpr hgone)⟩
  | false =>
    exact ⟨{ p with owner := .ready, counts := p.done.length :: p.counts },
      if_pos (all_gone_iff.mpr hgone)⟩

/-- Until the owner is gone somebody can take a step, if somebody can wherever the owner waits for
jobs. -/
theorem Phase.exists_step (h : p.Phase jobs)
    (hwait : p.owner = .ready → ∀ script, p.script = .wait :: script → p.pending ≠ 0 →
      ∃ q, p.Step q)
    (howner : p.owner ≠ .gone) : ∃ q, p.Step q := by
  by_cases hgives : p.owner.Gives
  · by_contra hstuck
    obtain ⟨q, hq⟩ := exists_ownerStep hgives fun hready script hscript =>
      of_not_not fun hpending => hstuck (hwait hready script hscript hpending)
    exact hstuck ⟨q, .owner hq⟩
  · obtain ⟨last, hjoining⟩ : ∃ last, p.owner = .joining last := by
      cases hp : p.owner with
      | joining last => exact ⟨last, rfl⟩
      | ready | counted | bound => simp [hp, Owner.Gives] at hgives
      | gone => exact absurd hp howner
    by_cases hgone : ∀ i, p.workers.get i = .gone
    · obtain ⟨q, hq⟩ := exists_ownerStep_of_gone hjoining hgone
      exact ⟨q, .owner hq⟩
    · obtain ⟨i, hi⟩ := not_forall.mp hgone
      have hclosed : p.lanes.closed = true := by
        cases h with
        | giving h => exact absurd h.gives hgives
        | draining h => exact h.closed
        | settled h => exact absurd h.gone hgone
      obtain ⟨q, hq⟩ := exists_workerStep
        (fun _ hpop => by simp [Lanes.pop_eq_wait_iff, hclosed] at hpop) hi
      exact ⟨q, .worker i hq⟩

/-- Until the owner is gone somebody can take a step, if no wait is asked for. -/
theorem Phase.exists_step_of_notMem (h : p.Phase jobs) (hwait : .wait ∉ p.script)
    (howner : p.owner ≠ .gone) : ∃ q, p.Step q := by
  refine h.exists_step (fun _ script hscript _ => ?_) howner
  simp [hscript] at hwait

/-- Wherever a run has got to, it can go on until the owner is gone. -/
theorem Phase.exists_run (h : p.Phase jobs) (hwait : .wait ∉ p.script) :
    ∃ q, p.Run q ∧ q.owner = .gone := by
  induction hwork : p.work using Nat.strong_induction_on generalizing p with
  | _ work ih =>
    by_cases howner : p.owner = .gone
    · exact ⟨p, .refl, howner⟩
    · obtain ⟨q, hstep⟩ := h.exists_step_of_notMem hwait howner
      have hlt : q.work < work := hwork ▸ work_lt_of_step hstep
      have hwait' : .wait ∉ q.script := fun hq => hwait ((script_suffix_of_step hstep).subset hq)
      obtain ⟨r, hrun, hend⟩ := ih q.work hlt (h.of_step hstep) hwait' rfl
      exact ⟨r, .head hstep hrun, hend⟩

/-! ## The run that the step bound allows -/

theorem step_of_anyStep (h : p.anyStep = some q) : p.Step q := by
  unfold anyStep at h
  cases howner : p.ownerStep with
  | some q' =>
    rw [howner] at h
    exact .owner (howner.trans h)
  | none =>
    rw [howner] at h
    obtain ⟨i, -, hi⟩ := List.exists_of_findSome?_eq_some h
    exact .worker i hi

theorem not_step_of_anyStep (h : p.anyStep = none) : ¬ p.Step q := by
  unfold anyStep at h
  intro hstep
  cases hstep with
  | owner hstep => simp [hstep] at h
  | worker i hstep =>
    cases howner : p.ownerStep with
    | some q' => simp [howner] at h
    | none =>
      rw [howner] at h
      have hi := List.findSome?_eq_none_iff.mp h i (List.mem_finRange i)
      simp [hstep] at hi

/-- Driving a pool is a run of it, and enough steps drive it to a place where no step is left. -/
theorem run_drive (steps : Nat) (p : Pool Tag n) : p.Run (drive steps p) := by
  induction steps generalizing p with
  | zero => exact .refl
  | succ steps ih =>
    unfold drive
    split
    next q hstep => exact .head (step_of_anyStep hstep) (ih q)
    next => exact .refl

theorem not_step_drive {steps : Nat} (h : p.work < steps) : ¬ (drive steps p).Step q := by
  induction steps generalizing p with
  | zero => omega
  | succ steps ih =>
    unfold drive
    split
    next q' hstep =>
      have hlt := work_lt_of_step (step_of_anyStep hstep)
      exact ih (by omega)
    next hnone => exact not_step_of_anyStep hnone

/-- The bound on the steps of a script suffices. -/
theorem owner_runScript {script : List (Order Tag)} (hn : 0 < n) (hwait : .wait ∉ script) :
    (runScript script hn).owner = .gone := by
  have hrun : (ofScript script hn).Run (runScript script hn) := run_drive _ _
  by_contra howner
  obtain ⟨q, hstep⟩ := ((phase_ofScript script hn).of_run hrun).exists_step_of_notMem
    (fun hq => hwait ((script_suffix_of_run hrun).subset hq)) howner
  refine not_step_drive ?_ hstep
  rw [work_ofScript, stepBound]
  omega

end Owner

end Pool

end RegexLab
