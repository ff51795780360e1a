import RegexLab.Proofs.Workers.Phases

/-!
# The account of pending jobs

The counter goes up before a job is given and down after it has run. In between, the job is with the
owner, in a lane, with the worker that took it, or with the worker that has run it and has not said
so yet. The counter tells how many jobs are in these places together, so it is not zero when a
worker lowers it.

## Main definitions

* `Pool.allJobs`, `Pool.given` — the jobs of a script, and those that have been scheduled.
* `Pool.Recorded` — a job has run, and the counter knows.
* `Pool.unrecorded` — the jobs that have run, but the counter does not know.
* `Pool.Account` — where the scheduled jobs are, and what the counter says.
-/

namespace RegexLab

variable {Tag : Type} {n : Nat}

def Worker.unrecorded : Worker Tag → List (Job Tag)
  | finished job => [job]
  | _ => []

namespace Pool

variable {p q : Pool Tag n} {i j : Fin n} {job : Job Tag} {tag : Tag} {number : Nat}
  {script passed orders : List (Order Tag)}

/-! ## The jobs of a script -/

/-- The jobs that a script gives, before and after its joins, numbered from `number` on. -/
def allJobs (number : Nat) : List (Order Tag) → List (Job Tag)
  | .schedule tag :: script => ⟨number, tag⟩ :: allJobs (number + 1) script
  | .wait :: script | .join :: script => allJobs number script
  | [] => []

theorem allJobs_append (number : Nat) (script rest : List (Order Tag)) :
    allJobs number (script ++ rest) =
      allJobs number script ++ allJobs (number + (allJobs number script).length) rest := by
  induction script generalizing number with
  | nil => rfl
  | cons order script ih =>
    cases order with
    | schedule tag =>
      rw [List.cons_append, allJobs, allJobs, ih, List.length_cons, List.cons_append]
      congr 3
      omega
    | wait | join => exact ih number

theorem le_number_of_mem_allJobs (h : job ∈ allJobs number script) : number ≤ job.number := by
  fun_induction allJobs number script with
  | case1 number tag script ih =>
    obtain rfl | h := List.mem_cons.mp h
    · exact le_rfl
    · exact (Nat.le_succ number).trans (ih h)
  | case2 _ _ ih | case3 _ _ ih => exact ih h
  | case4 => cases h

/-- No two jobs have the same number. -/
theorem nodup_allJobs (number : Nat) (script : List (Order Tag)) :
    (allJobs number script).Nodup := by
  fun_induction allJobs number script with
  | case1 number tag script ih =>
    refine List.nodup_cons.mpr ⟨fun h => ?_, ih⟩
    exact absurd (le_number_of_mem_allJobs h) (Nat.not_succ_le_self number)
  | case2 _ _ ih | case3 _ _ ih => exact ih
  | case4 => exact List.nodup_nil

/-- The jobs before the first join are the first ones. -/
theorem firstJobs_prefix_allJobs (number : Nat) (script : List (Order Tag)) :
    firstJobs number script <+: allJobs number script := by
  fun_induction allJobs number script with
  | case1 number tag script ih => exact (List.prefix_cons_inj _).mpr ih
  | case2 number script ih => exact ih
  | case3 | case4 => exact List.nil_prefix

def given (p : Pool Tag n) (script : List (Order Tag)) : List (Job Tag) :=
  (allJobs 0 script).take p.scheduled

/-- The scheduled jobs are those of the part of the script that the owner has passed. -/
theorem given_eq (hpassed : script = passed ++ p.script)
    (hscheduled : p.scheduled = (allJobs 0 passed).length) : p.given script = allJobs 0 passed := by
  rw [given, hpassed, allJobs_append, hscheduled, List.take_left]

/-! ## Jobs that have run but are not recorded -/

/-- The job has run, and the worker that ran it has lowered the counter. -/
def Recorded (p : Pool Tag n) (job : Job Tag) : Prop :=
  job ∈ p.done ∧ ∀ i, p.workers.get i ≠ .finished job

instance [DecidableEq Tag] (p : Pool Tag n) : DecidablePred p.Recorded :=
  fun job => inferInstanceAs (Decidable (job ∈ p.done ∧ ∀ i, p.workers.get i ≠ .finished job))

/-- The jobs that have run while the worker that ran them has not lowered the counter yet. -/
def unrecorded (p : Pool Tag n) : Multiset (Job Tag) :=
  ∑ i, ((p.workers.get i).unrecorded : Multiset (Job Tag))

theorem mem_unrecorded : job ∈ p.unrecorded ↔ ∃ i, p.workers.get i = .finished job := by
  have hworker : ∀ w : Worker Tag, job ∈ w.unrecorded ↔ w = .finished job := by
    intro w
    cases w <;> simp [Worker.unrecorded, eq_comm]
  simp [unrecorded, Multiset.mem_sum, hworker]

theorem recorded_iff : p.Recorded job ↔ job ∈ p.done ∧ job ∉ p.unrecorded := by
  rw [Recorded, mem_unrecorded, not_exists]

/-- A step of a worker moves nothing into or out of the places that the counter counts, or a job
runs and is still counted, or it is recorded. -/
theorem WorkerMoves.record_cases (h : p.WorkerMoves i q) :
    (q.done = p.done ∧ q.shares = p.shares ∧ q.unrecorded = p.unrecorded ∧
      q.pending = p.pending) ∨
    (∃ job, q.done = job :: p.done ∧ p.shares = job ::ₘ q.shares ∧
      q.unrecorded = job ::ₘ p.unrecorded ∧ q.pending = p.pending) ∨
    ∃ job, q.done = p.done ∧ q.shares = p.shares ∧ p.unrecorded = job ::ₘ q.unrecorded ∧
      q.pending = p.pending - 1 := by
  have hdone := h.done_add_shares
  have hothers : ∀ j, j ≠ i → ((q.workers.get j).unrecorded : Multiset (Job Tag)) =
      (p.workers.get j).unrecorded := fun j hj => by rw [(h.others hj).1]
  have hshares : q.done = p.done → q.shares = p.shares := fun heq => by
    rw [heq] at hdone
    exact add_left_cancel hdone
  cases h with
  | take hworker | leave hworker =>
    refine .inl ⟨rfl, hshares rfl, ?_, rfl⟩
    rw [← zero_add p.unrecorded]
    refine sum_eq_add ?_ hothers
    rw [hworker, get_set_self]
    rfl
  | @run job hworker =>
    refine .inr (.inl ⟨job, rfl, ?_, ?_, rfl⟩)
    · rw [← Multiset.cons_coe, Multiset.cons_add, ← Multiset.add_cons] at hdone
      exact (add_left_cancel hdone).symm
    · rw [← Multiset.singleton_add]
      refine sum_eq_add ?_ hothers
      rw [hworker, get_set_self]
      rfl
  | @record job hworker =>
    refine .inr (.inr ⟨job, rfl, hshares rfl, ?_, rfl⟩)
    rw [← Multiset.singleton_add]
    refine sum_eq_add ?_ fun j hj => (hothers j hj).symm
    rw [hworker, get_set_self]
    rfl

/-! ## The account -/

def waiting (p : Pool Tag n) : Multiset (Job Tag) :=
  p.shares + p.owner.held

/-- The owner takes orders off the script. What they schedule is counted, and waits. -/
theorem OwnerMoves.exists_orders [BEq Tag] (h : p.OwnerMoves q) :
    ∃ orders, p.script = orders ++ q.script ∧
      q.scheduled = p.scheduled + (allJobs p.scheduled orders).length ∧
      q.pending = p.pending + (allJobs p.scheduled orders).length ∧
      q.waiting = p.waiting + allJobs p.scheduled orders := by
  cases h with
  | @count tag script howner hscript =>
    refine ⟨[.schedule tag], hscript, rfl, rfl, ?_⟩
    rw [waiting, waiting, howner]
    exact congrArg (· + _) (add_zero _).symm
  | wait howner hscript => exact ⟨[.wait], hscript, rfl, rfl, (add_zero _).symm⟩
  | join howner hscript =>
    refine ⟨[.join], hscript, rfl, rfl, ?_⟩
    rw [waiting, waiting, howner]
    exact (add_zero _).symm
  | finish howner | joined howner | finished howner =>
    refine ⟨[], rfl, rfl, rfl, ?_⟩
    rw [waiting, waiting, howner]
    exact (add_zero _).symm
  | @find job howner =>
    refine ⟨[], rfl, rfl, rfl, ?_⟩
    rw [waiting, waiting, howner, shares_find]
    exact (add_zero _).symm
  | @give worker job howner =>
    refine ⟨[], rfl, rfl, rfl, ?_⟩
    rw [waiting, waiting, howner, shares_give, ← Multiset.singleton_add, add_comm _ p.shares]
    rfl

/-- Where the scheduled jobs are, and what the counter says. -/
structure Account (script : List (Order Tag)) (p : Pool Tag n) : Prop where
  passed : ∃ passed, script = passed ++ p.script ∧ p.scheduled = (allJobs 0 passed).length
  jobs_eq : (p.done : Multiset (Job Tag)) + p.waiting = p.given script
  unrecorded_le : p.unrecorded ≤ p.done
  pending_eq : p.pending = (p.unrecorded + p.waiting).card

namespace Account

theorem ofScript (script : List (Order Tag)) (hn : 0 < n) :
    (Pool.ofScript script hn).Account script := by
  have hwaiting : (Pool.ofScript script hn).waiting = 0 := by
    rw [waiting, shares_ofScript]
    rfl
  have hunrecorded : (Pool.ofScript script hn).unrecorded = 0 :=
    Finset.sum_eq_zero fun i _ => by simp [Worker.unrecorded]
  refine ⟨⟨[], rfl, rfl⟩, ?_, ?_, ?_⟩
  · rw [hwaiting]
    rfl
  · rw [hunrecorded]
    exact Multiset.zero_le _
  · rw [hunrecorded, hwaiting]
    rfl

theorem of_workerMoves (h : p.Account script) (hstep : p.WorkerMoves i q) : q.Account script := by
  obtain ⟨howner, hscript, hscheduled, -⟩ := hstep.frame
  have hpassed : ∃ passed, script = passed ++ q.script ∧
      q.scheduled = (allJobs 0 passed).length := by
    rw [hscript, hscheduled]
    exact h.passed
  have hjobs : (q.done : Multiset (Job Tag)) + q.waiting = q.given script := by
    rw [waiting, howner, ← add_assoc, hstep.done_add_shares, add_assoc, given, hscheduled]
    exact h.jobs_eq
  obtain ⟨hdone, hshares, hunrecorded, hpending⟩ | ⟨job, hdone, hshares, hunrecorded, hpending⟩ |
    ⟨job, hdone, hshares, hunrecorded, hpending⟩ := hstep.record_cases
  · refine ⟨hpassed, hjobs, ?_, ?_⟩
    · rw [hdone, hunrecorded]
      exact h.unrecorded_le
    · rw [hpending, h.pending_eq, hunrecorded, waiting, waiting, howner, hshares]
  · refine ⟨hpassed, hjobs, ?_, ?_⟩
    · rw [hdone, hunrecorded]
      exact Multiset.cons_le_cons job h.unrecorded_le
    · rw [hpending, h.pending_eq, hunrecorded, waiting, waiting, howner, hshares,
        Multiset.cons_add, Multiset.cons_add, Multiset.add_cons]
  · refine ⟨hpassed, hjobs, ?_, ?_⟩
    · rw [hdone]
      exact (hunrecorded ▸ Multiset.le_cons_self _ job).trans h.unrecorded_le
    · rw [hpending, h.pending_eq, hunrecorded, waiting, waiting, howner, hshares,
        Multiset.cons_add, Multiset.card_cons, Nat.add_sub_cancel]

/-- The part of the script that has been passed grows by what is taken off the rest. -/
theorem exists_passed (h : p.Account script) (horders : p.script = orders ++ q.script)
    (hscheduled : q.scheduled = p.scheduled + (allJobs p.scheduled orders).length) :
    ∃ passed, script = passed ++ q.script ∧ q.scheduled = (allJobs 0 passed).length ∧
      allJobs 0 passed = p.given script ++ allJobs p.scheduled orders := by
  obtain ⟨passed, hpassed, hcount⟩ := h.passed
  have hmore : allJobs 0 (passed ++ orders) = p.given script ++ allJobs p.scheduled orders := by
    rw [given_eq hpassed hcount, allJobs_append, Nat.zero_add, ← hcount]
  refine ⟨passed ++ orders, ?_, ?_, hmore⟩
  · rw [hpassed, horders, List.append_assoc]
  · rw [hmore, List.length_append, given_eq hpassed hcount, ← hcount, hscheduled]

theorem given_append (h : p.Account script) (horders : p.script = orders ++ q.script)
    (hscheduled : q.scheduled = p.scheduled + (allJobs p.scheduled orders).length) :
    q.given script = p.given script ++ allJobs p.scheduled orders := by
  obtain ⟨passed, hpassed, hcount, hmore⟩ := h.exists_passed horders hscheduled
  rw [given_eq hpassed hcount, hmore]

section Owner

variable [BEq Tag]

theorem of_ownerMoves (h : p.Account script) (hstep : p.OwnerMoves q) : q.Account script := by
  obtain ⟨hworkers, hdone⟩ := hstep.frame
  obtain ⟨orders, horders, hscheduled, hpending, hwaiting⟩ := hstep.exists_orders
  have hunrecorded : q.unrecorded = p.unrecorded := by rw [unrecorded, hworkers, unrecorded]
  refine ⟨?_, ?_, ?_, ?_⟩
  · obtain ⟨passed, hpassed, hcount, -⟩ := h.exists_passed horders hscheduled
    exact ⟨passed, hpassed, hcount⟩
  · rw [hdone, hwaiting, ← add_assoc, h.jobs_eq, h.given_append horders hscheduled,
      Multiset.coe_add]
  · rw [hunrecorded, hdone]
    exact h.unrecorded_le
  · rw [hpending, hunrecorded, hwaiting, h.pending_eq]
    simp only [Multiset.card_add, Multiset.coe_card]
    omega

theorem of_run {hn : 0 < n} (hrun : (Pool.ofScript script hn).Run p) : p.Account script := by
  induction hrun with
  | refl => exact .ofScript script hn
  | tail _ hstep ih =>
    cases hstep with
    | owner hstep => exact ih.of_ownerMoves (ownerMoves_of_ownerStep hstep)
    | worker i hstep => exact ih.of_workerMoves (workerMoves_of_workerStep hstep)

end Owner

/-! ### What the counter says -/

theorem nodup_given (p : Pool Tag n) (script : List (Order Tag)) : (p.given script).Nodup :=
  (nodup_allJobs 0 script).sublist (List.take_sublist _ _)

theorem nodup_done_add_waiting (h : p.Account script) :
    ((p.done : Multiset (Job Tag)) + p.waiting).Nodup := by
  rw [h.jobs_eq]
  exact nodup_given p script

/-- No job runs twice. -/
theorem nodup_done (h : p.Account script) : p.done.Nodup :=
  (Multiset.nodup_add.mp h.nodup_done_add_waiting).1

/-- The jobs that have not been recorded are in the places that the counter counts. -/
theorem filter_not_recorded [DecidableEq Tag] (h : p.Account script) :
    (p.given script : Multiset (Job Tag)).filter (¬ p.Recorded ·) = p.unrecorded + p.waiting := by
  have hnodup := h.nodup_done_add_waiting
  obtain ⟨-, -, hdisjoint⟩ := Multiset.nodup_add.mp hnodup
  have hle : p.unrecorded + p.waiting ≤ p.done + p.waiting := by
    gcongr
    exact h.unrecorded_le
  rw [← h.jobs_eq]
  refine (Multiset.Nodup.ext (hnodup.filter _) (Multiset.nodup_of_le hle hnodup)).mpr fun job => ?_
  rw [Multiset.mem_filter, Multiset.mem_add, Multiset.mem_add, Multiset.mem_coe, recorded_iff]
  have hran : job ∈ p.unrecorded → job ∈ p.done := Multiset.mem_of_le h.unrecorded_le
  have hwaits : job ∈ p.done → job ∉ p.waiting := Multiset.disjoint_left.mp hdisjoint
  grind

/-- The counter tells how many of the scheduled jobs have not been recorded. -/
theorem pending_eq_length [DecidableEq Tag] (h : p.Account script) :
    p.pending = ((p.given script).filter fun job => ¬ p.Recorded job).length := by
  rw [h.pending_eq, ← h.filter_not_recorded, Multiset.filter_coe, Multiset.coe_card]

/-- A worker that is about to lower the counter finds that it is not zero. -/
theorem pending_pos (h : p.Account script) (hi : p.workers.get i = .finished job) :
    0 < p.pending := by
  rw [h.pending_eq, Multiset.card_pos_iff_exists_mem]
  exact ⟨job, Multiset.mem_add.mpr (.inl (mem_unrecorded.mpr ⟨i, hi⟩))⟩

/-- When the counter is zero, all scheduled jobs have run. -/
theorem done_perm_given (h : p.Account script) (hpending : p.pending = 0) :
    p.done.Perm (p.given script) := by
  have hcard := h.pending_eq
  rw [hpending, Multiset.card_add] at hcard
  have hwaiting : p.waiting = 0 := Multiset.card_eq_zero.mp (by omega)
  have hjobs := h.jobs_eq
  rw [hwaiting, add_zero] at hjobs
  exact Multiset.coe_eq_coe.mp hjobs

end Account

end Pool

end RegexLab
