import RegexLab.Proofs.Workers.Account

/-!
# The jobs of a tag run in turn

All jobs of a tag go to one worker, whose lane keeps them in order. So for each tag, the jobs that
have run, those that its worker has, and the one that the owner is about to give are together the
jobs of the tag in the order in which they were scheduled.

## Main definitions

* `Pool.line` — the jobs of a tag that are still to run, in the order in which they will.
* `Pool.Turns` — the order of the jobs of each tag.
-/

namespace RegexLab

namespace Pool

variable {Tag : Type} {n : Nat} [BEq Tag] {p q : Pool Tag n} {i j : Fin n} {job : Job Tag}
  {tag : Tag} {script : List (Order Tag)}

/-- The jobs of a tag that have been scheduled and have not run, in the order in which they will. -/
def line (p : Pool Tag n) (tag : Tag) : List (Job Tag) :=
  ((p.lanes.binding? tag).elim [] p.share ++ p.owner.held).filter (·.tag == tag)

/-- The jobs of a tag that have run and those that wait are, in this order, those that have been
scheduled. -/
structure Turns (script : List (Order Tag)) (p : Pool Tag n) : Prop where
  bound : ∀ i, ∀ job ∈ p.share i, p.lanes.binding? job.tag = some i
  found : ∀ worker job, p.owner = .bound worker job → p.lanes.binding? job.tag = some worker
  turns_eq : ∀ tag, p.done.reverse.filter (·.tag == tag) ++ p.line tag =
    (p.given script).filter (·.tag == tag)

/-! ## Steps of workers -/

theorem WorkerMoves.binding?_eq (h : p.WorkerMoves i q) (tag : Tag) :
    q.lanes.binding? tag = p.lanes.binding? tag := by
  cases h with
  | take hworker hpop =>
    obtain ⟨-, -, -, -, hbindings, -⟩ := Lanes.pop_eq_job hpop
    rw [Lanes.binding?, Lanes.binding?, hbindings]
  | leave | run | record => rfl

omit [BEq Tag] in
/-- A worker leaves its jobs as they are, or runs the first of them. -/
theorem WorkerMoves.share_cases (h : p.WorkerMoves i q) :
    (q.done = p.done ∧ q.share i = p.share i) ∨
    ∃ job, q.done = job :: p.done ∧ p.share i = job :: q.share i := by
  cases h with
  | take hworker hpop =>
    obtain ⟨rest, hlane, hself, -⟩ := Lanes.pop_eq_job hpop
    exact .inl ⟨rfl, by simp [share, hworker, Worker.held, hlane, hself]⟩
  | leave hworker | record hworker => exact .inl ⟨rfl, by simp [share, hworker, Worker.held]⟩
  | @run job hworker => exact .inr ⟨job, rfl, by simp [share, hworker, Worker.held]⟩

omit [BEq Tag] in
theorem WorkerMoves.share_subset (h : p.WorkerMoves i q) (j : Fin n) : q.share j ⊆ p.share j := by
  by_cases hj : j = i
  · subst hj
    obtain ⟨-, hshare⟩ | ⟨job, -, hshare⟩ := h.share_cases
    · rw [hshare]
      exact List.Subset.refl _
    · rw [hshare]
      exact List.subset_cons_self _ _
  · rw [h.share_of_ne hj]
    exact List.Subset.refl _

omit [BEq Tag] in
/-- If a tag does not belong to a worker, the jobs of the worker do not matter. -/
theorem elim_congr {worker : Option (Fin n)} {f g : Fin n → List (Job Tag)} (hi : worker ≠ some i)
    (h : ∀ j, j ≠ i → f j = g j) : worker.elim [] f = worker.elim [] g := by
  cases worker with
  | none => rfl
  | some j => exact h j fun hj => hi (congrArg some hj)

namespace Turns

theorem ofScript (script : List (Order Tag)) (hn : 0 < n) :
    (Pool.ofScript script hn).Turns script where
  bound i job hjob := by simp [share, Worker.held] at hjob
  found worker job howner := by cases howner
  turns_eq tag := rfl

variable [LawfulBEq Tag]

/-- Only the worker that a tag is bound to has jobs of the tag. -/
theorem filter_share (h : p.Turns script) (hi : p.lanes.binding? tag ≠ some i) :
    (p.share i).filter (·.tag == tag) = [] := by
  refine List.filter_eq_nil_iff.mpr fun job hjob htag => ?_
  obtain rfl : job.tag = tag := beq_iff_eq.mp htag
  exact hi (h.bound i job hjob)

/-- The job that a worker runs is the first in the line of its tag. -/
theorem line_of_run (h : p.Turns script) (hstep : p.WorkerMoves i q)
    (hshare : p.share i = job :: q.share i) (tag : Tag) :
    p.line tag = [job].filter (·.tag == tag) ++ q.line tag := by
  rw [line, line, hstep.binding?_eq, hstep.frame.1]
  by_cases hi : p.lanes.binding? tag = some i
  · rw [hi, Option.elim_some, Option.elim_some, hshare, ← List.filter_append]
    rfl
  · have hjob : [job].filter (·.tag == tag) = [] := by
      refine List.filter_eq_nil_iff.mpr fun job' hjob' => ?_
      obtain rfl := List.mem_singleton.mp hjob'
      exact List.filter_eq_nil_iff.mp (h.filter_share hi) job' (by simp [hshare])
    rw [hjob, elim_congr hi fun j hj => hstep.share_of_ne hj, List.nil_append]

theorem of_workerMoves (h : p.Turns script) (hstep : p.WorkerMoves i q) : q.Turns script := by
  obtain ⟨howner, -, hscheduled, -⟩ := hstep.frame
  refine ⟨fun j job hjob => ?_, fun worker job hworker => ?_, fun tag => ?_⟩
  · rw [hstep.binding?_eq]
    exact h.bound j job (hstep.share_subset j hjob)
  · rw [hstep.binding?_eq]
    exact h.found worker job (howner ▸ hworker)
  · rw [given, hscheduled]
    obtain ⟨hdone, hshare⟩ | ⟨job, hdone, hshare⟩ := hstep.share_cases
    · have hsame : ∀ j, q.share j = p.share j := by
        intro j
        by_cases hj : j = i
        · rw [hj, hshare]
        · exact hstep.share_of_ne hj
      rw [hdone, line, hstep.binding?_eq, howner, funext hsame]
      exact h.turns_eq tag
    · rw [hdone, List.reverse_cons, List.filter_append, List.append_assoc,
        ← h.line_of_run hstep hshare]
      exact h.turns_eq tag

/-! ### Steps of the owner -/

/-- Finding the lane of a job changes no line. -/
theorem line_find (h : p.Turns script) (howner : p.owner = .counted job) (tag : Tag) :
    line { p with
      lanes := (p.lanes.bind job.tag).2, owner := .bound (p.lanes.bind job.tag).1 job } tag =
      p.line tag := by
  have hshare : ∀ owner i,
      share { p with lanes := (p.lanes.bind job.tag).2, owner } i = p.share i :=
    fun owner i => by simp [share]
  rw [line, line, howner, List.filter_append, List.filter_append]
  congr 1
  by_cases htag : tag = job.tag
  · subst htag
    simp only [Lanes.binding?_bind_self, Option.elim_some, hshare]
    cases hb : p.lanes.binding? job.tag with
    | none => exact h.filter_share (by simp [hb])
    | some worker => rw [Lanes.bind_of_bound hb, Option.elim_some]
  · simp only [Lanes.binding?_bind_of_ne htag]
    rw [funext (hshare _)]

/-- The job that is given comes last in the line of its tag, as it did before. -/
theorem line_give {worker : Fin n} (h : p.Turns script) (howner : p.owner = .bound worker job)
    (tag : Tag) :
    line { p with lanes := p.lanes.append worker job, owner := .ready } tag = p.line tag := by
  have hjob := h.found worker job howner
  rw [line, line, howner]
  simp only [Lanes.binding?_append, Owner.held, List.append_nil]
  by_cases hi : p.lanes.binding? tag = some worker
  · rw [hi, Option.elim_some, Option.elim_some, share_give_self]
  · have hne : (job.tag == tag) = false := beq_false_of_ne fun heq => hi (heq ▸ hjob)
    rw [elim_congr hi fun j hj => share_give_of_ne p hj job .ready, List.filter_append]
    simp [hne]

theorem of_ownerMoves (h : p.Turns script) (hp : p.Account script) (hstep : p.OwnerMoves q) :
    q.Turns script := by
  cases hstep with
  | @count tag rest howner hscript =>
    refine ⟨h.bound, by simp, fun tag' => ?_⟩
    have hgiven : given { p with
        owner := .counted ⟨p.scheduled, tag⟩, script := rest
        scheduled := p.scheduled + 1, pending := p.pending + 1 } script =
        p.given script ++ allJobs p.scheduled [.schedule tag] := hp.given_append hscript rfl
    rw [hgiven, List.filter_append, ← h.turns_eq, line, line, howner]
    simp only [Owner.held, allJobs, List.filter_append, List.append_nil, List.append_assoc]
    rfl
  | wait howner => exact ⟨h.bound, h.found, h.turns_eq⟩
  | join howner | finish howner | joined howner | finished howner =>
    refine ⟨h.bound, by simp, fun tag => ?_⟩
    have hturns := h.turns_eq tag
    rw [line, howner] at hturns
    exact hturns
  | @find job howner =>
    refine ⟨fun i job' hjob' => ?_, ?_, fun tag => ?_⟩
    · exact Lanes.binding?_bind_of_bound _ (h.bound i job' (by simpa [share] using hjob'))
    · rintro worker job' howner'
      obtain ⟨rfl, rfl⟩ := Owner.bound.inj howner'
      exact Lanes.binding?_bind_self _ _
    · rw [h.line_find howner]
      exact h.turns_eq tag
  | @give worker job howner =>
    refine ⟨fun i job' hjob' => ?_, by simp, fun tag => ?_⟩
    · by_cases hi : i = worker
      · subst hi
        rw [share_give_self] at hjob'
        obtain hjob' | hjob' := List.mem_append.mp hjob'
        · exact h.bound i job' hjob'
        · obtain rfl := List.mem_singleton.mp hjob'
          exact h.found i job' howner
      · rw [share_give_of_ne p hi] at hjob'
        exact h.bound i job' hjob'
    · rw [h.line_give howner]
      exact h.turns_eq tag

theorem of_run {hn : 0 < n} (hrun : (Pool.ofScript script hn).Run p) : p.Turns script := by
  induction hrun with
  | refl => exact .ofScript script hn
  | tail hrun hstep ih =>
    cases hstep with
    | owner hstep => exact ih.of_ownerMoves (.of_run hrun) (ownerMoves_of_ownerStep hstep)
    | worker i hstep => exact ih.of_workerMoves (workerMoves_of_workerStep hstep)

end Turns

end Pool

end RegexLab
