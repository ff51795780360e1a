import RegexLab.Proofs.Workers.Progress
import RegexLab.Proofs.Workers.Turns

/-!
# The outcome of a script

Whatever order the steps are taken in, a wait and a join leave the same jobs done, and the jobs of
a tag have run in the same order. Nothing gets stuck unless the script waits for a job that is given
after a join, when no worker is left to run it.
-/

namespace RegexLab

namespace Pool

section Runs

variable {Tag : Type} {n : Nat} {p q : Pool Tag n} {last : Bool}
  {script passed rest : List (Order Tag)} {jobs : Multiset (Job Tag)} {hn : 0 < n}

/-! ## Jobs after a join -/

theorem allJobs_eq_nil (h : ∀ tag, .schedule tag ∉ script) (number : Nat) :
    allJobs number script = [] := by
  fun_induction allJobs number script with
  | case1 _ tag => exact absurd List.mem_cons_self (h tag)
  | case2 _ _ ih | case3 _ _ ih => exact ih fun tag htag => h tag (List.mem_cons_of_mem _ htag)
  | case4 => rfl

/-- Up to a wait that can return, all jobs are given before the first join. -/
theorem allJobs_prefix_firstJobs
    (h : ∀ tag, ¬ [.join, .schedule tag, .wait].Sublist (passed ++ .wait :: rest)) (number : Nat) :
    allJobs number passed <+: firstJobs number (passed ++ .wait :: rest) := by
  induction passed generalizing number with
  | nil => exact List.nil_prefix
  | cons order passed ih =>
    have htail : ∀ tag, ¬ [.join, .schedule tag, .wait].Sublist (passed ++ .wait :: rest) :=
      fun tag hsub => h tag (hsub.cons order)
    cases order with
    | schedule tag => exact (List.prefix_cons_inj _).mpr (ih htail (number + 1))
    | wait => exact ih htail number
    | join =>
      have hnone : ∀ tag, .schedule tag ∉ passed := by
        intro tag htag
        have hsub := (List.singleton_sublist.mpr htag).append
          (List.singleton_sublist.mpr (List.mem_cons_self (a := .wait) (l := rest)))
        exact h tag (hsub.cons_cons .join)
      rw [allJobs, allJobs_eq_nil hnone]
      exact List.nil_prefix

/-- Nothing is pending where a wait can return and all workers are gone. -/
theorem Settled.pending_eq (h : p.Settled (firstJobs 0 script : List (Job Tag)))
    (hp : p.Account script) (hscript : p.script = .wait :: rest)
    (hwait : ∀ tag, ¬ [.join, .schedule tag, .wait].Sublist script) : p.pending = 0 := by
  obtain ⟨passed, hpassed, hscheduled⟩ := hp.passed
  have hgiven := given_eq hpassed hscheduled
  rw [hpassed, hscript] at hwait
  have hle := (allJobs_prefix_firstJobs hwait 0).length_le
  have hjobs := congrArg Multiset.card hp.jobs_eq
  have hfirst := congrArg Multiset.card h.jobs_eq
  have hunrecorded : p.unrecorded = 0 :=
    Finset.sum_eq_zero fun i _ => by simp [h.gone i, Worker.unrecorded]
  rw [← hscript, ← hpassed] at hle
  rw [hgiven] at hjobs
  simp only [Multiset.card_add, Multiset.coe_card] at hjobs hfirst
  rw [hp.pending_eq, hunrecorded, Multiset.card_add, Multiset.card_zero]
  omega

variable [BEq Tag]

/-- If jobs are pending, none of which the owner has, some worker can take a step. -/
theorem Account.exists_step (h : p.Account script) (hheld : p.owner.held = [])
    (hpending : p.pending ≠ 0) (hgone : ∀ i, p.workers.get i ≠ .gone) : ∃ q, p.Step q := by
  obtain ⟨job, hjob⟩ := Multiset.card_pos_iff_exists_mem.mp
    (h.pending_eq ▸ Nat.pos_of_ne_zero hpending)
  obtain ⟨i, hi⟩ : ∃ i, p.workers.get i = .free → p.lanes.lane i ≠ [] := by
    obtain hjob | hjob := Multiset.mem_add.mp hjob
    · obtain ⟨i, hi⟩ := mem_unrecorded.mp hjob
      exact ⟨i, fun hfree => by cases hi.symm.trans hfree⟩
    · rw [waiting, hheld, Multiset.coe_nil, add_zero, shares, Multiset.mem_sum] at hjob
      obtain ⟨i, -, hi⟩ := hjob
      refine ⟨i, fun hfree hlane => ?_⟩
      simp [share, hfree, Worker.held, hlane] at hi
  obtain ⟨q, hq⟩ := exists_workerStep
    (fun hfree hpop => hi hfree (Lanes.pop_eq_wait_iff.mp hpop).2) (hgone i)
  exact ⟨q, .worker i hq⟩

/-- Until the owner is gone somebody can take a step, if no wait comes after a job that is given
after a join. -/
theorem exists_step_of_run (hrun : (ofScript script hn).Run p)
    (hwait : ∀ tag, ¬ [.join, .schedule tag, .wait].Sublist script) (howner : p.owner ≠ .gone) :
    ∃ q, p.Step q := by
  have hphase := (phase_ofScript script hn).of_run hrun
  refine hphase.exists_step (fun hready rest hscript hpending => ?_) howner
  cases hphase with
  | giving h =>
    exact (Account.of_run hrun).exists_step (by rw [hready]; rfl) hpending h.ne_gone
  | draining h =>
    obtain ⟨last, hlast⟩ := h.joining
    cases hready.symm.trans hlast
  | settled h => exact absurd (h.pending_eq (.of_run hrun) hscript hwait) hpending

/-! ## What has run -/

/-- A wait returns when all scheduled jobs have run. -/
theorem done_perm_of_wait (hrun : (ofScript script hn).Run p) (howner : p.owner = .ready)
    (hscript : p.script = .wait :: rest) (hstep : p.ownerStep = some q) :
    q.done.Perm (p.given script) := by
  have hpending : p.pending = 0 := by
    by_contra hne
    simp [ownerStep, howner, hscript, hne] at hstep
  rw [(ownerMoves_of_ownerStep hstep).frame.2]
  exact (Account.of_run hrun).done_perm_given hpending

/-- A join returns when the jobs before the first join have run. -/
theorem done_perm_of_joining (hrun : (ofScript script hn).Run p) (howner : p.owner = .joining last)
    (hstep : p.ownerStep = some q) : q.done.Perm (firstJobs 0 script) := by
  have hsettled : q.Settled (firstJobs 0 script : List (Job Tag)) := by
    cases (phase_ofScript script hn).of_run hrun with
    | giving h => exact absurd h.gives (by simp [howner, Owner.Gives])
    | draining h => exact h.of_ownerMoves (ownerMoves_of_ownerStep hstep)
    | settled h => exact h.of_step (.owner hstep)
  exact Multiset.coe_eq_coe.mp hsettled.jobs_eq

theorem done_subperm_of_run (hrun : (ofScript script hn).Run p) :
    p.done.Subperm (firstJobs 0 script) :=
  Multiset.coe_le.mp ((phase_ofScript script hn).of_run hrun).done_le

/-- The jobs of a tag run in the order in which they were scheduled. -/
theorem filter_done_prefix [LawfulBEq Tag] (hrun : (ofScript script hn).Run p) (tag : Tag) :
    p.done.reverse.filter (·.tag == tag) <+: (firstJobs 0 script).filter (·.tag == tag) := by
  have hgiven : p.done.reverse.filter (·.tag == tag) <+: (p.given script).filter (·.tag == tag) :=
    ⟨p.line tag, (Turns.of_run hrun).turns_eq tag⟩
  have hall := hgiven.trans ((List.take_prefix _ _).filter _)
  have hfirst := (firstJobs_prefix_allJobs 0 script).filter (·.tag == tag)
  have hran : p.done.reverse.Subperm (firstJobs 0 script) :=
    (List.reverse_perm p.done).subperm.trans (done_subperm_of_run hrun)
  exact List.prefix_of_prefix_length_le hall hfirst (hran.filter _).length_le

end Runs

/-- Whatever order the steps are taken in, a script has one outcome. The counter of pending jobs
tells how many scheduled jobs are not recorded, and is not zero when it is lowered. When a wait
returns, the jobs that have run are those scheduled so far; when a join returns, or in the end, they
are those scheduled before the first join. No job runs twice, none that is scheduled after a join
runs at all, and those of a tag run in the order of scheduling. No run goes on for ever, and none
gets stuck unless a wait comes after a job that is scheduled after a join. -/
theorem outcome_of_run {Tag : Type} [DecidableEq Tag] {n : Nat} (hn : 0 < n)
    (script : List (Order Tag)) :
    (∀ p, (ofScript script hn).Run p → ∃ passed, script = passed ++ p.script ∧
      p.pending = ((allJobs 0 passed).filter fun job => ¬ p.Recorded job).length ∧
      (∀ i job, p.workers.get i = .finished job → 0 < p.pending) ∧
      (∀ q rest, p.owner = .ready → p.script = .wait :: rest → p.ownerStep = some q →
        q.done.Perm (allJobs 0 passed)) ∧
      (∀ q last, p.owner = .joining last → p.ownerStep = some q →
        q.done.Perm (firstJobs 0 script)) ∧
      p.done.Nodup ∧ p.done ⊆ firstJobs 0 script ∧
      (∀ tag, p.done.reverse.filter (·.tag == tag) <+:
        (firstJobs 0 script).filter (·.tag == tag)) ∧
      (p.owner = .gone → p.done.Perm (firstJobs 0 script)) ∧
      ((∀ tag, ¬ [.join, .schedule tag, .wait].Sublist script) → p.owner ≠ .gone →
        ∃ q, p.Step q)) ∧
    ∀ run : Nat → Pool Tag n, ¬ ∀ k, (run k).Step (run (k + 1)) := by
  constructor
  · intro p hrun
    have hp : p.Account script := .of_run hrun
    obtain ⟨passed, hpassed, hscheduled⟩ := hp.passed
    have hgiven := given_eq hpassed hscheduled
    refine ⟨passed, hpassed, ?_, fun i job => hp.pending_pos, fun q rest howner hscript hstep => ?_,
      fun q last => done_perm_of_joining hrun, hp.nodup_done, (done_subperm_of_run hrun).subset,
      filter_done_prefix hrun, done_perm_of_run hrun, exists_step_of_run hrun⟩
    · rw [← hgiven]
      exact hp.pending_eq_length
    · rw [← hgiven]
      exact done_perm_of_wait hrun howner hscript hstep
  · intro run hsteps
    obtain ⟨k, hk⟩ := WellFounded.not_rel_apply_succ (r := (· < ·)) fun k => (run k).work
    exact hk (work_lt_of_step (hsteps k))

/-- A wait, a join, and a job that is scheduled after it and stays pending. -/
theorem outcome_of_run_jobAfterJoin :
    ∃ (script : List (Order Nat)) (p q r s e : Pool Nat 2),
      script = [.schedule 7, .schedule 8, .wait, .schedule 7, .join, .schedule 8] ∧
      (ofScript script).Run p ∧ p.ownerStep = some q ∧ q.done.Perm [⟨0, 7⟩, ⟨1, 8⟩] ∧
      (ofScript script).Run r ∧ r.ownerStep = some s ∧
      s.done.Perm [⟨0, 7⟩, ⟨1, 8⟩, ⟨2, 7⟩] ∧
      (ofScript script).Run e ∧ e.owner = .gone ∧ e.done.Perm [⟨0, 7⟩, ⟨1, 8⟩, ⟨2, 7⟩] ∧
      e.pending = 1 ∧ ∃ next, (ofScript script : Pool Nat 2).Step next := by
  obtain ⟨script, hscript⟩ : ∃ script : List (Order Nat), script =
    [.schedule 7, .schedule 8, .wait, .schedule 7, .join, .schedule 8] := ⟨_, rfl⟩
  have hlate : ∀ tag, ¬ [.join, .schedule tag, .wait].Sublist script := by
    simp [hscript, List.sublist_cons_iff]
  -- The owner is about to return from the wait, from the join, and has come to the end.
  obtain ⟨p, hp⟩ : ∃ p : Pool Nat 2, p = drive 12 (ofScript script) := ⟨_, rfl⟩
  obtain ⟨r, hr⟩ : ∃ r : Pool Nat 2, r = drive 22 (ofScript script) := ⟨_, rfl⟩
  obtain ⟨e, he⟩ : ∃ e : Pool Nat 2, e = drive 28 (ofScript script) := ⟨_, rfl⟩
  have hprun : (ofScript script).Run p := hp ▸ run_drive 12 _
  have hrrun : (ofScript script).Run r := hr ▸ run_drive 22 _
  have herun : (ofScript script).Run e := he ▸ run_drive 28 _
  have hall := (outcome_of_run (n := 2) (by decide) script).1
  obtain ⟨passed, hpassed, -, -, hwait, -⟩ := hall p hprun
  obtain ⟨-, -, -, -, -, hjoin, -⟩ := hall r hrrun
  obtain ⟨-, -, -, -, -, -, -, -, -, hend, -⟩ := hall e herun
  obtain ⟨-, -, -, -, -, -, -, -, -, -, hstep⟩ := hall _ .refl
  subst hscript
  obtain ⟨hready, hrest, hq⟩ : p.owner = .ready ∧
      p.script = .wait :: [.schedule 7, .join, .schedule 8] ∧ p.ownerStep.isSome = true := by
    subst hp
    decide +kernel
  obtain ⟨hjoining, hs⟩ : r.owner = .joining false ∧ r.ownerStep.isSome = true := by
    subst hr
    decide +kernel
  obtain ⟨hgone, hpending⟩ : e.owner = .gone ∧ e.pending = 1 := by
    subst he
    decide +kernel
  obtain ⟨q, hq⟩ := Option.isSome_iff_exists.mp hq
  obtain ⟨s, hs⟩ := Option.isSome_iff_exists.mp hs
  have hbefore : [.schedule 7, .schedule 8] ++ p.script = passed ++ p.script := by
    rw [← hpassed, hrest]
    rfl
  obtain rfl := List.append_cancel_right hbefore
  exact ⟨_, p, q, r, s, e, rfl, hprun, hq, hwait q _ hready hrest hq, hrrun, hs,
    hjoin s false hjoining hs, herun, hgone, hend hgone, hpending, hstep hlate (by decide)⟩

end Pool

end RegexLab
