import Mathlib.Data.List.Basic
import RegexLab.Workers.Lanes

/-!
# What is delivered

Jobs are given and taken in any order, and the lanes may be closed at any time. Tags are bound to
the workers in turn, in the order in which they are first used, and stay bound. What a worker has
taken so far, followed by what is in its lane, is what was given under its tags, in that order.

## Main definitions

* `LaneEvent` — a job is given, the lanes are closed, or a worker asks for a job.
* `Lanes.Step`, `Lanes.Run` — one event, and several in a row.
* `LaneEvent.tags`, `LaneEvent.taken`, `Lanes.given` — what a history says about tags and jobs.
* `Lanes.Delivers` — the invariant: the lanes agree with their history.
-/

namespace RegexLab

inductive LaneEvent (Tag Job : Type) (n : Nat) where
  | push (tag : Tag) (job : Job)
  | close
  /-- A worker asks for a job and gets one. -/
  | take (worker : Fin n) (job : Job)
  /-- A worker asks for a job and is told that there is none left. -/
  | leave (worker : Fin n)

variable {Tag Job : Type} {n : Nat}

namespace LaneEvent

def tags (events : List (LaneEvent Tag Job n)) : List Tag :=
  events.filterMap fun
    | push tag _ => some tag
    | _ => none

def taken (worker : Fin n) (events : List (LaneEvent Tag Job n)) : List Job :=
  events.filterMap fun
    | take w job => if w = worker then some job else none
    | _ => none

@[simp] theorem tags_append (events more : List (LaneEvent Tag Job n)) :
    tags (events ++ more) = tags events ++ tags more :=
  List.filterMap_append

@[simp] theorem taken_append (v : Fin n) (events more : List (LaneEvent Tag Job n)) :
    taken v (events ++ more) = taken v events ++ taken v more :=
  List.filterMap_append

end LaneEvent

namespace Lanes

/-- The effect of an event. A worker that finds its lane empty while the lanes are open has to
wait, so that nothing happens. -/
inductive Step [BEq Tag] : Lanes Tag Job n → LaneEvent Tag Job n → Lanes Tag Job n → Prop
  | push (q : Lanes Tag Job n) (tag : Tag) (job : Job) : Step q (.push tag job) (q.push tag job)
  | close (q : Lanes Tag Job n) : Step q .close q.close
  | take {q q' : Lanes Tag Job n} {worker : Fin n} {job : Job} :
      q.pop worker = .job job q' → Step q (.take worker job) q'
  | leave {q : Lanes Tag Job n} {worker : Fin n} :
      q.pop worker = .drained → Step q (.leave worker) q

inductive Run [BEq Tag] : Lanes Tag Job n → List (LaneEvent Tag Job n) → Lanes Tag Job n → Prop
  | nil (q : Lanes Tag Job n) : Run q [] q
  | cons {q q' q'' : Lanes Tag Job n} {e : LaneEvent Tag Job n} {es : List (LaneEvent Tag Job n)} :
      Step q e q' → Run q' es q'' → Run q (e :: es) q''

def given [BEq Tag] (q : Lanes Tag Job n) (worker : Fin n) (events : List (LaneEvent Tag Job n)) :
    List Job :=
  events.filterMap fun
    | .push tag job => if q.binding? tag = some worker then some job else none
    | _ => none

variable [BEq Tag] {q q' : Lanes Tag Job n} {tag tag' : Tag} {job : Job} {v w : Fin n}
  {e : LaneEvent Tag Job n} {events more : List (LaneEvent Tag Job n)} {rest : List Job}

/-! ## Histories -/

@[simp] theorem given_append (q : Lanes Tag Job n) (v : Fin n)
    (events more : List (LaneEvent Tag Job n)) :
    q.given v (events ++ more) = q.given v events ++ q.given v more :=
  List.filterMap_append

theorem given_push (q : Lanes Tag Job n) (v : Fin n) (tag : Tag) (job : Job) :
    q.given v [.push tag job] = if q.binding? tag = some v then [job] else [] := by
  by_cases h : q.binding? tag = some v <;> simp [given, h]

/-- Only the bindings of the tags that were used matter. -/
theorem given_congr (h : ∀ tag ∈ LaneEvent.tags events, q'.binding? tag = q.binding? tag)
    (v : Fin n) : q'.given v events = q.given v events := by
  refine List.filterMap_congr fun e he => ?_
  cases e with
  | push tag job =>
    have htag : tag ∈ LaneEvent.tags events := List.mem_filterMap.mpr ⟨_, he, rfl⟩
    simp only [h tag htag]
  | close | take v job | leave v => rfl

/-! ## Dealing out the tags -/

/-- The distinct ones among the tags are bound to the workers in turn, and no others are bound. -/
structure Dealt (q : Lanes Tag Job n) (tags : List Tag) : Prop where
  next : (q.next : Nat) = tags.eraseDups.length % n
  bound : ∀ (k : Nat) (tag : Tag), tags.eraseDups[k]? = some tag →
    ∃ w, q.binding? tag = some w ∧ (w : Nat) = k % n
  unbound : ∀ tag, tag ∉ tags → q.binding? tag = none

namespace Dealt

variable {tags : List Tag}

theorem of_eq (h : q.Dealt tags) (hbindings : q'.bindings = q.bindings) (hnext : q'.next = q.next) :
    q'.Dealt tags where
  next := by rw [hnext, h.next]
  bound := by simpa [binding?, hbindings] using h.bound
  unbound := by simpa [binding?, hbindings] using h.unbound

variable [LawfulBEq Tag]

theorem exists_binding (h : q.Dealt tags) (htag : tag ∈ tags) : ∃ w, q.binding? tag = some w := by
  obtain ⟨k, hk⟩ := List.mem_iff_getElem?.mp (List.mem_eraseDups.mpr htag)
  obtain ⟨w, hw, -⟩ := h.bound k tag hk
  exact ⟨w, hw⟩

theorem bind (h : q.Dealt tags) (tag : Tag) : (q.bind tag).2.Dealt (tags ++ [tag]) := by
  by_cases htag : tag ∈ tags
  · obtain ⟨w, hw⟩ := h.exists_binding htag
    have hdistinct : (tags ++ [tag]).eraseDups = tags.eraseDups := by
      simp [List.eraseDups_append, List.removeAll, htag]
    rw [bind_of_bound hw]
    exact ⟨by rw [hdistinct, h.next], by rw [hdistinct]; exact h.bound,
      fun tag' htag' => h.unbound tag' fun hmem => htag' (List.mem_append_left _ hmem)⟩
  · have hdistinct : (tags ++ [tag]).eraseDups = tags.eraseDups ++ [tag] := by
      simp [List.eraseDups_append, List.removeAll, htag, List.eraseDups_cons]
    have hworker : (q.bind tag).1 = q.next := by rw [bind_of_unbound (h.unbound tag htag)]
    refine ⟨?_, fun k tag' hk => ?_, fun tag' htag' => ?_⟩
    · rw [bind_of_unbound (h.unbound tag htag), hdistinct]
      simp [h.next]
    · rw [hdistinct, List.getElem?_append] at hk
      split at hk
      next hlt =>
        obtain ⟨w, hw, hmod⟩ := h.bound k tag' hk
        exact ⟨w, binding?_bind_of_bound tag hw, hmod⟩
      next hle =>
        obtain ⟨hzero, rfl⟩ : k - tags.eraseDups.length = 0 ∧ tag = tag' := by
          simpa [List.getElem?_singleton] using hk
        obtain rfl : k = tags.eraseDups.length := by omega
        exact ⟨_, binding?_bind_self q tag, by rw [hworker, h.next]⟩
    · have hne : tag' ≠ tag := fun heq => htag' (by simp [heq])
      rw [binding?_bind_of_ne hne]
      exact h.unbound tag' fun hmem => htag' (List.mem_append_left _ hmem)

end Dealt

/-! ## The invariant -/

/-- The lanes agree with their history: the tags are dealt out, and each worker has taken, or will
take, what was given under its tags. -/
structure Delivers (q : Lanes Tag Job n) (events : List (LaneEvent Tag Job n)) : Prop where
  dealt : q.Dealt (LaneEvent.tags events)
  served : ∀ v, LaneEvent.taken v events ++ q.lane v = q.given v events
  closed : q.closed = true ↔ .close ∈ events

namespace Delivers

theorem init (hn : 0 < n) : (empty hn : Lanes Tag Job n).Delivers [] where
  dealt := ⟨by simp [empty, LaneEvent.tags], by simp [LaneEvent.tags], by simp [empty, binding?]⟩
  served := by simp [LaneEvent.taken, given]
  closed := by simp [empty]

/-- An event that gives no job and leaves the bindings alone only moves jobs from lanes to workers. -/
theorem of_served (h : q.Delivers events) (he : LaneEvent.tags [e] = [])
    (hbindings : q'.bindings = q.bindings) (hnext : q'.next = q.next)
    (hlane : ∀ v, LaneEvent.taken v [e] ++ q'.lane v = q.lane v)
    (hclosed : q'.closed = true ↔ q.closed = true ∨ .close = e) :
    q'.Delivers (events ++ [e]) where
  dealt := by
    rw [LaneEvent.tags_append, he, List.append_nil]
    exact h.dealt.of_eq hbindings hnext
  served v := by
    have hkept : ∀ tag, q'.binding? tag = q.binding? tag := by simp [binding?, hbindings]
    have hnone : q'.given v [e] = [] := by
      cases e with
      | push tag job => cases he
      | close | take w job | leave w => rfl
    rw [given_append, given_congr fun tag _ => hkept tag, hnone, List.append_nil, ← h.served v,
      LaneEvent.taken_append, List.append_assoc, hlane]
  closed := by rw [hclosed, h.closed, List.mem_append, List.mem_singleton]

variable [LawfulBEq Tag]

theorem push (h : q.Delivers events) (tag : Tag) (job : Job) :
    (q.push tag job).Delivers (events ++ [.push tag job]) where
  dealt := by
    have hbind := h.dealt.bind tag
    rw [LaneEvent.tags_append]
    exact hbind.of_eq rfl rfl
  served v := by
    have hkept : ∀ tag' ∈ LaneEvent.tags events,
        (q.push tag job).binding? tag' = q.binding? tag' := by
      intro tag' htag'
      obtain ⟨w, hw⟩ := h.dealt.exists_binding htag'
      rw [hw]
      exact binding?_bind_of_bound tag hw
    have hself : (q.push tag job).binding? tag = some (q.bind tag).1 := binding?_bind_self q tag
    rw [given_append, given_congr hkept, given_push, hself, lane_push, ← h.served v]
    simp [LaneEvent.taken]
  closed := by
    have hclosed : (q.push tag job).closed = q.closed := closed_bind q tag
    rw [hclosed, h.closed]
    simp

theorem step (h : q.Delivers events) (hstep : q.Step e q') : q'.Delivers (events ++ [e]) := by
  cases hstep with
  | push tag job => exact h.push tag job
  | close => exact h.of_served rfl rfl rfl (fun _ => rfl) (by simp [Lanes.close])
  | @take _ worker job hpop =>
    obtain ⟨rest, hhead, hself, hothers, hbindings, hnext, hclosed⟩ := pop_eq_job hpop
    refine h.of_served rfl hbindings hnext (fun v => ?_) (by simp [hclosed])
    by_cases hv : v = worker
    · subst hv
      simp [LaneEvent.taken, hself, hhead]
    · simp [LaneEvent.taken, hothers v hv, Ne.symm hv]
  | leave hpop => exact h.of_served rfl rfl rfl (fun _ => rfl) (by simp)

theorem run (h : q.Delivers events) (hrun : q.Run more q') : q'.Delivers (events ++ more) := by
  induction hrun generalizing events with
  | nil q => simpa using h
  | cons hstep _ ih => simpa using ih (h.step hstep)

end Delivers

/-- A tag that is bound stays bound, whatever happens. -/
theorem Run.binding?_eq [LawfulBEq Tag] (hrun : q.Run events q') (h : q.binding? tag = some w) :
    q'.binding? tag = some w := by
  induction hrun with
  | nil q => exact h
  | cons hstep _ ih =>
    refine ih ?_
    cases hstep with
    | push tag' job => exact binding?_bind_of_bound tag' h
    | close | leave hpop => exact h
    | take hpop =>
      obtain ⟨-, -, -, -, hbindings, -, -⟩ := pop_eq_job hpop
      rwa [binding?, hbindings]

/-- After any history the distinct tags are bound in turn, in the order in which they were first
used, and they stay bound. What a worker has taken, followed by what is in its lane, is what was
given under its tags, in that order. A worker is told that no job is left only if the lanes are
closed and its own is empty, and as long as there is one it gets the next job, closed or not. -/
theorem taken_append_lane [LawfulBEq Tag] (hn : 0 < n) (hrun : Run (.empty hn) events q) :
    (∀ (k : Nat) (tag : Tag), (LaneEvent.tags events).eraseDups[k]? = some tag →
      ∃ w, q.binding? tag = some w ∧ (w : Nat) = k % n) ∧
    (∀ tag w more q', q.Run more q' → q.binding? tag = some w → q'.binding? tag = some w) ∧
    (∀ v, LaneEvent.taken v events ++ q.lane v = q.given v events) ∧
    (∀ v q', q.Step (.leave v) q' ↔ q' = q ∧ .close ∈ events ∧ q.lane v = []) ∧
    ∀ v job rest, q.lane v = job :: rest → ∃ q', q.Step (.take v job) q' ∧ q'.lane v = rest := by
  have h : q.Delivers ([] ++ events) := (Delivers.init hn).run hrun
  rw [List.nil_append] at h
  refine ⟨h.dealt.bound, fun tag w more q' hmore hw => hmore.binding?_eq hw, h.served,
    fun v q' => ?_, fun v job rest hlane => ?_⟩
  · rw [← h.closed, ← pop_eq_drained_iff]
    constructor
    · intro hstep
      cases hstep with
      | leave hpop => exact ⟨rfl, hpop⟩
    · rintro ⟨rfl, hpop⟩
      exact .leave hpop
  · have hpop := pop_of_lane_eq_cons hlane
    obtain ⟨rest', hlane', hself, -⟩ := pop_eq_job hpop
    obtain rfl := (List.cons.inj (hlane.symm.trans hlane')).2
    exact ⟨_, .take hpop, hself⟩

/-- Three tags for two workers; the last job is given after the close. -/
theorem taken_append_lane_afterClose :
    ∃ q : Lanes Nat Nat 2, Run (.empty (by decide)) [.push 7 0, .push 8 1, .push 7 2, .close,
        .take 0 0, .push 9 3, .take 0 2, .take 0 3, .leave 0] q ∧
      (∃ w, q.binding? 9 = some w ∧ (w : Nat) = 2 % 2) ∧
      [0, 2, 3] ++ q.lane 0 = q.given 0 [.push 7 0, .push 8 1, .push 7 2, .close,
        .take 0 0, .push 9 3, .take 0 2, .take 0 3, .leave 0] := by
  obtain ⟨q, hrun⟩ : ∃ q : Lanes Nat Nat 2, Run (.empty (by decide)) [.push 7 0, .push 8 1,
      .push 7 2, .close, .take 0 0, .push 9 3, .take 0 2, .take 0 3, .leave 0] q :=
    ⟨_, .cons (.push _ 7 0) <| .cons (.push _ 8 1) <| .cons (.push _ 7 2) <| .cons (.close _) <|
      .cons (.take rfl) <| .cons (.push _ 9 3) <| .cons (.take rfl) <| .cons (.take rfl) <|
      .cons (.leave rfl) <| .nil _⟩
  obtain ⟨hbound, -, hserved, -⟩ := taken_append_lane (by decide) hrun
  exact ⟨q, hrun, hbound 2 9 rfl, hserved 0⟩

end Lanes

end RegexLab
