import Mathlib.Computability.Language
import Mathlib.Order.CompletePartialOrder
import RegexLab.Automaton.Basic

/-!
# Paths through an automaton

A path follows edges and spells the bytes that they read. Paths say what an automaton means,
whatever way it is run and however it was put together, so they are stated for any array of states.

## Main definitions

* `Edge` — an edge between two states.
* `Path` — a path between two states, with the word that it spells.
* `Automaton.language` — the words spelled from the entry to an accepting state.
-/

namespace RegexLab

def State.targets (s : State) : List Nat :=
  (s.edge.map (·.2)).toList ++ s.epsilons

def Edge (states : Array State) (i j : Nat) : Prop :=
  ∃ s, states[i]? = some s ∧ j ∈ s.targets

/-- Edges lead from `i` to `j`, and the bytes that they read spell `w`. -/
inductive Path (states : Array State) : Nat → Bytes → Nat → Prop
  | refl (i : Nat) : Path states i [] i
  | silent {i j k : Nat} {w : Bytes} {s : State} :
      states[i]? = some s → j ∈ s.epsilons → Path states j w k → Path states i w k
  | read {i j k : Nat} {c : UInt8} {w : Bytes} {s : State} :
      states[i]? = some s → s.edge = some (c, j) → Path states j w k → Path states i (c :: w) k

def wordsBetween (states : Array State) (i j : Nat) : Language UInt8 :=
  {w | Path states i w j}

def Automaton.language (a : Automaton) : Language UInt8 :=
  {w | ∃ j s, Path a.states a.entry w j ∧ a.states[j]? = some s ∧ s.accept = true}

variable {S T : Array State} {P : Set Nat} {i j k : Nat} {u v w : Bytes}

@[simp] theorem mem_wordsBetween : w ∈ wordsBetween S i j ↔ Path S i w j := Iff.rfl

theorem State.mem_targets {s : State} :
    j ∈ s.targets ↔ (∃ c, s.edge = some (c, j)) ∨ j ∈ s.epsilons := by
  simp [targets]

theorem Edge.silent {s : State} (hs : S[i]? = some s) (hj : j ∈ s.epsilons) : Edge S i j :=
  ⟨s, hs, State.mem_targets.mpr (.inr hj)⟩

theorem Edge.read {s : State} {c : UInt8} (hs : S[i]? = some s) (he : s.edge = some (c, j)) :
    Edge S i j :=
  ⟨s, hs, State.mem_targets.mpr (.inl ⟨c, he⟩)⟩

theorem Edge.lt_size (h : Edge S i j) : i < S.size := by
  obtain ⟨s, hs, -⟩ := h
  exact (Array.getElem?_eq_some_iff.mp hs).1

/-- Whether an edge leaves `i` for `j` is a matter of the state `i` alone. -/
theorem Edge.of_getElem?_eq (h : Edge S i j) (hs : T[i]? = S[i]?) : Edge T i j := by
  obtain ⟨s, hi, hj⟩ := h
  exact ⟨s, hs.trans hi, hj⟩

namespace Path

/-- Paths in a row spell their words in a row. -/
theorem trans (p : Path S i u j) (q : Path S j v k) : Path S i (u ++ v) k := by
  induction p with
  | refl i => exact q
  | silent hs hj _ ih => exact .silent hs hj (ih q)
  | read hs he _ ih => exact .read hs he (ih q)

/-- A path that reads a byte has an edge that reads it. -/
theorem append_cons_iff {c : UInt8} :
    Path S i (w ++ c :: v) k ↔
      ∃ j s m, Path S i w j ∧ S[j]? = some s ∧ s.edge = some (c, m) ∧ Path S m v k := by
  constructor
  · intro p
    generalize hx : w ++ c :: v = x at p
    induction p generalizing w with
    | refl => simp at hx
    | silent hs hj _ ih =>
      obtain ⟨j', s', m, hp, hs', he, hm⟩ := ih hx
      exact ⟨j', s', m, .silent hs hj hp, hs', he, hm⟩
    | @read i j k d x s hs he rest ih =>
      cases w with
      | nil =>
        obtain ⟨rfl, rfl⟩ : c = d ∧ v = x := by simpa using hx
        exact ⟨i, s, j, .refl i, hs, he, rest⟩
      | cons b w =>
        obtain ⟨rfl, hw⟩ : b = d ∧ w ++ c :: v = x := by simpa using hx
        obtain ⟨j', s', m, hp, hs', he', hm⟩ := ih hw
        exact ⟨j', s', m, .read hs he hp, hs', he', hm⟩
  · rintro ⟨j, s, m, hp, hs, he, hm⟩
    exact hp.trans (.read hs he hm)

/-- From a state without edges nothing else is reached. -/
theorem eq_of_final (hi : ∀ j, ¬ Edge S i j) (p : Path S i w k) : k = i ∧ w = [] := by
  cases p with
  | refl => exact ⟨rfl, rfl⟩
  | silent hs hj _ => exact absurd (Edge.silent hs hj) (hi _)
  | read hs he _ => exact absurd (Edge.read hs he) (hi _)

/-- A set of states that no edge leaves is never left. -/
theorem mem_of_closed (hP : ∀ i ∈ P, ∀ j, Edge S i j → j ∈ P) (hi : i ∈ P) (p : Path S i w k) :
    k ∈ P := by
  induction p with
  | refl => exact hi
  | silent hs hj _ ih => exact ih (hP _ hi _ (.silent hs hj))
  | read hs he _ ih => exact ih (hP _ hi _ (.read hs he))

/-- Paths stay where they are when the states that they pass stay as they are. -/
theorem of_agree (hP : ∀ i ∈ P, ∀ j, Edge S i j → j ∈ P) (hT : ∀ i ∈ P, T[i]? = S[i]?)
    (hi : i ∈ P) : Path T i w k ↔ Path S i w k := by
  constructor
  · intro p
    induction p with
    | refl => exact .refl _
    | silent hs hj _ ih =>
      have hs' := (hT _ hi).symm.trans hs
      exact .silent hs' hj (ih (hP _ hi _ (.silent hs' hj)))
    | read hs he _ ih =>
      have hs' := (hT _ hi).symm.trans hs
      exact .read hs' he (ih (hP _ hi _ (.read hs' he)))
  · intro p
    induction p with
    | refl => exact .refl _
    | silent hs hj _ ih => exact .silent ((hT _ hi).trans hs) hj (ih (hP _ hi _ (.silent hs hj)))
    | read hs he _ ih => exact .read ((hT _ hi).trans hs) he (ih (hP _ hi _ (.read hs he)))

end Path

end RegexLab
