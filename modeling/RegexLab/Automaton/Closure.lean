import RegexLab.Automaton.Basic

/-!
# States reachable without reading

The search keeps a list of states still to be looked at. A state is stamped with the number of the
current step as soon as it enters that list, so it enters once per step, and the stamps of earlier
steps need not be cleared.

## Main definitions

* `Stamps` — the step in which each state was last met.
* `Automaton.sweep` — the search.
* `Automaton.close` — add the states reachable from one state.
* `Automaton.closure` — the states reachable from one state, relays left out.
-/

namespace RegexLab

abbrev Stamps := Array Nat

namespace Stamps

/-- The number of states not met in a step. -/
def unmet (stamps : Stamps) (step : Nat) : Nat :=
  stamps.countP (· != step)

/-- Stamp a state and put it on the list of states to look at, unless it was met already. -/
def visit (step target : Nat) : Stamps × List Nat → Stamps × List Nat
  | (stamps, pending) =>
    if h : target < stamps.size then
      if stamps[target] = step then (stamps, pending)
      else (stamps.set target step, target :: pending)
    else (stamps, pending)

/-- Visit several states such that the first of them is looked at first. -/
def visitAll (step : Nat) (targets : List Nat) (search : Stamps × List Nat) : Stamps × List Nat :=
  targets.foldr (visit step) search

/-- A visit moves a state from those not met to those to look at, or does nothing. -/
theorem unmet_visit (step target : Nat) (search : Stamps × List Nat) :
    (visit step target search).1.unmet step + (visit step target search).2.length
      = search.1.unmet step + search.2.length := by
  obtain ⟨stamps, pending⟩ := search
  by_cases h : target < stamps.size
  · by_cases hs : stamps[target] = step
    · simp [visit, h, hs]
    · have hpos : 0 < Array.countP (· != step) stamps :=
        Array.countP_pos_iff.mpr ⟨stamps[target], by simp, by simpa using hs⟩
      simp [visit, h, hs, unmet, Array.countP_set]
      omega
  · simp [visit, h]

theorem unmet_visitAll (step : Nat) (targets : List Nat) (search : Stamps × List Nat) :
    (visitAll step targets search).1.unmet step + (visitAll step targets search).2.length
      = search.1.unmet step + search.2.length := by
  induction targets with
  | nil => rfl
  | cons t ts ih => exact (unmet_visit step t _).trans ih

end Stamps

namespace Automaton

/-- Look at the pending states, which have their stamps, and at all that they lead to without
reading. Those that are no relays are added to `found`. -/
def sweep (a : Automaton) (step : Nat) (stamps : Stamps) (found : Array Nat) :
    List Nat → Stamps × Array Nat
  | [] => (stamps, found)
  | i :: pending =>
    match a.states[i]? with
    | none => a.sweep step stamps found pending
    | some s =>
      match _h : Stamps.visitAll step s.epsilons (stamps, pending) with
      | (stamps', pending') =>
        a.sweep step stamps' (if s.isRelay then found else found.push i) pending'
termination_by pending => stamps.unmet step + pending.length
decreasing_by
  · simp
  · have hv := Stamps.unmet_visitAll step s.epsilons (stamps, pending)
    rw [_h] at hv
    simp only [List.length_cons] at hv ⊢
    omega

def close (a : Automaton) (step : Nat) (stamps : Stamps) (found : Array Nat) (i : Nat) :
    Stamps × Array Nat :=
  match Stamps.visit step i (stamps, []) with
  | (stamps, pending) => a.sweep step stamps found pending

def freshStamps (a : Automaton) : Stamps :=
  Array.replicate a.size 0

/-- The states reachable from a state without reading, itself included and relays left out, in the
order in which they are met. A state that does not exist reaches nothing. -/
def closure (a : Automaton) (i : Nat) : Array Nat :=
  (a.close 1 a.freshStamps #[] i).2

end Automaton

end RegexLab
