import RegexLab.Automaton.Simulation
import RegexLab.Proofs.Automaton.Search

/-!
# Running an automaton decides its language

After some bytes the active states are those that stand at the end of a path spelling these bytes.
Nothing is asked of the automaton: edges may form cycles or lead nowhere, a state may read a byte
and also go on without reading, and any number of states may accept.

## Main definitions

* `Automaton.Reads` — an edge that reads a byte.
* `Frontier.partway` — a step in which some of the active states have been handled.
* `Frontier.Tracks` — the invariant of a run.
-/

namespace RegexLab

variable {a : Automaton} {f : Frontier} {c : UInt8} {step i j : Nat} {w : Bytes}

/-! ## One byte -/

def Automaton.Reads (a : Automaton) (c : UInt8) (i j : Nat) : Prop :=
  ∃ s, a.states[i]? = some s ∧ s.edge = some (c, j)

/-- A state that reads is no relay. -/
theorem Automaton.Reads.stands (h : a.Reads c i j) : a.Stands i := by
  obtain ⟨s, hs, he⟩ := h
  exact ⟨s, hs, by simp [State.isRelay, he]⟩

/-- A state that accepts is no relay. -/
theorem Automaton.stands_of_accept {s : State} (hs : a.states[i]? = some s)
    (haccept : s.accept = true) : a.Stands i :=
  ⟨s, hs, by simp [State.isRelay, haccept]⟩

namespace Search

variable {sources : Set Nat} {reached : Stamps × Array Nat}

/-- Where a state goes by reading `c` becomes a source. -/
theorem follow (h : Search a step sources reached.1 reached.2 []) :
    Search a step (sources ∪ {j | a.Reads c i j}) (a.follow c step reached i).1
      (a.follow c step reached i).2 [] := by
  unfold Automaton.follow
  split
  · next s accept d target epsilons hs =>
    by_cases hd : d = c
    · have hreads : {j | a.Reads c i j} = {target} := by
        ext j
        simp [Automaton.Reads, hs, hd, eq_comm]
      rw [if_pos hd, hreads, Set.union_singleton]
      exact h.close
    · have hreads : {j | a.Reads c i j} = ∅ := by
        ext j
        simp [Automaton.Reads, hs, hd]
      rwa [if_neg hd, hreads, Set.union_empty]
  · next hs =>
    have hreads : {j | a.Reads c i j} = ∅ := by
      ext j
      rw [Set.mem_ofPred_eq, Set.mem_empty_iff_false, iff_false]
      rintro ⟨s, hi, he⟩
      obtain ⟨accept, edge, epsilons⟩ := s
      obtain rfl : edge = some (c, j) := he
      exact hs accept c j epsilons hi
    rwa [hreads, Set.union_empty]

/-- Where several states go by reading `c` become sources. -/
theorem followAll (c : UInt8) (l : List Nat) (reached : Stamps × Array Nat)
    (h : Search a step sources reached.1 reached.2 []) :
    Search a step (sources ∪ {j | ∃ i ∈ l, a.Reads c i j}) (l.foldl (a.follow c step) reached).1
      (l.foldl (a.follow c step) reached).2 [] := by
  induction l generalizing sources reached with
  | nil => simpa using h
  | cons i l ih =>
    have hsources : sources ∪ {j | ∃ k ∈ i :: l, a.Reads c k j} =
        sources ∪ {j | a.Reads c i j} ∪ {j | ∃ k ∈ l, a.Reads c k j} := by
      ext j
      simp [or_assoc]
    rw [hsources]
    exact ih _ h.follow

end Search

/-! ## The frontier -/

/-- How far the step that reads `c` has come when the states in `l` have been handled. -/
def Frontier.partway (a : Automaton) (f : Frontier) (c : UInt8) (l : List Nat) :
    Stamps × Array Nat :=
  l.foldl (a.follow c (f.step + 1)) (f.stamps, #[])

/-- The step is over when all active states have been handled. -/
theorem Frontier.advance_eq (a : Automaton) (f : Frontier) (c : UInt8) :
    f.advance a c =
      { active := (f.partway a c f.active.toList).2
        stamps := (f.partway a c f.active.toList).1
        step := f.step + 1 } := by
  unfold Frontier.partway
  rw [Array.foldl_toList]
  rfl

/-- The frontier holds the states that the automaton can be in after `w`, relays left out. -/
structure Frontier.Tracks (a : Automaton) (f : Frontier) (w : Bytes) : Prop where
  size_eq : f.stamps.size = a.size
  stamp_le : ∀ i n : Nat, f.stamps[i]? = some n → n ≤ f.step
  nodup : f.active.toList.Nodup
  mem_active : ∀ i, i ∈ f.active ↔ a.Stands i ∧ Path a.states a.entry w i

namespace Frontier.Tracks

theorem frontier (a : Automaton) : a.frontier.Tracks a [] := by
  have hsearch := (Search.fresh a).close (i := a.entry)
  refine ⟨hsearch.size_eq, hsearch.stamp_le, hsearch.found_nodup, fun i => ?_⟩
  refine hsearch.mem_found_iff.trans ?_
  simp

/-- Stamps of earlier steps hide nothing: the next step has a number of its own. So what was met in
that step when the states in `l` have been handled is what they lead to. -/
theorem search (h : f.Tracks a w) (c : UInt8) (l : List Nat) :
    Search a (f.step + 1) {j | ∃ i ∈ l, a.Reads c i j} (f.partway a c l).1 (f.partway a c l).2
      [] := by
  have hstart : Search a (f.step + 1) ∅ f.stamps #[] [] :=
    Search.start h.size_eq fun i n hn => Nat.lt_succ_of_le (h.stamp_le i n hn)
  have hsearch := hstart.followAll c l (f.stamps, #[])
  rwa [Set.empty_union] at hsearch

/-- A path that reads one more byte leaves one of the active states by it. -/
theorem path_concat_iff (h : f.Tracks a w) : Path a.states a.entry (w ++ [c]) i ↔
    ∃ j, (∃ k ∈ f.active.toList, a.Reads c k j) ∧ Path a.states j [] i := by
  rw [Path.append_cons_iff]
  constructor
  · rintro ⟨k, s, j, hpath, hs, he, p⟩
    have hreads : a.Reads c k j := ⟨s, hs, he⟩
    have hk := (h.mem_active k).mpr ⟨hreads.stands, hpath⟩
    exact ⟨j, ⟨k, Array.mem_toList_iff.mpr hk, hreads⟩, p⟩
  · rintro ⟨j, ⟨k, hk, s, hs, he⟩, p⟩
    have hpath := ((h.mem_active k).mp (Array.mem_toList_iff.mp hk)).2
    exact ⟨k, s, j, hpath, hs, he, p⟩

theorem advance (h : f.Tracks a w) : (f.advance a c).Tracks a (w ++ [c]) := by
  have hsearch := h.search c f.active.toList
  rw [Frontier.advance_eq]
  refine ⟨hsearch.size_eq, hsearch.stamp_le, hsearch.found_nodup, fun i => ?_⟩
  rw [h.path_concat_iff]
  exact hsearch.mem_found_iff

/-- The automaton may stop where a path to an accepting state spells what was read. -/
theorem accepting_iff (h : f.Tracks a w) : f.accepting a = true ↔ w ∈ a.language := by
  unfold Frontier.accepting
  rw [Array.any_eq_true']
  constructor
  · rintro ⟨i, hi, haccept⟩
    obtain ⟨s, hs, hs'⟩ := (Option.any_eq_true _ _).mp haccept
    exact ⟨i, s, ((h.mem_active i).mp hi).2, hs, hs'⟩
  · rintro ⟨i, s, p, hs, haccept⟩
    exact ⟨i, (h.mem_active i).mpr ⟨a.stands_of_accept hs haccept, p⟩, by simp [hs, haccept]⟩

/-- Where no state is left nothing more can be read. -/
theorem not_mem_of_isEmpty (h : f.Tracks a w) (hempty : f.active.isEmpty = true) (v : Bytes) :
    w ++ c :: v ∉ a.language := by
  rintro ⟨j, s, p, -⟩
  obtain ⟨k, t, m, hpath, ht, he, -⟩ := Path.append_cons_iff.mp p
  have hk := (h.mem_active k).mpr ⟨Automaton.Reads.stands ⟨t, ht, he⟩, hpath⟩
  rw [Array.isEmpty_iff.mp hempty] at hk
  exact Array.not_mem_empty k hk

/-- Running on from a frontier decides what may follow what was read. -/
theorem run_iff (h : f.Tracks a w) (v : Bytes) : f.run a v = true ↔ w ++ v ∈ a.language := by
  induction v generalizing f w with
  | nil => simpa [Frontier.run] using h.accepting_iff
  | cons c v ih =>
    by_cases hempty : f.active.isEmpty
    · simpa [Frontier.run, hempty] using h.not_mem_of_isEmpty hempty v
    · have hrun : f.run a (c :: v) = (f.advance a c).run a v := by simp [Frontier.run, hempty]
      rw [hrun, ih h.advance, List.append_assoc]
      rfl

end Frontier.Tracks

/-- An automaton accepts what its paths to accepting states spell. -/
theorem Automaton.accepts_iff (a : Automaton) (w : Bytes) :
    a.accepts w = true ↔ w ∈ a.language := by
  unfold Automaton.accepts
  split_ifs with hempty
  · refine iff_of_false not_false ?_
    rintro ⟨j, s, -, hs, -⟩
    simp [Array.isEmpty_iff.mp hempty] at hs
  · exact (Frontier.Tracks.frontier a).run_iff w

end RegexLab
