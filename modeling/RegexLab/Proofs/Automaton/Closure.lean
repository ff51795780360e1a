import RegexLab.Proofs.Automaton.Operation

/-!
# The closure of a state

Collecting what a state reaches without reading is one search from that state, started with no state
met. It ends with each state of use on the list once. Nothing is asked of the automaton: edges may
form cycles, lead back to where they start or stand twice, and a state may read a byte and also go
on without reading.
-/

namespace RegexLab

/-- A state that is no relay has nowhere to go without reading, or reads, or accepts. -/
theorem State.isRelay_eq_false_iff {s : State} :
    s.isRelay = false ↔ s.epsilons = [] ∨ s.edge.isSome = true ∨ s.accept = true := by
  obtain ⟨accept, edge, epsilons⟩ := s
  cases accept <;> cases edge <;> cases epsilons <;> simp [isRelay]

namespace Automaton

variable {a : Automaton} {i j : Nat}

/-- The search that collects the closure of a state has that state as its only source. -/
theorem search_closure (a : Automaton) (i : Nat) :
    Search a 1 {i} (a.close 1 a.freshStamps #[] i).1 (a.closure i) [] := by
  rw [← insert_empty_eq i]
  exact (Search.fresh a).close

theorem nodup_closure (a : Automaton) (i : Nat) : (a.closure i).toList.Nodup :=
  (a.search_closure i).found_nodup

theorem mem_closure_iff : j ∈ a.closure i ↔ a.Stands j ∧ Path a.states i [] j := by
  simp [(a.search_closure i).mem_found_iff]

/-- No edge leaves a state that is not there, and it is not in its own closure either. -/
theorem closure_of_size_le (h : a.size ≤ i) : a.closure i = #[] := by
  have hnone : ∀ j, j ∉ a.closure i := by
    intro j hj
    obtain ⟨⟨s, hs, -⟩, p⟩ := mem_closure_iff.mp hj
    obtain ⟨rfl, -⟩ := p.eq_of_final fun k hk => Nat.not_le_of_lt hk.lt_size h
    exact Nat.not_le_of_lt (Array.getElem?_eq_some_iff.mp hs).1 h
  exact Array.eq_empty_iff_forall_not_mem.mpr hnone

end Automaton

namespace Arena

variable {A B : Arena} {f : Fragment} {a : Automaton}

/-- Whatever is built, the closure of a state is exact. All that the state reaches without reading
is there, and the closure lists, each once, those of these states that have nowhere to go without
reading, or read, or accept. The closure of a state that is not there is empty. -/
theorem closure_exact_of_built (hA : A.Built) (hf : A.extract f = .ok (a, B)) :
    (∀ i < a.size,
      (∀ j, Path a.states i [] j → j < a.size) ∧
      (a.closure i).toList.Nodup ∧
      ∀ j, j ∈ a.closure i ↔ Path a.states i [] j ∧ ∃ s, a.states[j]? = some s ∧
        (s.epsilons = [] ∨ s.edge.isSome = true ∨ s.accept = true)) ∧
    ∀ i, a.size ≤ i → a.closure i = #[] := by
  obtain ⟨-, rfl, -⟩ := extract_eq_ok_iff.mp hf
  refine ⟨fun i hi => ⟨fun j p => ?_, Automaton.nodup_closure _ i, fun j => ?_⟩,
    fun i hi => Automaton.closure_of_size_le hi⟩
  · exact p.mem_of_closed (P := {k | k < A.size}) (fun _ _ k he => hA.inRange _ k he) hi
  · simp only [Automaton.mem_closure_iff, Automaton.Stands, State.isRelay_eq_false_iff]
    exact and_comm

/-- The entry of the loop is a relay, so its closure has only the two states that it goes on to. One
of them goes back to itself without reading. -/
theorem closure_exact_of_tangle :
    tangle.Built ∧ ∃ a, tangle.extract ⟨2, 1⟩ = .ok (a, {}) ∧ a.closure 2 = #[3, 0] ∧
      (∀ j, Path a.states 2 [] j → j < 4) ∧
      (∀ j, j ∈ #[3, 0] ↔ Path a.states 2 [] j ∧ ∃ s, a.states[j]? = some s ∧
        (s.epsilons = [] ∨ s.edge.isSome = true ∨ s.accept = true)) ∧
      a.closure 4 = #[] := by
  have hextract : tangle.extract ⟨2, 1⟩ =
      .ok ({ states := tangle.states, entry := 2, exit := 1 }, {}) := rfl
  obtain ⟨hinside, houtside⟩ := closure_exact_of_built built_tangle hextract
  obtain ⟨hlt, -, hmem⟩ := hinside 2 (by decide)
  have hclosure :
      ({ states := tangle.states, entry := 2, exit := 1 } : Automaton).closure 2 = #[3, 0] := by
    decide +kernel
  rw [hclosure] at hmem
  exact ⟨built_tangle, _, hextract, hclosure, hlt, hmem, houtside 4 (by decide)⟩

end Arena

end RegexLab
