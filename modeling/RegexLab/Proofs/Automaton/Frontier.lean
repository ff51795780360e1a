import RegexLab.Proofs.Automaton.Closure

/-!
# The frontier in every turn of a run

A run takes one turn for each byte, as long as a state is left. Stamps are never cleared, and the
active states of a turn share them, so a state may be passed over because it was stamped before.
What makes this safe is that each step has a number of its own: before a turn no stamp is that of
the new step, and in the turn a state gets it just when an active state that has been handled leads
there.

Nothing is asked of the automaton but that its edges lead to states that are there.

## Main definitions

* `Gathers` — a step has met some states, and it has found those of them that are no relays.
* `Automaton.Comes` — how far a run has come on a word.
-/

namespace RegexLab

variable {a : Automaton} {f : Frontier} {c : UInt8} {step : Nat} {u v w : Bytes}
  {sources : Set Nat} {stamps : Stamps} {found : Array Nat}

/-- A step has met exactly the states in `reached`, and it has found those of them that are no
relays, each once. -/
structure Gathers (a : Automaton) (step : Nat) (reached : Set Nat) (stamps : Stamps)
    (found : Array Nat) : Prop where
  stamp_le : ∀ i n : Nat, stamps[i]? = some n → n ≤ step
  met_iff : ∀ i, stamps.Met step i ↔ i ∈ reached
  nodup : found.toList.Nodup
  mem_found : ∀ i, i ∈ found ↔ i ∈ reached ∧ a.Stands i

/-- A search that is over has gathered all that its sources reach without reading. -/
theorem Search.gathers (h : Search a step sources stamps found [])
    (hin : ∀ i j, Edge a.states i j → j < a.size) (hsources : ∀ j ∈ sources, j < a.size) :
    Gathers a step {i | ∃ j ∈ sources, Path a.states j [] i} stamps found := by
  have hmet : ∀ i, stamps.Met step i ↔ ∃ j ∈ sources, Path a.states j [] i := by
    intro i
    refine h.met_iff.trans (and_iff_right_of_imp ?_)
    rintro ⟨j, hj, p⟩
    exact p.mem_of_closed (P := {k | k < a.size}) (fun _ _ k he => hin _ k he) (hsources j hj)
  exact ⟨h.stamp_le, hmet, h.found_nodup, fun i => h.mem_found_iff.trans and_comm⟩

/-! ## One turn -/

namespace Frontier.Tracks

/-- When some of the active states have been handled, the turn has gathered what they lead to by
reading `c`. Stamps of earlier turns make no difference. -/
theorem gathers_partway (h : f.Tracks a w) (hin : ∀ i j, Edge a.states i j → j < a.size)
    (c : UInt8) (l : List Nat) :
    Gathers a (f.step + 1) {i | ∃ j, (∃ k ∈ l, a.Reads c k j) ∧ Path a.states j [] i}
      (f.partway a c l).1 (f.partway a c l).2 := by
  refine (h.search c l).gathers hin ?_
  rintro j ⟨k, -, s, hs, he⟩
  exact hin k j (.read hs he)

/-- A whole turn gathers what paths reach that read one more byte. -/
theorem gathers_advance (h : f.Tracks a w) (hin : ∀ i j, Edge a.states i j → j < a.size) :
    Gathers a (f.step + 1) {i | Path a.states a.entry (w ++ [c]) i}
      (f.advance a c).stamps (f.advance a c).active := by
  have hreached : {i | Path a.states a.entry (w ++ [c]) i} =
      {i | ∃ j, (∃ k ∈ f.active.toList, a.Reads c k j) ∧ Path a.states j [] i} :=
    Set.ext fun i => h.path_concat_iff
  rw [Frontier.advance_eq, hreached]
  exact h.gathers_partway hin c f.active.toList

/-- Going on from a frontier gives the answer for the whole word. -/
theorem accepts_eq (h : f.Tracks a u) (v : Bytes) : a.accepts (u ++ v) = f.run a v :=
  Bool.eq_iff_iff.mpr ((a.accepts_iff (u ++ v)).trans (h.run_iff v).symm)

/-- Where no state is left no longer word is accepted. -/
theorem not_accepts_of_isEmpty (h : f.Tracks a u) (hempty : f.active.isEmpty = true)
    (hv : v ≠ []) : u ++ v ∉ a.language ∧ a.accepts (u ++ v) = false := by
  obtain ⟨c, v, rfl⟩ := List.exists_cons_of_ne_nil hv
  have hnot : u ++ c :: v ∉ a.language := h.not_mem_of_isEmpty hempty v
  exact ⟨hnot, Bool.eq_false_iff.mpr (mt (a.accepts_iff _).mp hnot)⟩

end Frontier.Tracks

/-! ## All turns -/

/-- On the word `w` a run of `a` comes to the frontier `f` when it has read `u`, and `v` is still to
be read. A turn is taken only while a state is left. -/
inductive Automaton.Comes (a : Automaton) (w : Bytes) : Bytes → Frontier → Bytes → Prop
  | start : Comes a w [] a.frontier w
  | turn {u v : Bytes} {f : Frontier} {c : UInt8} :
      Comes a w u f (c :: v) → f.active.isEmpty = false → Comes a w (u ++ [c]) (f.advance a c) v

namespace Automaton.Comes

theorem append_eq (h : a.Comes w u f v) : u ++ v = w := by
  induction h with
  | start => rfl
  | turn _ _ ih => rwa [List.append_assoc, List.singleton_append]

theorem tracks (h : a.Comes w u f v) : f.Tracks a u := by
  induction h with
  | start => exact .frontier a
  | turn _ _ ih => exact ih.advance

/-- Before each turn and after it, the step has met exactly what the bytes read lead to. -/
theorem gathers (h : a.Comes w u f v) (hin : ∀ i j, Edge a.states i j → j < a.size)
    (hentry : a.entry < a.size) :
    Gathers a f.step {i | Path a.states a.entry u i} f.stamps f.active := by
  cases h with
  | start =>
    have hgathers := (a.search_closure a.entry).gathers hin (by simpa using hentry)
    simp only [Set.mem_singleton_iff, exists_eq_left] at hgathers
    exact hgathers
  | turn h _ => exact h.tracks.gathers_advance hin

/-- The turns come to an end: all is read, or no state is left. -/
theorem exists_end (h : a.Comes w u f v) :
    ∃ u' g v', a.Comes w u' g v' ∧ (v' = [] ∨ g.active.isEmpty = true) := by
  induction v generalizing u f with
  | nil => exact ⟨u, f, [], h, .inl rfl⟩
  | cons c v ih =>
    cases hempty : f.active.isEmpty with
    | true => exact ⟨u, f, c :: v, h, .inr hempty⟩
    | false => exact ih (h.turn hempty)

end Automaton.Comes

namespace Arena

variable {A B : Arena} {p : Fragment}

/-- Whatever is built, the frontier is exact in every turn of a run. Before a turn and after it, the
states with the stamp of the step are those at the end of a path that spells what was read, and the
active states are those of them that are no relays, each once. No stamp is above that of the step.
In a turn that reads `c`, what was stamped and found is what the active states handled so far lead
to, so no stamp of an earlier step hides a state. Where no state is left, no longer word is
accepted, so the run may end there. -/
theorem frontier_exact_of_built (hA : A.Built) (hf : A.extract p = .ok (a, B)) (w : Bytes) :
    (∀ u f v, a.Comes w u f v →
      u ++ v = w ∧ a.accepts w = f.run a v ∧
      Gathers a f.step {i | Path a.states a.entry u i} f.stamps f.active ∧
      (∀ c l, l <+: f.active.toList →
        Gathers a (f.step + 1) {i | ∃ j, (∃ k ∈ l, a.Reads c k j) ∧ Path a.states j [] i}
          (f.partway a c l).1 (f.partway a c l).2) ∧
      (f.active.isEmpty = true →
        ∀ x, x ≠ [] → u ++ x ∉ a.language ∧ a.accepts (u ++ x) = false)) ∧
    ∃ u f v, a.Comes w u f v ∧
      (v = [] ∧ a.accepts w = f.accepting a ∨
        v ≠ [] ∧ f.active.isEmpty = true ∧ a.accepts w = false) := by
  obtain ⟨hentry, rfl, -⟩ := extract_eq_ok_iff.mp hf
  constructor
  · intro u f v h
    refine ⟨h.append_eq, ?_, h.gathers hA.inRange hentry.1,
      fun c l _ => h.tracks.gathers_partway hA.inRange c l,
      fun hempty x hx => h.tracks.not_accepts_of_isEmpty hempty hx⟩
    rw [← h.append_eq]
    exact h.tracks.accepts_eq v
  · obtain ⟨u, f, v, h, hend⟩ := Automaton.Comes.exists_end .start
    refine ⟨u, f, v, h, ?_⟩
    rw [← h.append_eq]
    by_cases hv : v = []
    · refine .inl ⟨hv, ?_⟩
      rw [h.tracks.accepts_eq, hv]
      rfl
    · have hempty := hend.resolve_left hv
      exact .inr ⟨hv, hempty, (h.tracks.not_accepts_of_isEmpty hempty hv).2⟩

/-- After two bytes no state is left, and the run ends with the third byte unread. The stamps of the
first two steps are still there. -/
theorem frontier_exact_of_tangle :
    tangle.Built ∧ ∃ a, tangle.extract ⟨2, 1⟩ = .ok (a, {}) ∧
      ∃ f, a.Comes [0x61, 0x62, 0x61] [0x61, 0x62] f [0x61] ∧
        f.active = #[] ∧ f.stamps = #[1, 2, 1, 1] ∧ f.step = 3 ∧
        a.accepts [0x61, 0x62, 0x61] = f.run a [0x61] ∧
        Gathers a f.step {i | Path a.states a.entry [0x61, 0x62] i} f.stamps f.active ∧
        ∀ x, x ≠ [] → [0x61, 0x62] ++ x ∉ a.language ∧ a.accepts ([0x61, 0x62] ++ x) = false := by
  obtain ⟨a, ha⟩ : ∃ a : Automaton, a = { states := tangle.states, entry := 2, exit := 1 } :=
    ⟨_, rfl⟩
  have hextract : tangle.extract ⟨2, 1⟩ = .ok (a, {}) := by rw [ha]; rfl
  have hfirst : a.frontier.active.isEmpty = false := by rw [ha]; decide +kernel
  have hsecond : (a.frontier.advance a 0x61).active.isEmpty = false := by rw [ha]; decide +kernel
  have hcomes := Automaton.Comes.turn (Automaton.Comes.turn
    (Automaton.Comes.start (a := a) (w := [0x61, 0x62, 0x61])) hfirst) hsecond
  have hactive : ((a.frontier.advance a 0x61).advance a 0x62).active = #[] := by
    rw [ha]; decide +kernel
  have hstamps : ((a.frontier.advance a 0x61).advance a 0x62).stamps = #[1, 2, 1, 1] := by
    rw [ha]; decide +kernel
  obtain ⟨hturns, -⟩ := frontier_exact_of_built built_tangle hextract [0x61, 0x62, 0x61]
  obtain ⟨-, haccepts, hgathers, -, hempty⟩ := hturns _ _ _ hcomes
  exact ⟨built_tangle, a, hextract, _, hcomes, hactive, hstamps, rfl, haccepts, hgathers,
    hempty (by rw [hactive]; rfl)⟩

end Arena

end RegexLab
