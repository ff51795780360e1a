import RegexLab.Automaton.Closure
import RegexLab.Proofs.Automaton.Path

/-!
# The search finds what is reached without reading

1. A visit meets one more state and puts it on the list, once.
2. Each state that was met is on the list, or all that it leads to without reading was met too.
3. When the list is empty, what was met is what the sources reach without reading.

## Main definitions

* `Stamps.Met` — a state was met in a step.
* `Automaton.Stands` — a state is there and is no relay.
* `Search` — the invariant of the search.
-/

namespace RegexLab

namespace Stamps

def Met (stamps : Stamps) (step i : Nat) : Prop :=
  stamps[i]? = some step

variable {stamps : Stamps} {step target i : Nat} {targets pending : List Nat}

theorem Met.lt_size (h : stamps.Met step i) : i < stamps.size :=
  (Array.getElem?_eq_some_iff.mp h).1

/-! ## One visit -/

/-- A visit does nothing to a state that was met or is not there. Any other state is met by it. -/
theorem visit_cases (step target : Nat) (stamps : Stamps) (pending : List Nat) :
    (visit step target (stamps, pending) = (stamps, pending) ∧
      (target < stamps.size → stamps.Met step target)) ∨
    ∃ h : target < stamps.size, ¬ stamps.Met step target ∧
      visit step target (stamps, pending) = (stamps.set target step h, target :: pending) := by
  by_cases h : target < stamps.size
  · by_cases hs : stamps[target] = step
    · exact .inl ⟨by simp [visit, h, hs], fun _ => by simp [Met, h, hs]⟩
    · exact .inr ⟨h, by simp [Met, h, hs], by simp [visit, h, hs]⟩
  · exact .inl ⟨by simp [visit, h], fun hlt => absurd hlt h⟩

@[simp] theorem size_visit (search : Stamps × List Nat) :
    (visit step target search).1.size = search.1.size := by
  obtain ⟨stamps, pending⟩ := search
  obtain ⟨he, -⟩ | ⟨_, -, he⟩ := visit_cases step target stamps pending <;> simp [he]

theorem met_visit (search : Stamps × List Nat) :
    (visit step target search).1.Met step i ↔
      search.1.Met step i ∨ (i = target ∧ target < search.1.size) := by
  obtain ⟨stamps, pending⟩ := search
  obtain ⟨he, hmet⟩ | ⟨hlt, -, he⟩ := visit_cases step target stamps pending
  · rw [he]
    constructor
    · exact .inl
    · intro h
      rcases h with h | ⟨rfl, hlt⟩
      · exact h
      · exact hmet hlt
  · rw [he]
    by_cases hi : target = i <;> grind [Met]

theorem mem_visit (search : Stamps × List Nat) :
    i ∈ (visit step target search).2 ↔
      i ∈ search.2 ∨ (i = target ∧ target < search.1.size ∧ ¬ search.1.Met step target) := by
  obtain ⟨stamps, pending⟩ := search
  obtain ⟨he, hmet⟩ | ⟨hlt, hmet, he⟩ := visit_cases step target stamps pending
  · rw [he, or_iff_left]
    exact fun ⟨_, hlt, hnot⟩ => hnot (hmet hlt)
  · simp [he, hlt, hmet, or_comm]

/-- A visit writes no stamp but that of the step. -/
theorem getElem?_visit {n : Nat} (search : Stamps × List Nat)
    (h : (visit step target search).1[i]? = some n) : n = step ∨ search.1[i]? = some n := by
  obtain ⟨stamps, pending⟩ := search
  obtain ⟨he, -⟩ | ⟨hlt, -, he⟩ := visit_cases step target stamps pending
  · exact .inr (by simpa [he] using h)
  · simp only [he, Array.getElem?_set] at h
    split_ifs at h
    · exact .inl (Option.some.inj h).symm
    · exact .inr h

/-- A list whose entries were all met gets no entry twice. -/
theorem nodup_visit (search : Stamps × List Nat) (hmet : ∀ i ∈ search.2, search.1.Met step i)
    (hnodup : search.2.Nodup) : (visit step target search).2.Nodup := by
  obtain ⟨stamps, pending⟩ := search
  obtain ⟨he, -⟩ | ⟨hlt, hnot, he⟩ := visit_cases step target stamps pending
  · rwa [he]
  · rw [he]
    exact List.nodup_cons.mpr ⟨fun hmem => hnot (hmet _ hmem), hnodup⟩

/-! ## Several visits -/

@[simp] theorem size_visitAll (search : Stamps × List Nat) :
    (visitAll step targets search).1.size = search.1.size := by
  induction targets with
  | nil => rfl
  | cons t ts ih => exact (size_visit _).trans ih

theorem met_visitAll (search : Stamps × List Nat) :
    (visitAll step targets search).1.Met step i ↔
      search.1.Met step i ∨ (i ∈ targets ∧ i < search.1.size) := by
  induction targets with
  | nil => simp [visitAll]
  | cons t ts ih =>
    have hsize : (visitAll step ts search).1.size = search.1.size := size_visitAll search
    change (visit step t (visitAll step ts search)).1.Met step i ↔ _
    rw [met_visit, ih, hsize, List.mem_cons]
    constructor
    · intro h
      rcases h with (h | ⟨h, hlt⟩) | ⟨rfl, hlt⟩
      · exact .inl h
      · exact .inr ⟨.inr h, hlt⟩
      · exact .inr ⟨.inl rfl, hlt⟩
    · intro h
      rcases h with h | ⟨rfl | h, hlt⟩
      · exact .inl (.inl h)
      · exact .inr ⟨rfl, hlt⟩
      · exact .inl (.inr ⟨h, hlt⟩)

theorem mem_visitAll (search : Stamps × List Nat) :
    i ∈ (visitAll step targets search).2 ↔
      i ∈ search.2 ∨ (i ∈ targets ∧ i < search.1.size ∧ ¬ search.1.Met step i) := by
  induction targets with
  | nil => simp [visitAll]
  | cons t ts ih =>
    change i ∈ (visit step t (visitAll step ts search)).2 ↔ _
    rw [mem_visit, ih, met_visitAll, size_visitAll, List.mem_cons]
    constructor
    · intro h
      rcases h with (h | ⟨h, hlt, hmet⟩) | ⟨rfl, hlt, hmet⟩
      · exact .inl h
      · exact .inr ⟨.inr h, hlt, hmet⟩
      · exact .inr ⟨.inl rfl, hlt, fun h => hmet (.inl h)⟩
    · intro h
      rcases h with h | ⟨rfl | h, hlt, hmet⟩
      · exact .inl (.inl h)
      · by_cases hi : i ∈ ts
        · exact .inl (.inr ⟨hi, hlt, hmet⟩)
        · exact .inr ⟨rfl, hlt, by simp [hmet, hi]⟩
      · exact .inl (.inr ⟨h, hlt, hmet⟩)

theorem getElem?_visitAll {n : Nat} (search : Stamps × List Nat)
    (h : (visitAll step targets search).1[i]? = some n) : n = step ∨ search.1[i]? = some n := by
  induction targets with
  | nil => exact .inr h
  | cons t ts ih => exact (getElem?_visit _ h).elim .inl ih

theorem pending_met_visitAll (search : Stamps × List Nat)
    (hmet : ∀ i ∈ search.2, search.1.Met step i) :
    ∀ i ∈ (visitAll step targets search).2, (visitAll step targets search).1.Met step i := by
  intro i hi
  rw [met_visitAll]
  obtain h | ⟨ht, hlt, -⟩ := (mem_visitAll search).mp hi
  · exact .inl (hmet i h)
  · exact .inr ⟨ht, hlt⟩

theorem nodup_visitAll (search : Stamps × List Nat) (hmet : ∀ i ∈ search.2, search.1.Met step i)
    (hnodup : search.2.Nodup) : (visitAll step targets search).2.Nodup := by
  induction targets with
  | nil => exact hnodup
  | cons t ts ih => exact nodup_visit _ (pending_met_visitAll search hmet) ih

/-- Entries that are kept aside are not put on the list again. -/
theorem nodup_append_visitAll {kept : List Nat}
    (hmet : ∀ i ∈ kept ++ pending, stamps.Met step i) (hnodup : (kept ++ pending).Nodup) :
    (kept ++ (visitAll step targets (stamps, pending)).2).Nodup := by
  obtain ⟨hkept, hpending, hdisjoint⟩ := List.nodup_append.mp hnodup
  have hlist : (visitAll step targets (stamps, pending)).2.Nodup :=
    nodup_visitAll _ (fun i hi => hmet i (List.mem_append_right kept hi)) hpending
  refine List.nodup_append.mpr ⟨hkept, hlist, fun i hi j hj => ?_⟩
  cases (mem_visitAll (stamps, pending)).mp hj with
  | inl hold => exact hdisjoint i hi j hold
  | inr hnew =>
    rintro rfl
    exact hnew.2.2 (hmet i (List.mem_append_left pending hi))

end Stamps

/-! ## The invariant -/

def Automaton.Stands (a : Automaton) (i : Nat) : Prop :=
  ∃ s, a.states[i]? = some s ∧ s.isRelay = false

/-- How far the search of a step has come that started from `sources`. Only the pending states
still have to be looked at. -/
structure Search (a : Automaton) (step : Nat) (sources : Set Nat) (stamps : Stamps)
    (found : Array Nat) (pending : List Nat) : Prop where
  size_eq : stamps.size = a.size
  stamp_le : ∀ i n : Nat, stamps[i]? = some n → n ≤ step
  sound : ∀ i, stamps.Met step i → ∃ j ∈ sources, Path a.states j [] i
  source_met : ∀ i ∈ sources, i < a.size → stamps.Met step i
  closed : ∀ i s, stamps.Met step i → i ∉ pending → a.states[i]? = some s →
    ∀ j ∈ s.epsilons, j < a.size → stamps.Met step j
  pending_met : ∀ i ∈ pending, stamps.Met step i
  pending_nodup : pending.Nodup
  found_nodup : found.toList.Nodup
  mem_found : ∀ i, i ∈ found ↔ stamps.Met step i ∧ i ∉ pending ∧ a.Stands i

namespace Search

variable {a : Automaton} {step i : Nat} {s : State} {sources sources' : Set Nat} {stamps : Stamps}
  {found : Array Nat} {targets kept pending : List Nat}

/-- Before a step no stamp is that of the step. -/
theorem start (hsize : stamps.size = a.size) (hlt : ∀ i n : Nat, stamps[i]? = some n → n < step) :
    Search a step ∅ stamps #[] [] := by
  have hnone : ∀ i, ¬ stamps.Met step i := fun i h => Nat.lt_irrefl _ (hlt i step h)
  refine ⟨hsize, fun i n h => (hlt i n h).le, fun i h => absurd h (hnone i), by simp,
    fun i s h => absurd h (hnone i), by simp, .nil, by simp, fun i => ?_⟩
  simp [hnone i]

/-- Before the first step no state was met. -/
theorem fresh (a : Automaton) : Search a 1 ∅ a.freshStamps #[] [] := by
  refine start (by simp [Automaton.freshStamps]) fun i n h => ?_
  obtain ⟨hlt, rfl⟩ := Array.getElem?_eq_some_iff.mp h
  simp [Automaton.freshStamps]

/-- Visiting puts states on the list that the sources reach, and takes none off. -/
theorem visitAll (h : Search a step sources stamps found (kept ++ pending))
    (hsub : sources ⊆ sources') (hnew : ∀ j ∈ sources', j ∈ sources ∨ j ∈ targets)
    (hreach : ∀ j ∈ targets, ∃ k ∈ sources', Path a.states k [] j) :
    let search := Stamps.visitAll step targets (stamps, pending)
    Search a step sources' search.1 found (kept ++ search.2) := by
  intro search
  have hmet : ∀ j, search.1.Met step j ↔ stamps.Met step j ∨ (j ∈ targets ∧ j < a.size) :=
    fun j => h.size_eq ▸ Stamps.met_visitAll (stamps, pending)
  have hmem : ∀ j, j ∈ search.2 ↔ j ∈ pending ∨ (j ∈ targets ∧ j < a.size ∧ ¬ stamps.Met step j) :=
    fun j => h.size_eq ▸ Stamps.mem_visitAll (stamps, pending)
  have hkept : ∀ j ∈ kept, stamps.Met step j :=
    fun j hj => h.pending_met j (List.mem_append_left _ hj)
  have hpending : ∀ j ∈ pending, stamps.Met step j :=
    fun j hj => h.pending_met j (List.mem_append_right _ hj)
  -- What is met and off the list is what was so before.
  have hdone : ∀ j, (search.1.Met step j ∧ j ∉ kept ++ search.2) ↔
      (stamps.Met step j ∧ j ∉ kept ++ pending) := by
    intro j
    rw [hmet, List.mem_append, List.mem_append, hmem]
    grind
  refine ⟨(Stamps.size_visitAll _).trans h.size_eq, ?_, ?_, ?_, ?_, ?_,
    Stamps.nodup_append_visitAll h.pending_met h.pending_nodup, h.found_nodup, ?_⟩
  · intro j n hj
    obtain rfl | hj := Stamps.getElem?_visitAll _ hj
    · exact le_rfl
    · exact h.stamp_le j n hj
  · intro j hj
    obtain hj | ⟨hj, -⟩ := (hmet j).mp hj
    · obtain ⟨k, hk, p⟩ := h.sound j hj
      exact ⟨k, hsub hk, p⟩
    · exact hreach j hj
  · intro j hj hlt
    apply (hmet j).mpr
    cases hnew j hj with
    | inl hold => exact .inl (h.source_met j hold hlt)
    | inr htarget => exact .inr ⟨htarget, hlt⟩
  · intro j t hj hout ht k hk hlt
    obtain ⟨hold, hout⟩ := (hdone j).mp ⟨hj, hout⟩
    exact (hmet k).mpr (.inl (h.closed j t hold hout ht k hk hlt))
  · intro j hj
    cases List.mem_append.mp hj with
    | inl hj => exact (hmet j).mpr (.inl (hkept j hj))
    | inr hj => exact Stamps.pending_met_visitAll _ hpending j hj
  · intro j
    rw [h.mem_found, ← and_assoc, ← and_assoc, hdone]

/-- A state comes off the list when all that it leads to was met. -/
theorem remove (h : Search a step sources stamps found (i :: pending)) (hs : a.states[i]? = some s)
    (htargets : ∀ j ∈ s.epsilons, j < a.size → stamps.Met step j) :
    Search a step sources stamps (if s.isRelay then found else found.push i) pending := by
  have hi : stamps.Met step i := h.pending_met i List.mem_cons_self
  obtain ⟨hnotin, hnodup⟩ := List.nodup_cons.mp h.pending_nodup
  -- What is met and off the list was so before, the state itself apart.
  have hdone : ∀ j, (stamps.Met step j ∧ j ∉ pending) ↔
      (j = i ∨ (stamps.Met step j ∧ j ∉ i :: pending)) := by
    intro j
    by_cases hij : j = i
    · subst hij
      exact ⟨fun _ => .inl rfl, fun _ => ⟨hi, hnotin⟩⟩
    · simp [hij]
  refine ⟨h.size_eq, h.stamp_le, h.sound, h.source_met, ?_,
    fun j hj => h.pending_met j (List.mem_cons_of_mem i hj), hnodup, ?_, ?_⟩
  · intro j t hj hout ht k hk hlt
    obtain rfl | ⟨hold, hout⟩ := (hdone j).mp ⟨hj, hout⟩
    · obtain rfl : s = t := Option.some.inj (hs.symm.trans ht)
      exact htargets k hk hlt
    · exact h.closed j t hold hout ht k hk hlt
  · split_ifs with hr
    · exact h.found_nodup
    · have hnew : i ∉ found.toList := fun hin =>
        ((h.mem_found i).mp (Array.mem_toList_iff.mp hin)).2.1 List.mem_cons_self
      rw [Array.toList_push]
      simpa using List.Nodup.concat hnew h.found_nodup
  · intro j
    have hfound : j ∈ (if s.isRelay then found else found.push i) ↔
        j ∈ found ∨ (j = i ∧ s.isRelay = false) := by
      cases s.isRelay <;> simp
    rw [hfound, h.mem_found, ← and_assoc, ← and_assoc, hdone]
    constructor
    · intro hmem
      rcases hmem with ⟨hj, hstands⟩ | ⟨rfl, hr⟩
      · exact ⟨.inr hj, hstands⟩
      · exact ⟨.inl rfl, s, hs, hr⟩
    · intro hmem
      rcases hmem with ⟨rfl | hj, hstands⟩
      · obtain ⟨t, ht, hr⟩ := hstands
        obtain rfl : s = t := Option.some.inj (hs.symm.trans ht)
        exact .inr ⟨rfl, hr⟩
      · exact .inl ⟨hj, hstands⟩

/-- The state that is looked at comes off the list, and where it leads to is visited. -/
theorem look (h : Search a step sources stamps found (i :: pending)) (hs : a.states[i]? = some s) :
    let search := Stamps.visitAll step s.epsilons (stamps, pending)
    Search a step sources search.1 (if s.isRelay then found else found.push i) search.2 := by
  intro search
  obtain ⟨k, hk, p⟩ := h.sound i (h.pending_met i List.mem_cons_self)
  have hkept : Search a step sources stamps found ([i] ++ pending) := h
  have hvisited : Search a step sources search.1 found ([i] ++ search.2) := by
    refine hkept.visitAll subset_rfl (fun j hj => .inl hj) fun j hj => ?_
    exact ⟨k, hk, p.trans (.silent hs hj (.refl j))⟩
  refine hvisited.remove hs fun j hj hlt => ?_
  exact (Stamps.met_visitAll _).mpr (.inr ⟨hj, h.size_eq ▸ hlt⟩)

/-- The search keeps its invariant until nothing is pending. -/
theorem sweep (h : Search a step sources stamps found pending) :
    Search a step sources (a.sweep step stamps found pending).1
      (a.sweep step stamps found pending).2 [] := by
  fun_induction Automaton.sweep a step stamps found pending with
  | case1 => exact h
  | case2 stamps found i pending hnone =>
    have hlt : i < a.size := h.size_eq ▸ (h.pending_met i List.mem_cons_self).lt_size
    exact absurd hnone (by simpa [Automaton.size] using hlt)
  | case3 stamps found i pending s hs stamps' pending' he ih =>
    have hlook := h.look hs
    rw [he] at hlook
    exact ih hlook

/-- A source that was not met yet is put on the list. -/
theorem visit (h : Search a step sources stamps found []) :
    let search := Stamps.visit step i (stamps, [])
    Search a step (insert i sources) search.1 found search.2 := by
  have hkept : Search a step sources stamps found ([] ++ []) := h
  have hnew : ∀ j ∈ insert i sources, j ∈ sources ∨ j ∈ [i] := by
    intro j hj
    cases hj with
    | inl hij => exact .inr (List.mem_singleton.mpr hij)
    | inr hold => exact .inl hold
  refine hkept.visitAll (Set.subset_insert i sources) hnew fun j hj => ?_
  obtain rfl := List.mem_singleton.mp hj
  exact ⟨j, Set.mem_insert j sources, .refl j⟩

/-- One more source is searched from. -/
theorem close (h : Search a step sources stamps found []) :
    Search a step (insert i sources) (a.close step stamps found i).1
      (a.close step stamps found i).2 [] :=
  h.visit.sweep

/-- All that the sources reach without reading was met. -/
theorem met_of_path (h : Search a step sources stamps found []) {j : Nat} (hj : j ∈ sources)
    (p : Path a.states j [] i) (hi : i < a.size) : stamps.Met step i := by
  have hstart : j < a.size → stamps.Met step j := h.source_met j hj
  clear hj
  generalize hw : ([] : Bytes) = w at p
  induction p with
  | refl => exact hstart hi
  | @silent j k i w t ht hk _ ih =>
    have hj : j < a.size := (Array.getElem?_eq_some_iff.mp ht).1
    exact ih hi (fun hlt => h.closed j t (hstart hj) List.not_mem_nil ht k hk hlt) hw
  | read => simp at hw

/-- A search that is over has met what its sources reach without reading. -/
theorem met_iff (h : Search a step sources stamps found []) :
    stamps.Met step i ↔ i < a.size ∧ ∃ j ∈ sources, Path a.states j [] i := by
  constructor
  · intro hmet
    exact ⟨h.size_eq ▸ hmet.lt_size, h.sound i hmet⟩
  · rintro ⟨hi, j, hj, p⟩
    exact h.met_of_path hj p hi

/-- A search that is over has found what its sources reach without reading, relays left out. -/
theorem mem_found_iff (h : Search a step sources stamps found []) :
    i ∈ found ↔ a.Stands i ∧ ∃ j ∈ sources, Path a.states j [] i := by
  rw [h.mem_found, h.met_iff]
  constructor
  · rintro ⟨⟨-, hreach⟩, -, hstands⟩
    exact ⟨hstands, hreach⟩
  · rintro ⟨⟨s, hs, hr⟩, hreach⟩
    have hi : i < a.size := (Array.getElem?_eq_some_iff.mp hs).1
    exact ⟨⟨hi, hreach⟩, List.not_mem_nil, s, hs, hr⟩

end Search

end RegexLab
