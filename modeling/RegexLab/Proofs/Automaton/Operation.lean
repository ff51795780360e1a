import RegexLab.Automaton.Arena
import RegexLab.Proofs.Automaton.Acceptance

/-!
# What an operation does to an arena

An operation adds at most two states behind the old ones. Of the old states it changes the exits of
its operands only: they stop accepting and get further edges that read nothing. Nothing else is
needed to see that edges lead to states that are there, for any operands that are there.

## Main definitions

* `Operation.operands` — the fragments that an operation puts together.
* `Arena.ChangesOnly` — the old states that may differ between two arenas, and how.
* `Arena.Built` — the arenas that operations on fragments in range lead to.
-/

namespace RegexLab

variable {A B C : Arena} {f g : Fragment} {i j : Nat} {s : State} {targets exits : List Nat}

/-! ## Operations -/

def Operation.operands : Operation → List Fragment
  | epsilon | symbol _ => []
  | concat a b | union a b => [a, b]
  | repeated _ a => [a]

namespace Arena

/-- An alternative is two new states, and both exits go on to the second. -/
theorem union_eq (A : Arena) (a b : Fragment) :
    A.union a b = (⟨A.size, A.size + 1⟩,
      ((A.pushPair fun _ => { epsilons := [a.entry, b.entry] }).2.redirect a.exit
        [A.size + 1]).redirect b.exit [A.size + 1]) :=
  rfl

end Arena

def Quantifier.skips (q : Quantifier) : Bool :=
  q != .plus

def Quantifier.loops (q : Quantifier) : Bool :=
  q != .opt

namespace Arena

/-- A repetition is two new states. Whether they go past the operand, and whether its exit goes
back to its entry, is all in which quantifiers differ. -/
theorem repeated_eq (A : Arena) (q : Quantifier) (a : Fragment) :
    A.repeated q a = (⟨A.size, A.size + 1⟩,
      (A.pushPair fun f =>
        { epsilons := (if q.skips then [f.exit] else []) ++ [a.entry] }).2.redirect a.exit
        ((A.size + 1) :: if q.loops then [a.entry] else [])) := by
  cases q <;> rfl

@[simp] theorem size_repeated (A : Arena) (q : Quantifier) (a : Fragment) :
    (A.repeated q a).2.size = A.size + 2 := by
  cases q <;> simp [repeated]

/-! ## Old and new states -/

theorem lt_size_of_getElem? (h : A.states[i]? = some s) : i < A.size :=
  (Array.getElem?_eq_some_iff.mp h).1

theorem exists_getElem? (h : i < A.size) : ∃ s, A.states[i]? = some s := by
  unfold size at h
  exact ⟨A.states[i], Array.getElem?_eq_getElem h⟩

theorem getElem?_redirect (A : Arena) (i j : Nat) (targets : List Nat) :
    (A.redirect i targets).states[j]? =
      if i = j then A.states[j]?.map fun s =>
        { s with accept := false, epsilons := s.epsilons ++ targets }
      else A.states[j]? := by
  simp only [redirect, Array.getElem?_modify]

theorem getElem?_redirect_self (h : A.states[i]? = some s) :
    (A.redirect i targets).states[i]? =
      some { s with accept := false, epsilons := s.epsilons ++ targets } := by
  simp [getElem?_redirect, h]

theorem getElem?_redirect_of_ne (h : i ≠ j) :
    (A.redirect i targets).states[j]? = A.states[j]? := by
  simp [getElem?_redirect, h]

section pushPair

variable (A) (entry : Fragment → State)

@[simp] theorem pushPair_fst : (A.pushPair entry).1 = ⟨A.size, A.size + 1⟩ := rfl

@[simp] theorem size_pushPair : (A.pushPair entry).2.size = A.size + 2 := by
  simp [pushPair]

theorem getElem?_pushPair_entry :
    (A.pushPair entry).2.states[A.size]? = some (entry ⟨A.size, A.size + 1⟩) := by
  have hne : A.size ≠ (A.push (entry ⟨A.size, A.size + 1⟩)).states.size := by simp [push, size]
  have hlast : (A.push (entry ⟨A.size, A.size + 1⟩)).states[A.size]? =
      some (entry ⟨A.size, A.size + 1⟩) := Array.getElem?_push_size
  rw [pushPair, push, Array.getElem?_push, if_neg hne, hlast]

theorem getElem?_pushPair_exit :
    (A.pushPair entry).2.states[A.size + 1]? = some { accept := true } := by
  have hsize : A.size + 1 = (A.push (entry ⟨A.size, A.size + 1⟩)).states.size := by
    simp [push, size]
  rw [hsize]
  exact Array.getElem?_push_size

variable {A} in
theorem getElem?_pushPair_of_lt (h : i < A.size) :
    (A.pushPair entry).2.states[i]? = A.states[i]? := by
  have h0 : i ≠ A.states.size := by unfold size at h; omega
  have h1 : i ≠ A.states.size + 1 := by unfold size at h; omega
  simp [pushPair, push, Array.getElem?_push, h0, h1]

end pushPair

/-! ## What stays -/

/-- All states of `A` are in `B`. Only the `exits` may have changed: they do not accept any more,
and edges that read nothing have been added. -/
def ChangesOnly (A B : Arena) (exits : List Nat) : Prop :=
  ∀ (i : Nat) (s : State), A.states[i]? = some s → ∃ t : State, B.states[i]? = some t ∧
    (t = s ∨ i ∈ exits ∧ t.accept = false ∧ t.edge = s.edge ∧ s.epsilons <+: t.epsilons)

namespace ChangesOnly

theorem trans (h : A.ChangesOnly B exits) (h' : B.ChangesOnly C exits) :
    A.ChangesOnly C exits := by
  intro i s hs
  obtain ⟨t, ht, hst⟩ := h i s hs
  obtain ⟨u, hu, htu⟩ := h' i t ht
  refine ⟨u, hu, ?_⟩
  obtain rfl | ⟨hi, haccept, hedge, hprefix⟩ := htu
  · exact hst
  · obtain rfl | ⟨-, -, hedge', hprefix'⟩ := hst
    · exact .inr ⟨hi, haccept, hedge, hprefix⟩
    · exact .inr ⟨hi, haccept, hedge.trans hedge', hprefix'.trans hprefix⟩

theorem redirect (A : Arena) (targets : List Nat) (hi : i ∈ exits) :
    A.ChangesOnly (A.redirect i targets) exits := by
  intro j s hs
  by_cases hij : i = j
  · subst hij
    exact ⟨_, getElem?_redirect_self hs, .inr ⟨hi, rfl, rfl, List.prefix_append _ _⟩⟩
  · exact ⟨s, (getElem?_redirect_of_ne hij).trans hs, .inl rfl⟩

theorem pushPair (A : Arena) (entry : Fragment → State) (exits : List Nat) :
    A.ChangesOnly (A.pushPair entry).2 exits :=
  fun _ s hs => ⟨s, (getElem?_pushPair_of_lt entry (lt_size_of_getElem? hs)).trans hs, .inl rfl⟩

theorem size_le (h : A.ChangesOnly B exits) : A.size ≤ B.size := by
  by_contra hlt
  obtain ⟨s, hs⟩ := exists_getElem? (Nat.lt_of_not_le hlt)
  obtain ⟨t, ht, -⟩ := h _ s hs
  exact Nat.lt_irrefl _ (lt_size_of_getElem? ht)

/-- A state that is no exit is as it was. -/
theorem getElem?_eq (h : A.ChangesOnly B exits) (hlt : i < A.size) (hi : i ∉ exits) :
    B.states[i]? = A.states[i]? := by
  obtain ⟨s, hs⟩ := exists_getElem? hlt
  obtain ⟨t, ht, rfl | ⟨hmem, -⟩⟩ := h i s hs
  · exact ht.trans hs.symm
  · exact absurd hmem hi

end ChangesOnly

/-- An operation changes no old states but the exits of its operands. -/
theorem changesOnly_perform (A : Arena) (op : Operation) :
    A.ChangesOnly (A.perform op).2 (op.operands.map Fragment.exit) := by
  cases op with
  | epsilon => exact .pushPair A _ _
  | symbol c => exact .pushPair A _ _
  | concat a b => exact .redirect A _ (by simp [Operation.operands])
  | union a b =>
    rw [perform, union_eq]
    refine ((ChangesOnly.pushPair A _ _).trans (.redirect _ _ ?_)).trans (.redirect _ _ ?_) <;>
      simp [Operation.operands]
  | repeated q a =>
    rw [perform, repeated_eq]
    exact (ChangesOnly.pushPair A _ _).trans (.redirect _ _ (by simp [Operation.operands]))

/-! ## Room for states -/

variable {x y : Fragment × Arena} {k : Fragment × Arena → Except RegexError (Fragment × Arena)}

theorem bounded_of_le (h : x.2.size ≤ limit) : bounded x = .ok x :=
  if_pos h

theorem bounded_of_lt (h : limit < x.2.size) : bounded x = .error .tooManyStates :=
  if_neg (Nat.not_le_of_lt h)

/-- If there is room for all that two operations make, there is room for what the first makes. -/
theorem bounded_bind (hsize : x.2.size ≤ y.2.size) (hk : x.2.size ≤ limit → k x = bounded y) :
    bounded x >>= k = bounded y := by
  by_cases h : x.2.size ≤ limit
  · rw [bounded_of_le h]
    exact hk h
  · rw [bounded_of_lt (by omega), bounded_of_lt (by omega)]
    rfl

theorem size_le_perform (A : Arena) (op : Operation) : A.size ≤ (A.perform op).2.size :=
  (A.changesOnly_perform op).size_le

/-! ## Operands in range -/

/-- Every edge leads to a state that is there. -/
def InRange (A : Arena) : Prop :=
  ∀ i j, Edge A.states i j → j < A.size

end Arena

def Fragment.In (f : Fragment) (A : Arena) : Prop :=
  f.entry < A.size ∧ f.exit < A.size

namespace Arena

/-- The arenas that come about when operators are applied, in any order and number, to any pairs
of states that are there, and when fragments are taken out. Where there is room for one more state
only, an operation fails and may leave behind the first of its states. -/
inductive Built : Arena → Prop
  | empty : Built {}
  | perform {A : Arena} (op : Operation) :
      Built A → (∀ f ∈ op.operands, f.In A) → Built (A.perform op).2
  | interrupted {A : Arena} {targets : List Nat} :
      Built A → (∀ j ∈ targets, j < A.size) → Built (A.push { epsilons := targets })
  | extract {A B : Arena} {f : Fragment} {a : Automaton} :
      Built A → A.extract f = .ok (a, B) → Built B

namespace InRange

theorem redirect (h : A.InRange) (htargets : ∀ j ∈ targets, j < A.size) :
    (A.redirect i targets).InRange := by
  rintro k j ⟨t, ht, hj⟩
  rw [size_redirect]
  by_cases hik : i = k
  · subst hik
    obtain ⟨s, hs⟩ := exists_getElem? (A.size_redirect i targets ▸ lt_size_of_getElem? ht)
    obtain rfl := Option.some.inj ((getElem?_redirect_self hs).symm.trans ht)
    obtain he | hj := State.mem_targets.mp hj
    · exact h i j ⟨s, hs, State.mem_targets.mpr (.inl he)⟩
    · obtain hj | hj := List.mem_append.mp hj
      · exact h i j (.silent hs hj)
      · exact htargets j hj
  · exact h k j ⟨t, (getElem?_redirect_of_ne hik).symm.trans ht, hj⟩

theorem push (h : A.InRange) (hs : ∀ j ∈ s.targets, j < A.size) : (A.push s).InRange := by
  rintro k j ⟨t, ht, hj⟩
  rw [size_push]
  rw [Arena.push, Array.getElem?_push] at ht
  split_ifs at ht with hk
  · obtain rfl := Option.some.inj ht
    exact Nat.lt_succ_of_lt (hs j hj)
  · exact Nat.lt_succ_of_lt (h k j ⟨t, ht, hj⟩)

theorem pushPair {entry : Fragment → State} (h : A.InRange)
    (hentry : ∀ j ∈ (entry ⟨A.size, A.size + 1⟩).targets, j < A.size + 2) :
    (A.pushPair entry).2.InRange := by
  rintro k j ⟨t, ht, hj⟩
  have hk := lt_size_of_getElem? ht
  rw [size_pushPair] at hk ⊢
  obtain hlt | rfl | rfl : k < A.size ∨ k = A.size ∨ k = A.size + 1 := by omega
  · have := h k j ⟨t, (getElem?_pushPair_of_lt entry hlt).symm.trans ht, hj⟩
    omega
  · obtain rfl := Option.some.inj ((getElem?_pushPair_entry A entry).symm.trans ht)
    exact hentry j hj
  · obtain rfl := Option.some.inj ((getElem?_pushPair_exit A entry).symm.trans ht)
    simp [State.targets] at hj

/-- Operands in range keep all edges in range. -/
theorem perform (h : A.InRange) (op : Operation) (hop : ∀ f ∈ op.operands, f.In A) :
    (A.perform op).2.InRange := by
  cases op with
  | epsilon => exact h.pushPair (by simp [State.targets])
  | symbol c => exact h.pushPair (by simp [State.targets])
  | concat a b =>
    have hb : b.In A := hop b (by simp [Operation.operands])
    exact h.redirect (by simpa using hb.1)
  | union a b =>
    have ha : a.In A := hop a (by simp [Operation.operands])
    have hb : b.In A := hop b (by simp [Operation.operands])
    rw [Arena.perform, union_eq]
    refine ((h.pushPair ?_).redirect ?_).redirect ?_
    · simp only [State.targets, Option.map_none, Option.toList_none, List.nil_append,
        List.mem_cons, List.not_mem_nil, or_false]
      intro j hj
      rcases hj with rfl | rfl
      · exact Nat.lt_add_right 2 ha.1
      · exact Nat.lt_add_right 2 hb.1
    · simp
    · simp
  | repeated q a =>
    have ha : a.In A := hop a (by simp [Operation.operands])
    rw [Arena.perform, repeated_eq]
    refine (h.pushPair ?_).redirect ?_
    · intro j hj
      obtain rfl | rfl : j = A.size + 1 ∨ j = a.entry := by
        cases q <;> simp [State.targets, Quantifier.skips] at hj <;> grind
      · omega
      · exact Nat.lt_add_right 2 ha.1
    · intro j hj
      rw [size_pushPair]
      obtain rfl | rfl : j = A.size + 1 ∨ j = a.entry := by
        cases q <;> simp [Quantifier.loops] at hj <;> grind
      · omega
      · exact Nat.lt_add_right 2 ha.1

end InRange

theorem extract_eq_ok_iff {a : Automaton} :
    A.extract f = .ok (a, B) ↔
      f.In A ∧ a = { states := A.states, entry := f.entry, exit := f.exit } ∧ B = {} := by
  unfold extract
  split_ifs with h
  · simp [Fragment.In, h, eq_comm]
  · simp [Fragment.In, h]

/-- However an arena is built, no edge leads out of it. -/
theorem Built.inRange (h : A.Built) : A.InRange := by
  induction h with
  | empty =>
    rintro i j ⟨s, hs, -⟩
    simp at hs
  | perform op _ hop ih => exact ih.perform op hop
  | interrupted _ htargets ih => exact ih.push (by simpa [State.targets] using htargets)
  | extract _ hf _ =>
    obtain ⟨-, -, rfl⟩ := extract_eq_ok_iff.mp hf
    rintro i j ⟨s, hs, -⟩
    simp at hs

/-- Whatever is built, a run never leaves the automaton, and it accepts a word exactly if a path
from the entry to an accepting state spells it. -/
theorem accepts_iff_exists_path_of_built {a : Automaton} (hA : A.Built)
    (hf : A.extract f = .ok (a, B)) :
    a.entry < a.size ∧ (∀ i j, Edge a.states i j → j < a.size) ∧
      ∀ w, a.accepts w = true ↔
        ∃ j s, Path a.states a.entry w j ∧ a.states[j]? = some s ∧ s.accept = true := by
  obtain ⟨hin, rfl, -⟩ := extract_eq_ok_iff.mp hf
  exact ⟨hin.1, hA.inRange, Automaton.accepts_iff _⟩

/-- Four states out of fragments that overlap: the first reads a byte and also goes on without
reading, to itself among others, and two states accept. -/
def tangle : Arena :=
  ((Arena.perform {} (.symbol 0x61)).2.perform (.repeated .star ⟨0, 0⟩)).2

theorem built_tangle : tangle.Built := by
  refine .perform (.repeated .star ⟨0, 0⟩) (.perform (.symbol 0x61) .empty ?_) ?_
  · simp [Operation.operands]
  · simp [Operation.operands, Fragment.In, perform]

theorem accepts_iff_exists_path_of_tangle :
    tangle.Built ∧ ∃ a, tangle.extract ⟨2, 1⟩ = .ok (a, {}) ∧
      a.entry < a.size ∧ (∀ i j, Edge a.states i j → j < a.size) ∧
      ∀ w, a.accepts w = true ↔
        ∃ j s, Path a.states a.entry w j ∧ a.states[j]? = some s ∧ s.accept = true := by
  have hextract : tangle.extract ⟨2, 1⟩ =
      .ok ({ states := tangle.states, entry := 2, exit := 1 }, {}) := rfl
  exact ⟨built_tangle, _, hextract, accepts_iff_exists_path_of_built built_tangle hextract⟩

end Arena

end RegexLab
