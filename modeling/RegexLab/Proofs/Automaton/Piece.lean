import RegexLab.Proofs.Automaton.Operation

/-!
# Fragments as closed pieces of an arena

A fragment that no operation has consumed occupies states of its own. It can be left nowhere, not
even at its exit, so an operation that redirects the exit decides alone where it leads to, and what
other operations do elsewhere does not matter to it.

## Main definitions

* `State.Inner` — the shape of a state inside a fragment.
* `Fragment.Occupies` — a fragment is made of the given states.
* `Fragment.Continues` — an operand after its exit was redirected.
-/

namespace RegexLab

variable {S T : Array State} {P Q R : Set Nat} {X : List Nat} {A : Arena} {f g : Fragment}
  {i j n e : Nat} {w : Bytes}

/-- The state does not accept, and either one edge reads or up to two edges do not. -/
def State.Inner (s : State) : Prop :=
  s.accept = false ∧
    (s.edge.isSome = true ∧ s.epsilons = [] ∨ s.edge = none ∧ s.epsilons.length ≤ 2)

theorem State.inner_of_epsilons {targets : List Nat} (h : targets.length ≤ 2) :
    State.Inner { epsilons := targets } :=
  ⟨rfl, .inr ⟨rfl, h⟩⟩

/-- The fragment is made of the states in `P`: they are left only where an operation adds an edge,
which it does at the exit. -/
structure Fragment.Occupies (f : Fragment) (S : Array State) (P : Set Nat) : Prop where
  entry_mem : f.entry ∈ P
  exit_mem : f.exit ∈ P
  entry_ne_exit : f.entry ≠ f.exit
  closed : ∀ i ∈ P, ∀ j, Edge S i j → j ∈ P
  entry_source : ∀ i ∈ P, ¬ Edge S i f.entry
  exit_state : S[f.exit]? = some { accept := true }
  inner : ∀ i ∈ P, i ≠ f.exit → ∃ s, S[i]? = some s ∧ s.Inner

namespace Fragment.Occupies

theorem lt_size (h : f.Occupies S P) (hi : i ∈ P) : i < S.size := by
  obtain rfl | hne := eq_or_ne i f.exit
  · exact (Array.getElem?_eq_some_iff.mp h.exit_state).1
  · obtain ⟨s, hs, -⟩ := h.inner i hi hne
    exact (Array.getElem?_eq_some_iff.mp hs).1

theorem exit_final (h : f.Occupies S P) : ¬ Edge S f.exit j := by
  rintro ⟨s, hs, hj⟩
  obtain rfl := Option.some.inj (h.exit_state.symm.trans hs)
  simp [State.targets] at hj

/-- What happens to other states is of no concern. -/
theorem of_agree (h : f.Occupies S P) (hT : ∀ i ∈ P, T[i]? = S[i]?) : f.Occupies T P where
  entry_mem := h.entry_mem
  exit_mem := h.exit_mem
  entry_ne_exit := h.entry_ne_exit
  closed i hi j he := h.closed i hi j (he.of_getElem?_eq (hT i hi).symm)
  entry_source i hi he := h.entry_source i hi (he.of_getElem?_eq (hT i hi).symm)
  exit_state := (hT _ h.exit_mem).trans h.exit_state
  inner i hi hne := by
    obtain ⟨s, hs, hinner⟩ := h.inner i hi hne
    exact ⟨s, (hT i hi).trans hs, hinner⟩

/-- A new entry and a new exit around a body that leads nowhere but to itself and to the exit. -/
theorem enclose {s : State} (hn : n ∉ R) (he : e ∉ R) (hne : n ≠ e) (hentry : T[n]? = some s)
    (hinner : s.Inner) (hexit : T[e]? = some { accept := true })
    (htargets : ∀ j ∈ s.targets, j ∈ R ∨ j = e)
    (hbody : ∀ i ∈ R, ∃ t, T[i]? = some t ∧ t.Inner)
    (hclosed : ∀ i ∈ R, ∀ j, Edge T i j → j ∈ R ∨ j = e) :
    (⟨n, e⟩ : Fragment).Occupies T (insert n (insert e R)) := by
  -- The edges of all states of the piece lead to the body and to the exit.
  have hedge : ∀ i ∈ insert n (insert e R), ∀ j, Edge T i j → j ∈ R ∨ j = e := by
    intro i hi j hij
    rcases hi with rfl | rfl | hi
    · obtain ⟨t, ht, hj⟩ := hij
      obtain rfl := Option.some.inj (hentry.symm.trans ht)
      exact htargets j hj
    · obtain ⟨t, ht, hj⟩ := hij
      obtain rfl := Option.some.inj (hexit.symm.trans ht)
      simp [State.targets] at hj
    · exact hclosed i hi j hij
  refine ⟨.inl rfl, .inr (.inl rfl), hne, ?_, ?_, hexit, ?_⟩
  · intro i hi j hij
    obtain hj | rfl := hedge i hi j hij
    · exact .inr (.inr hj)
    · exact .inr (.inl rfl)
  · intro i hi hij
    obtain hj | hj := hedge i hi n hij
    · exact hn hj
    · exact hne hj
  · intro i hi hie
    rcases hi with rfl | rfl | hi
    · exact ⟨s, hentry, hinner⟩
    · exact absurd rfl hie
    · exact hbody i hi

end Fragment.Occupies

/-! ## Operands -/

/-- The fragment that is made of `P` in `S` goes on from its exit to `X` in `T`. -/
structure Fragment.Continues (f : Fragment) (S T : Array State) (P : Set Nat) (X : List Nat) :
    Prop where
  occupies : f.Occupies S P
  exit_state : T[f.exit]? = some { epsilons := X }
  rest : ∀ i ∈ P, i ≠ f.exit → T[i]? = S[i]?

namespace Fragment.Continues

theorem edge (h : f.Continues S T P X) (hi : i ∈ P) (hij : Edge T i j) :
    j ∈ P ∧ Edge S i j ∨ i = f.exit ∧ j ∈ X := by
  obtain rfl | hne := eq_or_ne i f.exit
  · obtain ⟨t, ht, hj⟩ := hij
    obtain rfl := Option.some.inj (h.exit_state.symm.trans ht)
    exact .inr ⟨rfl, by simpa [State.targets] using hj⟩
  · have hS := hij.of_getElem?_eq (h.rest i hi hne).symm
    exact .inl ⟨h.occupies.closed i hi j hS, hS⟩

theorem inner (h : f.Continues S T P X) (hX : X.length ≤ 2) (hi : i ∈ P) :
    ∃ s, T[i]? = some s ∧ s.Inner := by
  obtain rfl | hne := eq_or_ne i f.exit
  · exact ⟨_, h.exit_state, State.inner_of_epsilons hX⟩
  · obtain ⟨s, hs, hinner⟩ := h.occupies.inner i hi hne
    exact ⟨s, (h.rest i hi hne).trans hs, hinner⟩

/-- Of the states before, only those of the fragment matter. -/
theorem of_agree_left {S' : Array State} (h : f.Continues S' T P X) (hf : f.Occupies S P)
    (hS : ∀ i ∈ P, S'[i]? = S[i]?) : f.Continues S T P X :=
  ⟨hf, h.exit_state, fun i hi hne => (h.rest i hi hne).trans (hS i hi)⟩

/-- Of the states after, only those of the fragment matter. -/
theorem of_agree_right {T' : Array State} (h : f.Continues S T P X)
    (hT : ∀ i ∈ P, T'[i]? = T[i]?) : f.Continues S T' P X :=
  ⟨h.occupies, (hT _ h.occupies.exit_mem).trans h.exit_state,
    fun i hi hne => (hT i hi).trans (h.rest i hi hne)⟩

theorem redirect (h : f.Occupies A.states P) (X : List Nat) :
    f.Continues A.states (A.redirect f.exit X).states P X :=
  ⟨h, Arena.getElem?_redirect_self h.exit_state,
    fun _ _ hne => Arena.getElem?_redirect_of_ne hne.symm⟩

end Fragment.Continues

namespace Arena

variable {a b : Fragment}

theorem getElem?_redirect_of_mem (ha : i ∈ P) (hb : j ∈ Q) (hd : Disjoint P Q) (X : List Nat) :
    (A.redirect i X).states[j]? = A.states[j]? := by
  refine getElem?_redirect_of_ne ?_
  rintro rfl
  exact Set.disjoint_left.mp hd ha hb

/-- The first operand of a concatenation goes on to the second. -/
theorem continues_concat (ha : a.Occupies A.states P) :
    a.Continues A.states (A.concat a b).2.states P [b.entry] :=
  .redirect ha _

theorem getElem?_concat (ha : a.Occupies A.states P) (hd : Disjoint P Q) :
    ∀ i ∈ Q, (A.concat a b).2.states[i]? = A.states[i]? :=
  fun _ hi => getElem?_redirect_of_mem ha.exit_mem hi hd _

theorem continues_union (ha : a.Occupies A.states P) (hb : b.Occupies A.states Q)
    (hd : Disjoint P Q) :
    a.Continues A.states (A.union a b).2.states P [A.size + 1] ∧
      b.Continues A.states (A.union a b).2.states Q [A.size + 1] := by
  rw [union_eq]
  set A₁ := (A.pushPair fun _ => { epsilons := [a.entry, b.entry] }).2
  have hP : ∀ i ∈ P, A₁.states[i]? = A.states[i]? :=
    fun i hi => getElem?_pushPair_of_lt _ (ha.lt_size hi)
  have hQ : ∀ i ∈ Q, A₁.states[i]? = A.states[i]? :=
    fun i hi => getElem?_pushPair_of_lt _ (hb.lt_size hi)
  have hQ' : ∀ i ∈ Q, (A₁.redirect a.exit [A.size + 1]).states[i]? = A.states[i]? :=
    fun i hi => (getElem?_redirect_of_mem ha.exit_mem hi hd _).trans (hQ i hi)
  constructor
  · have h := (Fragment.Continues.redirect (ha.of_agree hP) [A.size + 1]).of_agree_left ha hP
    exact h.of_agree_right fun i hi => getElem?_redirect_of_mem hb.exit_mem hi hd.symm _
  · exact (Fragment.Continues.redirect (hb.of_agree hQ') [A.size + 1]).of_agree_left hb hQ'

theorem getElem?_union_pair (ha : a.exit < A.size) (hb : b.exit < A.size) :
    (A.union a b).2.states[A.size]? = some { epsilons := [a.entry, b.entry] } ∧
      (A.union a b).2.states[A.size + 1]? = some { accept := true } := by
  rw [union_eq]
  constructor
  · rw [getElem?_redirect_of_ne (by omega), getElem?_redirect_of_ne (by omega)]
    exact getElem?_pushPair_entry A _
  · rw [getElem?_redirect_of_ne (by omega), getElem?_redirect_of_ne (by omega)]
    exact getElem?_pushPair_exit A _

theorem continues_repeated (q : Quantifier) (ha : a.Occupies A.states P) :
    a.Continues A.states (A.repeated q a).2.states P
      ((A.size + 1) :: if q.loops then [a.entry] else []) := by
  rw [repeated_eq]
  have hP : ∀ i ∈ P, (A.pushPair fun f =>
      { epsilons := (if q.skips then [f.exit] else []) ++ [a.entry] }).2.states[i]? =
        A.states[i]? := fun i hi => getElem?_pushPair_of_lt _ (ha.lt_size hi)
  exact (Fragment.Continues.redirect (ha.of_agree hP) _).of_agree_left ha hP

theorem getElem?_repeated_pair (q : Quantifier) (ha : a.exit < A.size) :
    (A.repeated q a).2.states[A.size]? =
        some { epsilons := (if q.skips then [A.size + 1] else []) ++ [a.entry] } ∧
      (A.repeated q a).2.states[A.size + 1]? = some { accept := true } := by
  rw [repeated_eq]
  constructor
  · rw [getElem?_redirect_of_ne (by omega)]
    exact getElem?_pushPair_entry A _
  · rw [getElem?_redirect_of_ne (by omega)]
    exact getElem?_pushPair_exit A _

/-! ## The fragment that an operation makes -/

theorem occupies_epsilon (A : Arena) :
    A.epsilon.1.Occupies A.epsilon.2.states (insert A.size (insert (A.size + 1) ∅)) := by
  refine .enclose (by simp) (by simp) (by simp) (getElem?_pushPair_entry A _)
    (State.inner_of_epsilons (by simp)) (getElem?_pushPair_exit A _) ?_ (by simp) (by simp)
  simp [State.targets]

theorem occupies_symbol (A : Arena) (c : UInt8) :
    (A.symbol c).1.Occupies (A.symbol c).2.states (insert A.size (insert (A.size + 1) ∅)) := by
  refine .enclose (by simp) (by simp) (by simp) (getElem?_pushPair_entry A _)
    ⟨rfl, .inl ⟨rfl, rfl⟩⟩ (getElem?_pushPair_exit A _) ?_ (by simp) (by simp)
  simp [State.targets]

theorem occupies_concat (ha : a.Occupies A.states P) (hb : b.Occupies A.states Q)
    (hd : Disjoint P Q) :
    (A.concat a b).1.Occupies (A.concat a b).2.states (P ∪ Q) := by
  have hcont := continues_concat (b := b) ha
  have hrest := hb.of_agree (getElem?_concat (b := b) ha hd)
  have hne : ∀ i ∈ P, ∀ j ∈ Q, i ≠ j := fun i hi j hj => by
    rintro rfl
    exact Set.disjoint_left.mp hd hi hj
  refine ⟨.inl ha.entry_mem, .inr hb.exit_mem, hne _ ha.entry_mem _ hb.exit_mem, ?_, ?_,
    hrest.exit_state, ?_⟩
  · intro i hi j hij
    rcases hi with hi | hi
    · obtain ⟨hj, -⟩ | ⟨-, hj⟩ := hcont.edge hi hij
      · exact .inl hj
      · obtain rfl := List.mem_singleton.mp hj
        exact .inr hb.entry_mem
    · exact .inr (hrest.closed i hi j hij)
  · intro i hi hij
    rcases hi with hi | hi
    · obtain ⟨-, hedge⟩ | ⟨-, hj⟩ := hcont.edge hi hij
      · exact ha.entry_source i hi hedge
      · exact hne _ ha.entry_mem _ hb.entry_mem (List.mem_singleton.mp hj)
    · exact hne _ ha.entry_mem _ (hrest.closed i hi _ hij) rfl
  · intro i hi hie
    rcases hi with hi | hi
    · exact hcont.inner (by simp) hi
    · exact hrest.inner i hi hie

theorem occupies_union (ha : a.Occupies A.states P) (hb : b.Occupies A.states Q)
    (hd : Disjoint P Q) :
    (A.union a b).1.Occupies (A.union a b).2.states
      (insert A.size (insert (A.size + 1) (P ∪ Q))) := by
  obtain ⟨hacont, hbcont⟩ := continues_union ha hb hd
  obtain ⟨hentry, hexit⟩ := getElem?_union_pair (ha.lt_size ha.exit_mem) (hb.lt_size hb.exit_mem)
  have hlt : ∀ i ∈ P ∪ Q, i < A.size := by
    intro i hi
    rcases hi with hi | hi
    · exact ha.lt_size hi
    · exact hb.lt_size hi
  refine .enclose (fun h => by have := hlt _ h; omega) (fun h => by have := hlt _ h; omega)
    (by simp) hentry (State.inner_of_epsilons (by simp)) hexit ?_ ?_ ?_
  · simp only [State.targets, Option.map_none, Option.toList_none, List.nil_append,
      List.mem_cons, List.not_mem_nil, or_false]
    intro j hj
    rcases hj with rfl | rfl
    · exact .inl (.inl ha.entry_mem)
    · exact .inl (.inr hb.entry_mem)
  · intro i hi
    rcases hi with hi | hi
    · exact hacont.inner (by simp) hi
    · exact hbcont.inner (by simp) hi
  · intro i hi j hij
    rcases hi with hi | hi
    · obtain ⟨hj, -⟩ | ⟨-, hj⟩ := hacont.edge hi hij
      · exact .inl (.inl hj)
      · exact .inr (List.mem_singleton.mp hj)
    · obtain ⟨hj, -⟩ | ⟨-, hj⟩ := hbcont.edge hi hij
      · exact .inl (.inr hj)
      · exact .inr (List.mem_singleton.mp hj)

theorem occupies_repeated (q : Quantifier) (ha : a.Occupies A.states P) :
    (A.repeated q a).1.Occupies (A.repeated q a).2.states
      (insert A.size (insert (A.size + 1) P)) := by
  have hcont := continues_repeated q ha
  obtain ⟨hentry, hexit⟩ := getElem?_repeated_pair q (ha.lt_size ha.exit_mem)
  have hpair : (A.repeated q a).1 = ⟨A.size, A.size + 1⟩ := by rw [repeated_eq]
  have hlt : ∀ i ∈ P, i < A.size := fun i hi => ha.lt_size hi
  rw [hpair]
  refine .enclose (fun h => by have := hlt _ h; omega) (fun h => by have := hlt _ h; omega)
    (by simp) hentry (State.inner_of_epsilons ?_) hexit ?_ ?_ ?_
  · cases q.skips <;> simp
  · intro j hj
    obtain rfl | rfl : j = A.size + 1 ∨ j = a.entry := by
      cases h : q.skips <;> simp [State.targets, h] at hj <;> grind
    · exact .inr rfl
    · exact .inl ha.entry_mem
  · refine fun i hi => hcont.inner ?_ hi
    cases q.loops <;> simp
  · intro i hi j hij
    obtain ⟨hj, -⟩ | ⟨-, hj⟩ := hcont.edge hi hij
    · exact .inl hj
    · obtain rfl | rfl : j = A.size + 1 ∨ j = a.entry := by
        cases h : q.loops <;> simp [h] at hj <;> grind
      · exact .inr rfl
      · exact .inl ha.entry_mem

end Arena

def Operation.piece (op : Operation) (A : Arena) (part : Fragment → Set Nat) : Set Nat :=
  {i | (∃ f ∈ op.operands, i ∈ part f) ∨ A.size ≤ i ∧ i < (A.perform op).2.size}

theorem Arena.occupies_perform (op : Operation) (part : Fragment → Set Nat)
    (hocc : ∀ f ∈ op.operands, f.Occupies A.states (part f))
    (hd : op.operands.Pairwise fun f g => Disjoint (part f) (part g)) :
    (A.perform op).1.Occupies (A.perform op).2.states (op.piece A part) := by
  have hpair : ∀ i, A.size ≤ i ∧ i < A.size + 2 ↔ i = A.size ∨ i = A.size + 1 :=
    fun i => by omega
  cases op with
  | epsilon =>
    have hpiece : Operation.epsilon.piece A part = insert A.size (insert (A.size + 1) ∅) := by
      ext i
      simp [Operation.piece, Operation.operands, Arena.perform, hpair]
    exact hpiece ▸ A.occupies_epsilon
  | symbol c =>
    have hpiece : (Operation.symbol c).piece A part = insert A.size (insert (A.size + 1) ∅) := by
      ext i
      simp [Operation.piece, Operation.operands, Arena.perform, hpair]
    exact hpiece ▸ A.occupies_symbol c
  | concat a b =>
    have hab : Disjoint (part a) (part b) := by simpa [Operation.operands] using hd
    have hpiece : (Operation.concat a b).piece A part = part a ∪ part b := by
      ext i
      simp [Operation.piece, Operation.operands, Arena.perform]
    exact hpiece ▸ Arena.occupies_concat (hocc a (by simp [Operation.operands]))
      (hocc b (by simp [Operation.operands])) hab
  | union a b =>
    have hab : Disjoint (part a) (part b) := by simpa [Operation.operands] using hd
    have hpiece : (Operation.union a b).piece A part =
        insert A.size (insert (A.size + 1) (part a ∪ part b)) := by
      ext i
      simp [Operation.piece, Operation.operands, Arena.perform, hpair]
      grind
    exact hpiece ▸ Arena.occupies_union (hocc a (by simp [Operation.operands]))
      (hocc b (by simp [Operation.operands])) hab
  | repeated q a =>
    have hpiece : (Operation.repeated q a).piece A part =
        insert A.size (insert (A.size + 1) (part a)) := by
      ext i
      simp [Operation.piece, Operation.operands, Arena.perform, Arena.repeated_eq, hpair]
      grind
    exact hpiece ▸ Arena.occupies_repeated q (hocc a (by simp [Operation.operands]))

end RegexLab
