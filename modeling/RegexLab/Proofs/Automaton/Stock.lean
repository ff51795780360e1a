import Mathlib.Data.List.Pairwise
import RegexLab.Proofs.Automaton.Piece

/-!
# Building with each fragment used once

A fragment is in stock from the operation that makes it to the operation that consumes it. As long
as operands are taken from the stock, the fragments in stock share out the states of the arena:
each has its own, with one way in and one way out.

## Main definitions

* `Stock` — an arena with the fragments in stock.
* `Stock.step`, `Stock.run` — one operation, and several in a row.
* `Stock.Parted` — the invariant: every state belongs to one fragment in stock.
* `Fragment.Isolated` — what it means for a fragment to be on its own in an arena.
-/

namespace RegexLab

/-- An arena with the fragments that have been made in it and not consumed yet. -/
structure Stock where
  arena : Arena := {}
  live : List Fragment := []
deriving DecidableEq, Repr

namespace Stock

/-- Apply an operator to different fragments in stock. The fragment that it makes takes their
place. -/
def step (W : Stock) (op : Operation) : Option Stock :=
  if op.operands.Nodup ∧ ∀ f ∈ op.operands, f ∈ W.live then
    some { arena := (W.arena.perform op).2
           live := (W.arena.perform op).1 :: W.live.filter (· ∉ op.operands) }
  else none

def run (W : Stock) : List Operation → Option Stock
  | [] => some W
  | op :: ops => (W.step op).bind (run · ops)

variable {W W' : Stock} {op : Operation} {ops : List Operation} {part : Fragment → Set Nat}
  {f : Fragment} {i j : Nat}

theorem step_eq_some_iff :
    W.step op = some W' ↔ op.operands.Nodup ∧ (∀ f ∈ op.operands, f ∈ W.live) ∧
      W' = ⟨(W.arena.perform op).2, (W.arena.perform op).1 :: W.live.filter (· ∉ op.operands)⟩ := by
  unfold step
  split_ifs with h
  · simp [h.1, eq_comm, and_iff_right h.2]
  · simp only [false_iff]
    exact fun ⟨hnodup, hlive, _⟩ => h ⟨hnodup, hlive⟩

/-! ## Every state belongs to one fragment in stock -/

/-- The fragments in stock share out the states of the arena. -/
structure Parted (W : Stock) (part : Fragment → Set Nat) : Prop where
  covers : ∀ i, i < W.arena.size ↔ ∃ f ∈ W.live, i ∈ part f
  disjoint : W.live.Pairwise fun f g => Disjoint (part f) (part g)
  occupies : ∀ f ∈ W.live, f.Occupies W.arena.states (part f)

theorem Parted.init (part : Fragment → Set Nat) : Parted {} part where
  covers i := by simp [Arena.size]
  disjoint := .nil
  occupies := by simp

namespace Parted

theorem disjoint_of_ne (h : W.Parted part) {g : Fragment} (hf : f ∈ W.live) (hg : g ∈ W.live)
    (hne : f ≠ g) : Disjoint (part f) (part g) := by
  have : Std.Symm fun f g => Disjoint (part f) (part g) := ⟨fun _ _ hd => hd.symm⟩
  exact h.disjoint.forall hf hg hne

/-- A fragment that is not consumed shares no state with the piece that is made. -/
theorem disjoint_piece (h : W.Parted part) (hlive : ∀ g ∈ op.operands, g ∈ W.live)
    (hf : f ∈ W.live) (hnot : f ∉ op.operands) :
    Disjoint (op.piece W.arena part) (part f) := by
  rw [Set.disjoint_left]
  intro i hi hif
  rcases hi with ⟨g, hg, hi⟩ | ⟨hle, -⟩
  · have hne : g ≠ f := fun heq => hnot (heq ▸ hg)
    exact Set.disjoint_left.mp (h.disjoint_of_ne (hlive g hg) hf hne) hi hif
  · have := (h.covers i).mpr ⟨f, hf, hif⟩
    omega

/-- A fragment that is not consumed keeps its states as they are. -/
theorem getElem?_perform (h : W.Parted part) (hlive : ∀ g ∈ op.operands, g ∈ W.live)
    (hf : f ∈ W.live) (hnot : f ∉ op.operands) :
    ∀ i ∈ part f, (W.arena.perform op).2.states[i]? = W.arena.states[i]? := by
  intro i hi
  refine (W.arena.changesOnly_perform op).getElem?_eq ((h.covers i).mpr ⟨f, hf, hi⟩) ?_
  intro hmem
  obtain ⟨g, hg, rfl⟩ := List.mem_map.mp hmem
  have hne : g ≠ f := fun heq => hnot (heq ▸ hg)
  exact Set.disjoint_left.mp (h.disjoint_of_ne (hlive g hg) hf hne)
    (h.occupies g (hlive g hg)).exit_mem hi

section Operands

variable (h : W.Parted part) (hnodup : op.operands.Nodup) (hlive : ∀ g ∈ op.operands, g ∈ W.live)

include h hnodup hlive

theorem occupies_result :
    (W.arena.perform op).1.Occupies (W.arena.perform op).2.states (op.piece W.arena part) := by
  refine Arena.occupies_perform op part (fun f hf => h.occupies f (hlive f hf)) ?_
  exact hnodup.imp_of_mem fun hf hg hne => h.disjoint_of_ne (hlive _ hf) (hlive _ hg) hne

/-- A fragment that is not consumed differs from the new one. -/
theorem ne_result (hf : f ∈ W.live) (hnot : f ∉ op.operands) : f ≠ (W.arena.perform op).1 := by
  rintro rfl
  exact Set.disjoint_left.mp (h.disjoint_piece hlive hf hnot)
    (h.occupies_result hnodup hlive).entry_mem (h.occupies _ hf).entry_mem

/-- A fragment that is not consumed keeps its part. -/
theorem update_of_kept (hf : f ∈ W.live) (hnot : f ∉ op.operands) :
    Function.update part (W.arena.perform op).1 (op.piece W.arena part) f = part f :=
  Function.update_of_ne (h.ne_result hnodup hlive hf hnot) _ _

/-- A state belongs to the piece that is made or to a fragment that is not consumed. -/
theorem covers_perform : i < (W.arena.perform op).2.size ↔
    i ∈ op.piece W.arena part ∨ ∃ f, (f ∈ W.live ∧ f ∉ op.operands) ∧ i ∈ part f := by
  constructor
  · intro hi
    by_cases hlt : i < W.arena.size
    · obtain ⟨f, hf, hif⟩ := (h.covers i).mp hlt
      by_cases hop : f ∈ op.operands
      · exact .inl (.inl ⟨f, hop, hif⟩)
      · exact .inr ⟨f, ⟨hf, hop⟩, hif⟩
    · exact .inl (.inr ⟨Nat.le_of_not_lt hlt, hi⟩)
  · intro hi
    cases hi with
    | inl hi => exact (h.occupies_result hnodup hlive).lt_size hi
    | inr hi =>
      obtain ⟨f, ⟨hf, -⟩, hif⟩ := hi
      have hlt := (h.covers i).mpr ⟨f, hf, hif⟩
      exact hlt.trans_le (W.arena.changesOnly_perform op).size_le

end Operands

/-- An operation on fragments in stock leaves all states shared out. -/
theorem step (h : W.Parted part) (hstep : W.step op = some W') :
    W'.Parted (Function.update part (W.arena.perform op).1 (op.piece W.arena part)) := by
  obtain ⟨hnodup, hlive, rfl⟩ := step_eq_some_iff.mp hstep
  have hkept : ∀ f, f ∈ W.live.filter (· ∉ op.operands) ↔ f ∈ W.live ∧ f ∉ op.operands := by
    simp
  have hpart : ∀ f ∈ W.live.filter (· ∉ op.operands),
      Function.update part (W.arena.perform op).1 (op.piece W.arena part) f = part f :=
    fun f hf => h.update_of_kept hnodup hlive ((hkept f).mp hf).1 ((hkept f).mp hf).2
  refine ⟨fun i => ?_, ?_, ?_⟩
  · have hrest : (∃ f, (f ∈ W.live ∧ f ∉ op.operands) ∧ i ∈ part f) ↔
        ∃ f ∈ W.live.filter (· ∉ op.operands),
          i ∈ Function.update part (W.arena.perform op).1 (op.piece W.arena part) f := by
      refine exists_congr fun f => ?_
      rw [hkept f]
      refine and_congr_right fun hf => ?_
      rw [hpart f ((hkept f).mpr hf)]
    refine (h.covers_perform hnodup hlive).trans ?_
    rw [hrest]
    simp only [List.mem_cons, exists_eq_or_imp, Function.update_self]
  · refine List.pairwise_cons.mpr ⟨fun f hf => ?_, ?_⟩
    · rw [Function.update_self, hpart f hf]
      exact h.disjoint_piece hlive ((hkept f).mp hf).1 ((hkept f).mp hf).2
    · refine (h.disjoint.sublist List.filter_sublist).imp_of_mem fun {f g} hf hg hd => ?_
      rwa [hpart f hf, hpart g hg]
  · intro f hf
    cases List.mem_cons.mp hf with
    | inl hresult =>
      rw [hresult, Function.update_self]
      exact h.occupies_result hnodup hlive
    | inr hf =>
      rw [hpart f hf]
      obtain ⟨hmem, hnot⟩ := (hkept f).mp hf
      exact (h.occupies f hmem).of_agree (h.getElem?_perform hlive hmem hnot)

theorem run (h : W.Parted part) (hrun : W.run ops = some W') : ∃ part', W'.Parted part' := by
  induction ops generalizing W part with
  | nil =>
    obtain rfl := Option.some.inj hrun
    exact ⟨part, h⟩
  | cons op ops ih =>
    obtain ⟨V, hstep, hrun⟩ := Option.bind_eq_some_iff.mp hrun
    exact ih (h.step hstep) hrun

end Parted

end Stock

/-! ## Fragments on their own -/

/-- The fragment is on its own in the states `P` of the arena: no edge leads in or out, it is
entered at one end and left at the other, and each state either reads or has up to two edges that
do not. -/
structure Fragment.Isolated (f : Fragment) (A : Arena) (P : Set Nat) : Prop where
  entry_mem : f.entry ∈ P
  exit_mem : f.exit ∈ P
  entry_ne_exit : f.entry ≠ f.exit
  edge_iff : ∀ i j, Edge A.states i j → (i ∈ P ↔ j ∈ P)
  accept_iff : ∀ i ∈ P, ∀ s, A.states[i]? = some s → (s.accept = true ↔ i = f.exit)
  exit_final : ∀ j, ¬ Edge A.states f.exit j
  entry_initial : ∀ i, ¬ Edge A.states i f.entry
  shape : ∀ i ∈ P, ∃ s, A.states[i]? = some s ∧
    (s.edge.isSome = true ∧ s.epsilons = [] ∨ s.edge = none ∧ s.epsilons.length ≤ 2)

namespace Stock

variable {W W' : Stock} {op : Operation} {ops : List Operation} {part : Fragment → Set Nat}
  {f : Fragment}

theorem Parted.isolated (h : W.Parted part) (hf : f ∈ W.live) :
    f.Isolated W.arena (part f) := by
  have hocc := h.occupies f hf
  -- An edge into the part comes from some part, which it does not leave.
  have hedge : ∀ i j, Edge W.arena.states i j → (i ∈ part f ↔ j ∈ part f) := by
    intro i j hij
    refine ⟨fun hi => hocc.closed i hi j hij, fun hj => ?_⟩
    obtain ⟨g, hg, hi⟩ := (h.covers i).mp hij.lt_size
    obtain rfl | hne := eq_or_ne f g
    · exact hi
    · have hj' := (h.occupies g hg).closed i hi j hij
      exact absurd hj' (Set.disjoint_left.mp (h.disjoint_of_ne hf hg hne) hj)
  refine ⟨hocc.entry_mem, hocc.exit_mem, hocc.entry_ne_exit, hedge, ?_,
    fun _ => hocc.exit_final, ?_, ?_⟩
  · intro i hi s hs
    obtain rfl | hne := eq_or_ne i f.exit
    · obtain rfl := Option.some.inj (hocc.exit_state.symm.trans hs)
      simp
    · obtain ⟨t, ht, hinner⟩ := hocc.inner i hi hne
      obtain rfl := Option.some.inj (ht.symm.trans hs)
      simp [hinner.1, hne]
  · intro i hij
    exact hocc.entry_source i ((hedge _ _ hij).mpr hocc.entry_mem) hij
  · intro i hi
    obtain rfl | hne := eq_or_ne i f.exit
    · exact ⟨_, hocc.exit_state, .inr ⟨rfl, by simp⟩⟩
    · obtain ⟨s, hs, hinner⟩ := hocc.inner i hi hne
      exact ⟨s, hs, hinner.2⟩

/-- After every run on fragments in stock each state of the arena belongs to exactly one of them,
and these are on their own there. Whatever is done next changes no old state but the exits of the
operands. -/
theorem isolated_of_run (h : run {} ops = some W) :
    (∃ part : Fragment → Set Nat,
      (∀ i, i < W.arena.size ↔ ∃ f ∈ W.live, i ∈ part f) ∧
      (W.live.Pairwise fun f g => Disjoint (part f) (part g)) ∧
      ∀ f ∈ W.live, f.Isolated W.arena (part f)) ∧
    (∀ i j, Edge W.arena.states i j → j < W.arena.size) ∧
    ∀ op W', W.step op = some W' →
      W.arena.ChangesOnly W'.arena (op.operands.map Fragment.exit) := by
  obtain ⟨part, hpart⟩ := (Parted.init fun _ => ∅).run h
  refine ⟨⟨part, hpart.covers, hpart.disjoint, fun f hf => hpart.isolated hf⟩, ?_, ?_⟩
  · intro i j hij
    obtain ⟨f, hf, hi⟩ := (hpart.covers i).mp hij.lt_size
    exact (hpart.covers j).mpr ⟨f, hf, (hpart.occupies f hf).closed i hi j hij⟩
  · intro op W' hstep
    obtain ⟨-, -, rfl⟩ := step_eq_some_iff.mp hstep
    exact W.arena.changesOnly_perform op

def loopAndSymbol : Stock where
  arena := { states := #[
    { edge := some (0x61, 1) }, { epsilons := [2] }, { edge := some (0x62, 3) },
    { epsilons := [7, 0] }, { edge := some (0x63, 5) }, { accept := true },
    { epsilons := [7, 0] }, { accept := true }] }
  live := [⟨6, 7⟩, ⟨4, 5⟩]

theorem isolated_of_run_loopAndSymbol :
    run {} [.symbol 0x61, .symbol 0x62, .concat ⟨0, 1⟩ ⟨2, 3⟩, .symbol 0x63,
      .repeated .star ⟨0, 3⟩] = some loopAndSymbol ∧
    (∃ part : Fragment → Set Nat,
      (∀ i, i < loopAndSymbol.arena.size ↔ ∃ f ∈ loopAndSymbol.live, i ∈ part f) ∧
      (loopAndSymbol.live.Pairwise fun f g => Disjoint (part f) (part g)) ∧
      ∀ f ∈ loopAndSymbol.live, f.Isolated loopAndSymbol.arena (part f)) ∧
    (∀ i j, Edge loopAndSymbol.arena.states i j → j < loopAndSymbol.arena.size) ∧
    ∀ op W', loopAndSymbol.step op = some W' →
      loopAndSymbol.arena.ChangesOnly W'.arena (op.operands.map Fragment.exit) := by
  have hrun : run {} [.symbol 0x61, .symbol 0x62, .concat ⟨0, 1⟩ ⟨2, 3⟩, .symbol 0x63,
      .repeated .star ⟨0, 3⟩] = some loopAndSymbol := by decide
  exact ⟨hrun, isolated_of_run hrun⟩

end Stock

end RegexLab
