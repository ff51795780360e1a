import Mathlib.Algebra.GroupWithZero.Nat
import RegexLab.Proofs.Regex.Assembly

/-!
# The size of an automaton

Every operator but concatenation adds two states, and each operator adds a fixed number of edges.
Where the operands stand in the arena does not matter, so the size of an automaton can be read off
the regular expression.

## Main definitions

* `Arena.edgeCount` — the number of edges in an arena.
* `Regex.stateCount`, `Regex.edgeCount` — the size of the automaton of a regular expression.
-/

namespace RegexLab

variable {A : Arena} {a b : Fragment} {i : Nat} {targets : List Nat}

def Quantifier.edgeCount : Quantifier → Nat
  | star => 4
  | plus | opt => 3

/-! ## Edges in an arena -/

namespace Arena

def edgeCount (A : Arena) : Nat :=
  (A.states.toList.map State.degree).sum

@[simp] theorem edgeCount_push (A : Arena) (s : State) :
    (A.push s).edgeCount = A.edgeCount + s.degree := by
  simp [edgeCount, push]

@[simp] theorem edgeCount_pushPair (A : Arena) (entry : Fragment → State) :
    (A.pushPair entry).2.edgeCount = A.edgeCount + (entry ⟨A.size, A.size + 1⟩).degree := by
  simp [pushPair, State.degree]

/-- One state is redirected, and gets all the new edges. -/
theorem edgeCount_redirect (h : i < A.size) :
    (A.redirect i targets).edgeCount = A.edgeCount + targets.length := by
  obtain ⟨before, s, after, hstates, -, hmodify⟩ := List.exists_of_modify
    (fun s : State => { s with accept := false, epsilons := s.epsilons ++ targets })
    (show i < A.states.toList.length from h)
  rw [edgeCount, redirect, Array.toList_modify, hmodify, edgeCount, hstates]
  simp only [List.map_append, List.map_cons, List.sum_append, List.sum_cons, State.degree,
    List.length_append]
  omega

theorem edgeCount_symbol (A : Arena) (c : UInt8) :
    (A.symbol c).2.edgeCount = A.edgeCount + 1 := by
  simp [symbol, State.degree]

theorem edgeCount_concat (ha : a.exit < A.size) :
    (A.concat a b).2.edgeCount = A.edgeCount + 1 :=
  edgeCount_redirect ha

theorem edgeCount_union (ha : a.exit < A.size) (hb : b.exit < A.size) :
    (A.union a b).2.edgeCount = A.edgeCount + 4 := by
  rw [union_eq, edgeCount_redirect, edgeCount_redirect, edgeCount_pushPair]
  · simp [State.degree]
  · rw [size_pushPair]
    omega
  · rw [size_redirect, size_pushPair]
    omega

theorem edgeCount_repeated (q : Quantifier) (ha : a.exit < A.size) :
    (A.repeated q a).2.edgeCount = A.edgeCount + q.edgeCount := by
  rw [repeated_eq, edgeCount_redirect, edgeCount_pushPair]
  · cases q <;> simp [State.degree, Quantifier.skips, Quantifier.loops, Quantifier.edgeCount]
  · rw [size_pushPair]
    omega

end Arena

theorem Automaton.edgeCount_eq (a : Automaton) :
    a.edgeCount = Arena.edgeCount { states := a.states } := by
  rw [Arena.edgeCount, List.sum_eq_foldl, List.foldl_map, edgeCount, Array.foldl_toList]

/-! ## The automaton of a regular expression -/

namespace Regex

def stateCount : Regex → Nat
  | symbol _ => 2
  | concat first second => first.stateCount + second.stateCount
  | union first second => first.stateCount + second.stateCount + 2
  | repeated _ operand => operand.stateCount + 2

def edgeCount : Regex → Nat
  | symbol _ => 1
  | concat first second => first.edgeCount + second.edgeCount + 1
  | union first second => first.edgeCount + second.edgeCount + 4
  | repeated q operand => operand.edgeCount + q.edgeCount

theorem size_assemble (r : Regex) (A : Arena) :
    (r.assemble A).2.size = A.size + r.stateCount := by
  induction r generalizing A with
  | symbol c => exact A.size_symbol c
  | concat first second ih₁ ih₂ =>
    rw [assemble, Arena.size_concat, ih₂, ih₁, stateCount]
    omega
  | union first second ih₁ ih₂ =>
    rw [assemble, Arena.size_union, ih₂, ih₁, stateCount]
    omega
  | repeated q operand ih =>
    rw [assemble, Arena.size_repeated, ih, stateCount]
    omega

theorem size_assemble_empty (r : Regex) : (r.assemble {}).2.size = r.stateCount :=
  (r.size_assemble {}).trans (Nat.zero_add _)

theorem exit_assemble_lt (r : Regex) (A : Arena) :
    (r.assemble A).1.exit < (r.assemble A).2.size :=
  (r.adds_assemble A).occupies.exit_mem.2

theorem edgeCount_assemble (r : Regex) (A : Arena) :
    (r.assemble A).2.edgeCount = A.edgeCount + r.edgeCount := by
  induction r generalizing A with
  | symbol c => exact A.edgeCount_symbol c
  | concat first second ih₁ ih₂ =>
    have hfirst := first.exit_assemble_lt A
    have hle := (second.adds_assemble (first.assemble A).2).size_le
    rw [assemble, Arena.edgeCount_concat (by omega), ih₂, ih₁, edgeCount]
    omega
  | union first second ih₁ ih₂ =>
    have hfirst := first.exit_assemble_lt A
    have hsecond := second.exit_assemble_lt (first.assemble A).2
    have hle := (second.adds_assemble (first.assemble A).2).size_le
    rw [assemble, Arena.edgeCount_union (by omega) hsecond, ih₂, ih₁, edgeCount]
    omega
  | repeated q operand ih =>
    rw [assemble, Arena.edgeCount_repeated q (operand.exit_assemble_lt A), ih, edgeCount]
    omega

end Regex

end RegexLab
