import Mathlib.Order.Interval.Set.Disjoint
import RegexLab.Proofs.Automaton.Language
import RegexLab.Regex.Basic

/-!
# The language of a regular expression

Assembling a regular expression puts one fragment behind the states that there were. Operands made
one after the other therefore share no state, which is all that the operators ask for.

## Main definitions

* `Regex.assemble` — the fragment of a regular expression, in a given arena.
* `Regex.language` — the words that a regular expression stands for.
* `Arena.Adds` — an arena is another one with a fragment of a given language behind it.
-/

namespace RegexLab

def Regex.assemble : Regex → Arena → Fragment × Arena
  | symbol c, A => A.symbol c
  | concat first second, A =>
    let (f, A) := first.assemble A
    let (g, A) := second.assemble A
    A.concat f g
  | union first second, A =>
    let (f, A) := first.assemble A
    let (g, A) := second.assemble A
    A.union f g
  | repeated q operand, A =>
    let (f, A) := operand.assemble A
    A.repeated q f

def Regex.language : Regex → Language UInt8
  | symbol c => {[c]}
  | concat first second => first.language * second.language
  | union first second => first.language + second.language
  | repeated q operand => q.language operand.language

/-- The arena `B` is `A` with the fragment `f` behind it, which has the language `L`. -/
structure Arena.Adds (A B : Arena) (f : Fragment) (L : Language UInt8) : Prop where
  size_le : A.size ≤ B.size
  getElem?_old : ∀ i < A.size, B.states[i]? = A.states[i]?
  occupies : f.Occupies B.states (Set.Ico A.size B.size)
  language_eq : B.language f = L

namespace Arena

variable {A B C : Arena} {f g : Fragment} {L M : Language UInt8}

/-- The pair of states that an operation makes lies behind the states that there were. -/
theorem insert_pair_Ico {m n : Nat} (h : m ≤ n) :
    insert n (insert (n + 1) (Set.Ico m n)) = Set.Ico m (n + 2) := by
  ext i
  simp only [Set.mem_insert_iff, Set.mem_Ico]
  omega

/-- An operation on fragments behind the old states keeps these. -/
theorem getElem?_perform_of_lt {i : Nat} (op : Operation) (hsize : A.size ≤ B.size)
    (hold : ∀ i < A.size, B.states[i]? = A.states[i]?)
    (hop : ∀ h ∈ op.operands, A.size ≤ h.exit) (hi : i < A.size) :
    (B.perform op).2.states[i]? = A.states[i]? := by
  refine ((B.changesOnly_perform op).getElem?_eq (hi.trans_le hsize) ?_).trans (hold i hi)
  intro hmem
  obtain ⟨h, hh, rfl⟩ := List.mem_map.mp hmem
  exact Nat.not_le_of_lt hi (hop h hh)

namespace Adds

theorem symbol (A : Arena) (c : UInt8) : A.Adds (A.symbol c).2 (A.symbol c).1 {[c]} where
  size_le := by simp
  getElem?_old _ hi := getElem?_pushPair_of_lt _ hi
  occupies := by
    have h := A.occupies_symbol c
    rwa [← Set.Ico_self A.size, insert_pair_Ico le_rfl, ← size_symbol A c] at h
  language_eq := A.language_symbol c

theorem repeated (q : Quantifier) (h : A.Adds B f L) :
    A.Adds (B.repeated q f).2 (B.repeated q f).1 (q.language L) where
  size_le := by
    rw [size_repeated]
    exact h.size_le.trans (Nat.le_add_right _ _)
  getElem?_old i hi := by
    refine getElem?_perform_of_lt (.repeated q f) h.size_le h.getElem?_old ?_ hi
    simpa [Operation.operands] using h.occupies.exit_mem.1
  occupies := by
    rw [size_repeated, ← insert_pair_Ico h.size_le]
    exact occupies_repeated q h.occupies
  language_eq := by rw [language_repeated q h.occupies, h.language_eq]

section Two

variable (h : A.Adds B f L) (h' : B.Adds C g M)

include h h'

theorem size_le_trans : A.size ≤ C.size :=
  h.size_le.trans h'.size_le

/-- The first of two fragments is not touched when the second is made. -/
theorem occupies_first : f.Occupies C.states (Set.Ico A.size B.size) :=
  h.occupies.of_agree fun i hi => h'.getElem?_old i hi.2

theorem language_first : C.language f = L :=
  (h.occupies.language_of_agree fun i hi => h'.getElem?_old i hi.2).trans h.language_eq

theorem getElem?_perform_old (op : Operation) (hop : ∀ k ∈ op.operands, k = f ∨ k = g) (i : Nat)
    (hi : i < A.size) : (C.perform op).2.states[i]? = A.states[i]? := by
  refine getElem?_perform_of_lt op (h.size_le_trans h') ?_ ?_ hi
  · intro j hj
    exact (h'.getElem?_old j (hj.trans_le h.size_le)).trans (h.getElem?_old j hj)
  · intro k hk
    obtain rfl | rfl := hop k hk
    · exact h.occupies.exit_mem.1
    · exact h.size_le.trans h'.occupies.exit_mem.1

theorem concat : A.Adds (C.concat f g).2 (C.concat f g).1 (L * M) where
  size_le := by
    rw [size_concat]
    exact h.size_le_trans h'
  getElem?_old := h.getElem?_perform_old h' (.concat f g) (by simp [Operation.operands])
  occupies := by
    rw [size_concat, ← Set.Ico_union_Ico_eq_Ico h.size_le h'.size_le]
    exact occupies_concat (h.occupies_first h') h'.occupies Set.Ico_disjoint_Ico_same
  language_eq := by
    rw [language_concat (h.occupies_first h') h'.occupies Set.Ico_disjoint_Ico_same,
      h.language_first h', h'.language_eq]

theorem union : A.Adds (C.union f g).2 (C.union f g).1 (L + M) where
  size_le := by
    rw [size_union]
    exact (h.size_le_trans h').trans (Nat.le_add_right _ _)
  getElem?_old := h.getElem?_perform_old h' (.union f g) (by simp [Operation.operands])
  occupies := by
    rw [size_union, ← insert_pair_Ico (h.size_le_trans h'),
      ← Set.Ico_union_Ico_eq_Ico h.size_le h'.size_le]
    exact occupies_union (h.occupies_first h') h'.occupies Set.Ico_disjoint_Ico_same
  language_eq := by
    rw [language_union (h.occupies_first h') h'.occupies Set.Ico_disjoint_Ico_same,
      h.language_first h', h'.language_eq]

end Two

end Adds

end Arena

namespace Regex

/-- Assembling a regular expression adds a fragment of its language. -/
theorem adds_assemble (r : Regex) (A : Arena) :
    A.Adds (r.assemble A).2 (r.assemble A).1 r.language := by
  induction r generalizing A with
  | symbol c => exact .symbol A c
  | concat first second ih₁ ih₂ => exact (ih₁ A).concat (ih₂ _)
  | union first second ih₁ ih₂ => exact (ih₁ A).union (ih₂ _)
  | repeated q operand ih => exact (ih A).repeated q

/-- The automaton of a regular expression accepts the words that it stands for. -/
theorem extract_assemble (r : Regex) :
    ∃ a, (r.assemble {}).2.extract (r.assemble {}).1 = .ok (a, {}) ∧
      ∀ w, a.accepts w = true ↔ w ∈ r.language := by
  have h := r.adds_assemble {}
  have hextract := Arena.extract_of_occupies h.occupies
  refine ⟨_, hextract, fun w => ?_⟩
  rw [Arena.accepts_iff_of_extract h.occupies hextract, h.language_eq]

end Regex

end RegexLab
