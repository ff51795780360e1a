import RegexLab.Proofs.Regex.OfTree
import RegexLab.Proofs.Regex.Size

/-!
# Counting the nodes of a tree

Each node of a derivation tree adds a fixed number of states and edges to the automaton, or none. So
the size of the automaton can be told from the tree alone, and with it whether there is room for its
states.

## Main definitions

* `Tree.count` — the number of nodes of a given kind.
* `Tree.isLiteral`, `Tree.isBarLink`, `Tree.isFactorLink`, `Tree.isRepetition` — the kinds of nodes
  that count.
* `Tree.stateCount`, `Tree.edgeCount` — the size of the automaton of a derivation tree.
-/

namespace RegexLab

variable {t : Tree} {rule : Rule}

/-! ## Labels -/

/-- Two rules label their nodes alike only if they are one. -/
@[simp] theorem Rule.label_beq_label (r s : Rule) : (r.label == s.label) = decide (r = s) := by
  cases r <;> cases s <;> decide

/-- No rule labels its nodes with a single byte. -/
@[simp] theorem Rule.singleton_beq_label (c : UInt8) (r : Rule) : ([c] == r.label) = false := by
  cases r <;> simp [label, ascii]

/-- Two quantifiers are written alike only if they are one. -/
@[simp] theorem Quantifier.byte_beq_byte (p q : Quantifier) :
    (p.byte == q.byte) = decide (p = q) := by
  cases p <;> cases q <;> decide

namespace Tree

/-! ## Counting nodes -/

mutual

@[simp] def count (kind : Tree → Bool) : Tree → Nat
  | node label children => countAll kind children + (kind (node label children)).toNat

@[simp] def countAll (kind : Tree → Bool) : List Tree → Nat
  | [] => 0
  | t :: ts => t.count kind + countAll kind ts

end

@[simp] def isLiteral : Tree → Bool
  | node label _ => label == Rule.char.label

/-- The node puts `|` between an alternative and those that follow. -/
@[simp] def isBarLink : Tree → Bool
  | node label [_, mark, _] => label == Rule.expr.label && mark.label == [bar]
  | _ => false

@[simp] def isFactorLink : Tree → Bool
  | node label [_, _] => label == Rule.term.label
  | _ => false

@[simp] def isRepetition (q : Quantifier) : Tree → Bool
  | node label [_, mark] => label == Rule.factor.label && mark.label == [q.byte]
  | _ => false

/-- The number of states of the automaton of a derivation tree. -/
def stateCount (t : Tree) : Nat :=
  2 * (t.count isLiteral + t.count isBarLink + t.count (isRepetition .star) +
    t.count (isRepetition .plus) + t.count (isRepetition .opt))

def edgeCount (t : Tree) : Nat :=
  t.count isLiteral + t.count isFactorLink + 4 * t.count isBarLink +
    4 * t.count (isRepetition .star) + 3 * t.count (isRepetition .plus) +
    3 * t.count (isRepetition .opt)

end Tree

open RegexLab.Tree in
/-- A derivation tree means a regular expression that is as large as the nodes of the tree say. -/
theorem Derives.exists_means_counted (h : Derives rule t) :
    ∃ r, t.Means r ∧ r.stateCount = t.stateCount ∧ r.edgeCount = t.edgeCount := by
  simp only [stateCount, edgeCount]
  induction h with
  | expr _ ih | term _ ih | factor _ ih | atom _ ih =>
    obtain ⟨r, hr, hstates, hedges⟩ := ih
    exact ⟨r, .only (by decide) hr, by simp [hstates], by simp [hedges]⟩
  | exprMore _ _ iht ihe =>
    obtain ⟨r, hr, hstates, hedges⟩ := iht
    obtain ⟨s, hs, hstates', hedges'⟩ := ihe
    refine ⟨_, .union rfl hr hs, ?_, ?_⟩
    · simp [leaf, label, Regex.stateCount, hstates, hstates']
      omega
    · simp [leaf, label, Regex.edgeCount, hedges, hedges']
      omega
  | termMore _ _ ihf iht =>
    obtain ⟨r, hr, hstates, hedges⟩ := ihf
    obtain ⟨s, hs, hstates', hedges'⟩ := iht
    refine ⟨_, .concat hr hs, ?_, ?_⟩
    · simp [Regex.stateCount, hstates, hstates']
      omega
    · simp [Regex.edgeCount, hedges, hedges']
      omega
  | quantified q _ ih =>
    obtain ⟨r, hr, hstates, hedges⟩ := ih
    refine ⟨_, .repeated q rfl hr, ?_, ?_⟩
    · cases q <;> simp [leaf, label, Regex.stateCount, hstates] <;> omega
    · cases q <;> simp [leaf, label, Regex.edgeCount, Quantifier.edgeCount, hedges] <;> omega
  | group _ ih =>
    obtain ⟨r, hr, hstates, hedges⟩ := ih
    refine ⟨r, .group rfl rfl hr, ?_, ?_⟩
    · simp [leaf, label, hstates]
    · simp [leaf, label, hedges]
  | bare _ => exact ⟨_, .bare _, by simp [leaf, Regex.stateCount], by simp [leaf, Regex.edgeCount]⟩
  | escaped c =>
    refine ⟨_, .escaped c, ?_, ?_⟩
    · simp [leaf, label, Regex.stateCount]
    · simp [leaf, label, Regex.edgeCount]

/-- What a derivation tree means is as large as the nodes of the tree say. -/
theorem Derives.stateCount_eq {r : Regex} (h : Derives rule t) (hr : t.Means r) :
    r.stateCount = t.stateCount := by
  obtain ⟨s, hs, hstates, -⟩ := h.exists_means_counted
  obtain rfl := hr.unique hs
  exact hstates

end RegexLab
