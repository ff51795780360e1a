import Mathlib.Tactic.SplitIfs
import RegexLab.Grammar.Tree

/-!
# Derivation trees

Trees may have any labels and any number of children. Those that the grammar derives are the ones
in which every node is made by one of the rules, the root by the rule that is asked for.

## Main definitions

* `Tree.yield` — the leaf labels from left to right, by recursion on the tree.
* `Derives` — the trees that the grammar derives from a rule.
-/

namespace RegexLab

variable {t u : Tree} {ts fs : List Tree} {c : UInt8}

/-! ## Marks -/

theorem Quantifier.ofByte?_eq_none_iff : ofByte? c = none ↔ ∀ q : Quantifier, c ≠ q.byte := by
  simp only [Option.eq_none_iff_forall_ne_some, ne_eq, ofByte?_eq_some_iff]

/-- What a byte is, given the part that it plays. -/
theorem Mark.ofByte_spec (c : UInt8) :
    match Mark.ofByte c with
    | .quantifier q => c = q.byte
    | .bar => c = RegexLab.bar
    | .opening => c = RegexLab.opening
    | .closing => c = RegexLab.closing
    | .escape => c = backslash
    | .literal => c ∉ ascii "*+?()|\\" := by
  unfold Mark.ofByte
  cases hq : Quantifier.ofByte? c with
  | some q => exact Quantifier.ofByte?_eq_some_iff.mp hq
  | none =>
    have hne := Quantifier.ofByte?_eq_none_iff.mp hq
    split_ifs with hbar hopening hclosing hescape <;> try assumption
    have hstar : c ≠ '*'.toUInt8 := hne .star
    have hplus : c ≠ '+'.toUInt8 := hne .plus
    have hopt : c ≠ '?'.toUInt8 := hne .opt
    simpa [ascii] using ⟨hstar, hplus, hopt, hopening, hclosing, hbar, hescape⟩

theorem Mark.ofByte_eq_literal (h : c ∉ ascii "*+?()|\\") : Mark.ofByte c = .literal := by
  have hc := Mark.ofByte_spec c
  cases hm : Mark.ofByte c with
  | literal => rfl
  | quantifier q =>
    rw [hm] at hc
    subst hc
    cases q <;> exact absurd (by decide) h
  | bar | opening | closing | escape =>
    rw [hm] at hc
    subst hc
    exact absurd (by decide) h

/-- Only quantifiers are read as such. -/
theorem Quantifier.ofByte?_eq_none (h : ∀ q, Mark.ofByte c ≠ .quantifier q) : ofByte? c = none := by
  refine ofByte?_eq_none_iff.mpr fun q => ?_
  rintro rfl
  exact h q (by simp [Mark.ofByte])

namespace Tree

/-! ## The text of a tree -/

mutual

def yield : Tree → Bytes
  | node label [] => label
  | node _ (t :: ts) => t.yield ++ yieldAll ts

def yieldAll : List Tree → Bytes
  | [] => []
  | t :: ts => t.yield ++ yieldAll ts

end

theorem yieldAll_append (ts us : List Tree) : yieldAll (ts ++ us) = yieldAll ts ++ yieldAll us := by
  induction ts with
  | nil => rfl
  | cons t ts ih => simp [yieldAll, ih]

/-- The trees that are still to be visited add their leaf labels to what has been written. -/
theorem writeText_eq (pending : List Tree) (written : Bytes) :
    writeText pending written = written.reverse ++ yieldAll pending := by
  fun_induction writeText pending written with
  | case1 written => simp [yieldAll]
  | case2 label pending written ih =>
    simp only [List.unattach_reverse, List.unattach_attach] at ih
    simp [ih, yieldAll, yield]
  | case3 label t ts pending written ih =>
    rw [ih, yieldAll_append]
    simp [yieldAll, yield]

/-- The loop over pending trees writes what the recursion yields. -/
theorem text_eq_yield (t : Tree) : t.text = t.yield := by
  simp [text, writeText_eq, yieldAll]

@[simp] theorem text_leaf (c : UInt8) : (leaf c).text = [c] := by
  simp [text_eq_yield, leaf, yield]

theorem yieldAll_eq_flatMap (ts : List Tree) : yieldAll ts = ts.flatMap text := by
  induction ts with
  | nil => rfl
  | cons t ts ih => rw [yieldAll, ih, List.flatMap_cons, text_eq_yield]

@[simp] theorem text_node_cons (label : Bytes) (t : Tree) (ts : List Tree) :
    (node label (t :: ts)).text = (t :: ts).flatMap text := by
  rw [text_eq_yield, yield, yieldAll_eq_flatMap, List.flatMap_cons, text_eq_yield]

/-! ## Runs -/

theorem term_cons (f : Tree) (hfs : fs ≠ []) :
    term (f :: fs) = node Rule.term.label [f, term fs] := by
  cases fs with
  | nil => exact absurd rfl hfs
  | cons g gs => rfl

theorem expr_cons (t : Tree) (hts : ts ≠ []) :
    expr (t :: ts) = node Rule.expr.label [t, leaf bar, expr ts] := by
  cases ts with
  | nil => exact absurd rfl hts
  | cons u us => rfl

/-- The text of a run of factors. -/
theorem text_term (hfs : fs ≠ []) : (term fs).text = fs.flatMap text := by
  induction fs with
  | nil => exact absurd rfl hfs
  | cons f fs ih =>
    by_cases h : fs = []
    · simp [h, term]
    · simp [term_cons f h, ih h]

/-- The text of a run of alternatives. -/
theorem text_expr (ts : List Tree) (last : Tree) :
    (expr (ts ++ [last])).text = ts.flatMap (fun t => t.text ++ [bar]) ++ last.text := by
  induction ts with
  | nil => simp [expr]
  | cons t ts ih =>
    rw [List.cons_append, expr_cons t (by simp)]
    simp [ih]

end Tree

/-! ## Derivations -/

/-- The tree is a derivation tree of the rule. -/
inductive Derives : Rule → Tree → Prop
  | expr {t : Tree} : Derives .term t → Derives .expr (.node Rule.expr.label [t])
  | exprMore {t e : Tree} : Derives .term t → Derives .expr e →
      Derives .expr (.node Rule.expr.label [t, .leaf bar, e])
  | term {f : Tree} : Derives .factor f → Derives .term (.node Rule.term.label [f])
  | termMore {f t : Tree} : Derives .factor f → Derives .term t →
      Derives .term (.node Rule.term.label [f, t])
  | factor {a : Tree} : Derives .atom a → Derives .factor (.node Rule.factor.label [a])
  | quantified {a : Tree} (q : Quantifier) : Derives .atom a →
      Derives .factor (.node Rule.factor.label [a, .leaf q.byte])
  | atom {c : Tree} : Derives .char c → Derives .atom (.node Rule.atom.label [c])
  | group {e : Tree} : Derives .expr e →
      Derives .atom (.node Rule.atom.label [.leaf opening, e, .leaf closing])
  | bare {c : UInt8} : c ∉ ascii "*+?()|\\" → Derives .char (.node Rule.char.label [.leaf c])
  | escaped (c : UInt8) : Derives .char (.node Rule.char.label [.leaf backslash, .leaf c])

namespace Derives

/-- A run of factors is derived if its factors are. -/
theorem term_run (hfs : fs ≠ []) (h : ∀ f ∈ fs, Derives .factor f) :
    Derives .term (Tree.term fs) := by
  induction fs with
  | nil => exact absurd rfl hfs
  | cons f fs ih =>
    obtain ⟨hf, hrest⟩ := List.forall_mem_cons.mp h
    by_cases hnil : fs = []
    · subst hnil
      exact .term hf
    · rw [Tree.term_cons f hnil]
      exact .termMore hf (ih hnil hrest)

/-- A run of alternatives is derived if these are. -/
theorem expr_run (hts : ts ≠ []) (h : ∀ t ∈ ts, Derives .term t) :
    Derives .expr (Tree.expr ts) := by
  induction ts with
  | nil => exact absurd rfl hts
  | cons t ts ih =>
    obtain ⟨ht, hrest⟩ := List.forall_mem_cons.mp h
    by_cases hnil : ts = []
    · subst hnil
      exact .expr ht
    · rw [Tree.expr_cons t hnil]
      exact .exprMore ht (ih hnil hrest)

end Derives

end RegexLab
