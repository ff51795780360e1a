import RegexLab.Grammar.Shape
import RegexLab.Proofs.Grammar.Derivation
import RegexLab.Proofs.Regex.Assembly

/-!
# What a tree means

A tree means a regular expression by one rule for each shape of node. Chains are checked link by
link where they start, but such a check asks for nothing that the rules do not ask of the links.

## Main definitions

* `Tree.Means` — the regular expression of a tree, one rule for each shape of node.
* `Tree.language` — the words that a tree stands for.
-/

namespace RegexLab

theorem bind_eq_ok_iff {ε α β : Type} {x : Except ε α} {f : α → Except ε β} {b : β} :
    x >>= f = .ok b ↔ ∃ a, x = .ok a ∧ f a = .ok b := by
  cases x <;> simp [bind, Except.bind]

namespace Tree

/-- The regular expression of a tree, node by node. -/
inductive Means : Tree → Regex → Prop
  | bare (c : UInt8) : Means (.node Rule.char.label [.leaf c]) (.symbol c)
  | escaped (c : UInt8) : Means (.node Rule.char.label [.leaf backslash, .leaf c]) (.symbol c)
  | only {rule : Rule} {t : Tree} {r : Regex} : rule ≠ .char → Means t r →
      Means (.node rule.label [t]) r
  | concat {t u : Tree} {r s : Regex} : Means t r → Means u s →
      Means (.node Rule.term.label [t, u]) (.concat r s)
  | union {t m u : Tree} {r s : Regex} : m.label = [RegexLab.bar] → Means t r → Means u s →
      Means (.node Rule.expr.label [t, m, u]) (.union r s)
  | repeated {t m : Tree} {r : Regex} (q : Quantifier) : m.label = [q.byte] → Means t r →
      Means (.node Rule.factor.label [t, m]) (.repeated q r)
  | group {a t z : Tree} {r : Regex} : a.label = [opening] → z.label = [closing] → Means t r →
      Means (.node Rule.atom.label [a, t, z]) r

variable {t u m : Tree} {r : Regex} {label : Bytes} {children : List Tree} {c : UInt8}

theorem byte?_eq_some_iff : t.byte? = some c ↔ t = leaf c := by
  unfold byte?
  split <;> simp_all [leaf]

theorem literal?_eq_some_iff : (node label children).literal? = some c ↔
    children = [leaf c] ∨ children = [leaf backslash, leaf c] := by
  unfold literal?
  split
  next h =>
    obtain ⟨-, rfl⟩ := node.inj h
    simp [byte?_eq_some_iff]
  next h =>
    obtain ⟨-, rfl⟩ := node.inj h
    split <;> simp_all [byte?_eq_some_iff]
  next hone htwo =>
    simp only [reduceCtorEq, false_iff]
    intro hshape
    rcases hshape with rfl | rfl
    · exact hone _ _ rfl
    · exact htwo _ _ _ rfl

theorem Means.literal (h : (node Rule.char.label children).literal? = some c) :
    Means (node Rule.char.label children) (.symbol c) := by
  obtain rfl | rfl := literal?_eq_some_iff.mp h
  · exact .bare c
  · exact .escaped c

/-! ## Chains -/

theorem checkChain_term : (node Rule.term.label [t, u]).checkChain = .ok () ↔
    (u.label = Rule.term.label → u.checkChain = .ok ()) := by
  rw [checkChain]
  split_ifs <;> simp_all

theorem checkChain_expr : (node Rule.expr.label [t, m, u]).checkChain = .ok () ↔
    m.label = [bar] ∧ (u.label = Rule.expr.label → u.checkChain = .ok ()) := by
  rw [checkChain]
  split_ifs <;> simp_all

/-- The links of a tree that means something have the right shape. -/
theorem Means.checkChain_eq (h : Means t r)
    (ht : t.label = Rule.term.label ∨ t.label = Rule.expr.label) : t.checkChain = .ok () := by
  induction h with
  | bare | escaped | repeated | group => exact absurd ht (by simp only [Tree.label]; decide)
  | only _ _ _ => rw [checkChain]
  | concat _ _ _ ih => exact checkChain_term.mpr fun hu => ih (.inl hu)
  | union hm _ _ _ ih => exact checkChain_expr.mpr ⟨hm, fun hu => ih (.inr hu)⟩

/-! ## One meaning at most -/

def regex? : Tree → Option Regex
  | node label children =>
    match Rule.ofLabel? label, children with
    | some .char, children => (literal? (node label children)).map .symbol
    | some _, [only] => only.regex?
    | some .term, [first, second] => return .concat (← first.regex?) (← second.regex?)
    | some .expr, [first, middle, last] =>
      if middle.label = [bar] then return .union (← first.regex?) (← last.regex?) else none
    | some .factor, [operand, mark] =>
      return .repeated (← Quantifier.ofLabel? mark.label) (← operand.regex?)
    | some .atom, [first, inner, last] =>
      if first.label = [opening] ∧ last.label = [closing] then inner.regex? else none
    | _, _ => none

theorem Means.regex?_eq (h : Means t r) : t.regex? = some r := by
  induction h with
  | bare c | escaped c => rfl
  | @only rule t r hrule h ih =>
    cases rule with
    | char => exact absurd rfl hrule
    | _ => exact ih
  | concat _ _ iht ihu => simp [regex?, iht, ihu]
  | union hm _ _ iht ihu => simp [regex?, hm, iht, ihu]
  | repeated q hm _ ih => simp [regex?, Quantifier.ofLabel?_eq_some_iff.mpr hm, ih]
  | group ha hz _ ih => simp [regex?, ha, hz, ih]

/-- A tree means one regular expression at most. -/
theorem Means.unique {s : Regex} (h : Means t r) (h' : Means t s) : r = s :=
  Option.some.inj (h.regex?_eq.symm.trans h'.regex?_eq)

/-! ## Languages -/

/-- The words that a tree stands for. A tree that the grammar does not know stands for none. -/
def language : Tree → Language UInt8
  | node label children =>
    match Rule.ofLabel? label, children with
    | some .char, [node [c] []] => {[c]}
    | some .char, [node [b] [], node [c] []] => if b = backslash then {[c]} else 0
    | some .char, _ => 0
    | some _, [only] => only.language
    | some .term, [first, second] => first.language * second.language
    | some .expr, [first, middle, last] =>
      if middle.label = [bar] then first.language + last.language else 0
    | some .factor, [operand, mark] =>
      match Quantifier.ofLabel? mark.label with
      | some q => q.language operand.language
      | none => 0
    | some .atom, [first, inner, last] =>
      if first.label = [opening] ∧ last.label = [closing] then inner.language else 0
    | _, _ => 0

/-- A tree and the regular expression that it means have the same language. -/
theorem Means.language_eq (h : Means t r) : t.language = r.language := by
  induction h with
  | bare c | escaped c => rfl
  | @only rule t r hrule h ih =>
    cases rule with
    | char => exact absurd rfl hrule
    | _ => exact ih
  | concat _ _ iht ihu => simp [language, Regex.language, iht, ihu]
  | union hm _ _ iht ihu => simp [language, Regex.language, hm, iht, ihu]
  | repeated q hm _ ih =>
    simp [language, Regex.language, Quantifier.ofLabel?_eq_some_iff.mpr hm, ih]
  | group ha hz _ ih => simp [language, ha, hz, ih]

end Tree

end RegexLab
