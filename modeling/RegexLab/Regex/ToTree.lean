import RegexLab.Grammar.Tree
import RegexLab.Regex.Basic

/-!
# The tree of a regular expression

Every regular expression has a tree that follows the grammar. Runs of concatenations, and of
alternatives, become one flat run however they are nested, and a group is added only where an
operand binds more loosely than its place allows.

## Main definitions

* `Regex.factors`, `Regex.terms` — the run of factors, or of alternatives, that a regular
  expression contributes to.
* `Regex.operand` — a regular expression as the operand of a quantifier.
* `Regex.toTree` — the tree of a regular expression.
-/

namespace RegexLab

/-- The operand that is a literal. The bytes that mean something to the grammar are written behind
a backslash. -/
def Tree.ofByte (c : UInt8) : Tree :=
  .atom (if Mark.ofByte c = .literal then .bare c else .escaped c)

namespace Regex

mutual

/-- The factors of a regular expression, in front of those that follow in the run: alternatives
need a group. -/
def factors : Regex → List Tree → List Tree
  | symbol c, rest => .factor (.ofByte c) :: rest
  | concat first second, rest => first.factors (second.factors rest)
  | union first second, rest => .factor (.group (.expr (first.terms (second.terms [])))) :: rest
  | repeated q inner, rest => .quantified inner.operand q :: rest

def terms : Regex → List Tree → List Tree
  | symbol c, rest => .term [.factor (.ofByte c)] :: rest
  | concat first second, rest => .term (first.factors (second.factors [])) :: rest
  | union first second, rest => first.terms (second.terms rest)
  | repeated q inner, rest => .term [.quantified inner.operand q] :: rest

/-- A regular expression as an operand: anything but a literal needs a group. -/
def operand : Regex → Tree
  | symbol c => .ofByte c
  | concat first second => .group (.expr [.term (first.factors (second.factors []))])
  | union first second => .group (.expr (first.terms (second.terms [])))
  | repeated q inner => .group (.expr [.term [.quantified inner.operand q]])

end

def toTree (r : Regex) : Tree :=
  .expr (r.terms [])

/-! ## Runs -/

theorem factors_eq_append (r : Regex) (rest : List Tree) :
    r.factors rest = r.factors [] ++ rest := by
  induction r generalizing rest with
  | symbol c => rfl
  | concat a b iha ihb => simp only [factors]; rw [iha, ihb, iha (b.factors []), List.append_assoc]
  | union a b => rfl
  | repeated q r => rfl

theorem terms_eq_append (r : Regex) (rest : List Tree) :
    r.terms rest = r.terms [] ++ rest := by
  induction r generalizing rest with
  | symbol c => rfl
  | concat a b => rfl
  | union a b iha ihb => simp only [terms]; rw [iha, ihb, iha (b.terms []), List.append_assoc]
  | repeated q r => rfl

/-- How concatenations are nested does not show. -/
theorem factors_concat_assoc (a b c : Regex) (rest : List Tree) :
    ((a.concat b).concat c).factors rest = (a.concat (b.concat c)).factors rest :=
  rfl

/-- How alternatives are nested does not show. -/
theorem terms_union_assoc (a b c : Regex) (rest : List Tree) :
    ((a.union b).union c).terms rest = (a.union (b.union c)).terms rest :=
  rfl

end Regex

end RegexLab
