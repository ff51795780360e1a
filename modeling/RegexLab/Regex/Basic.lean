import RegexLab.Grammar.Rule

/-!
# Regular expressions

What a pattern means once groups, escapes and one-child nodes are forgotten.

## Main definitions

* `Regex` — a regular expression over bytes.
-/

namespace RegexLab

inductive Regex where
  | symbol (c : UInt8)
  | concat (first second : Regex)
  | union (first second : Regex)
  | repeated (q : Quantifier) (operand : Regex)
deriving DecidableEq, Repr, Inhabited

end RegexLab
