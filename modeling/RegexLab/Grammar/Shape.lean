import RegexLab.Grammar.Error
import RegexLab.Grammar.Tree

/-!
# The shapes of nodes

Any labelled tree may be given, and the nodes that the grammar does not know are refused. A run of
alternatives, or of factors, is a chain of nodes with one label. All links of a chain are checked
before its first operand is looked at, which settles which of two wrong nodes is reported.

## Main definitions

* `Tree.literal?` — the byte that a literal's node stands for.
* `Tree.checkChain` — whether the links of a chain have the right shape.
-/

namespace RegexLab

namespace Tree

def byte? : Tree → Option UInt8
  | node [c] [] => some c
  | _ => none

/-- The byte that a literal's node stands for: its only child, or the child behind a backslash. -/
def literal? : Tree → Option UInt8
  | node _ [c] => c.byte?
  | node _ [escape, c] => if escape.byte? = some backslash then c.byte? else none
  | _ => none

/-- Check the links of a chain. It ends at a node with one child, or at a link with another label,
which is then the last operand. -/
def checkChain : Tree → Except RegexError Unit
  | node _ [_] => .ok ()
  | node label [_, link] =>
    if label = Rule.term.label then
      if link.label = label then link.checkChain else .ok ()
    else .error (.unknownNode label)
  | node label [_, middle, link] =>
    if label = Rule.expr.label ∧ middle.label = [bar] then
      if link.label = label then link.checkChain else .ok ()
    else .error (.unknownNode label)
  | node label _ => .error (.unknownNode label)

end Tree

end RegexLab
