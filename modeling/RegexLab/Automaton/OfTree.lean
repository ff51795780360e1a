import RegexLab.Automaton.Arena
import RegexLab.Grammar.Shape

/-!
# The automaton of a tree

The states of a tree are made while the tree is walked. A run of alternatives, or of factors, is
walked along its links in a loop: its operands are made from left to right, and when the last one
is there they are put together from the right.

## Main definitions

* `Arena.joinRun` — the operands of a run put together.
* `Tree.assemble` — the fragment of a tree, in a given arena.
-/

namespace RegexLab

def Operation.join (label : Bytes) (f g : Fragment) : Operation :=
  if label = Rule.expr.label then .union f g else .concat f g

namespace Arena

/-- Put the operands of a run together from the right. Those before the last one are given latest
first. -/
def joinRun (A : Arena) (label : Bytes) (earlier : List Fragment) (last : Fragment) :
    Except RegexError (Fragment × Arena) :=
  earlier.foldlM (fun (g, A) f => A.apply (.join label f g)) (last, A)

end Arena

namespace Tree

/-- The links of a run are checked where it starts, before its first operand is made. -/
def checkStart (earlier : List Fragment) (t : Tree) : Except RegexError Unit :=
  if earlier.isEmpty then t.checkChain else .ok ()

/-- Make the fragment of a tree. A link that goes on a run is told the operands before it, latest
first, and makes the fragment of the whole run. -/
def assemble (earlier : List Fragment) : Tree → Arena → Except RegexError (Fragment × Arena)
  | node label [], _ => .error (.unknownNode label)
  | node label [only], A =>
    match Rule.ofLabel? label with
    | some .char =>
      match literal? (node label [only]) with
      | some c => A.apply (.symbol c)
      | none => .error (.unknownNode label)
    | some _ => do
      let (last, A) ← only.assemble [] A
      A.joinRun label earlier last
    | none => .error (.unknownNode label)
  | node label [first, second], A =>
    match Rule.ofLabel? label with
    | some .term => do
      checkStart earlier (node label [first, second])
      let (f, A) ← first.assemble [] A
      if second.label = label then second.assemble (f :: earlier) A
      else
        let (last, A) ← second.assemble [] A
        A.joinRun label (f :: earlier) last
    | some .factor =>
      match Quantifier.ofLabel? second.label with
      | some q => do
        let (f, A) ← first.assemble [] A
        A.apply (.repeated q f)
      | none => .error (.unknownNode second.label)
    | some .char =>
      match literal? (node label [first, second]) with
      | some c => A.apply (.symbol c)
      | none => .error (.unknownNode label)
    | _ => .error (.unknownNode label)
  | node label [first, middle, last], A =>
    match Rule.ofLabel? label with
    | some .expr => do
      checkStart earlier (node label [first, middle, last])
      let (f, A) ← first.assemble [] A
      if last.label = label then last.assemble (f :: earlier) A
      else
        let (g, A) ← last.assemble [] A
        A.joinRun label (f :: earlier) g
    | some .atom =>
      if first.label = [opening] ∧ last.label = [closing] then middle.assemble [] A
      else .error (.unknownNode label)
    | _ => .error (.unknownNode label)
  | node label _, _ => .error (.unknownNode label)

end Tree

end RegexLab
