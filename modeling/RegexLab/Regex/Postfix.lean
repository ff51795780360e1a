import RegexLab.Grammar.Shape
import RegexLab.Regex.ToTree

/-!
# Postfix texts

In a postfix text every byte is a token: an operator follows its operands, a dot joins two
operands one after the other, and every other byte is a symbol. There are no groups and no escapes.

## Main definitions

* `Token` — the meaning of a byte of a postfix text.
* `Regex.ofPostfix` — the regular expression that a postfix text spells.
* `Tree.ofPostfix` — the tree of the pattern that a postfix text spells.
* `Tree.postfixText` — the postfix text of a tree.
-/

namespace RegexLab

/-! ## Tokens -/

def dot : UInt8 := '.'.toUInt8

inductive Token where
  | symbol (c : UInt8)
  | concat
  | union
  | quantifier (q : Quantifier)
deriving DecidableEq, Repr

namespace Token

def ofByte (c : UInt8) : Token :=
  match Quantifier.ofByte? c with
  | some q => quantifier q
  | none => if c = dot then concat else if c = bar then union else symbol c

def byte : Token → UInt8
  | symbol c => c
  | concat => dot
  | union => bar
  | quantifier q => q.byte

end Token

/-! ## Reading -/

namespace Regex

/-- The stack of operands after one more token, which stands at `position`. The latest operand is
on top. -/
def pushToken (stack : List Regex) (c : UInt8) (position : Nat) : Except RegexError (List Regex) :=
  match Token.ofByte c, stack with
  | .symbol c, stack => .ok (.symbol c :: stack)
  | .concat, second :: first :: stack => .ok (.concat first second :: stack)
  | .union, second :: first :: stack => .ok (.union first second :: stack)
  | .quantifier q, operand :: stack => .ok (.repeated q operand :: stack)
  | _, _ => .error (.missingOperand c position)

/-- Read the rest of a postfix text from an index on, with a stack of operands. Exactly one must be
left at the end. -/
def readPostfix (stack : List Regex) : Bytes → Nat → Except RegexError Regex
  | [], position =>
    match stack with
    | [] => .error .emptyPostfix
    | [r] => .ok r
    | _ :: others => .error (.missingOperators others.length position)
  | c :: rest, position => do
    let stack ← pushToken stack c position
    readPostfix stack rest (position + 1)

def ofPostfix (tokens : Bytes) : Except RegexError Regex :=
  readPostfix [] tokens 0

end Regex

def Tree.ofPostfix (tokens : Bytes) : Except RegexError Tree :=
  return (← Regex.ofPostfix tokens).toTree

/-! ## Writing -/

namespace Tree

/-- Write the postfix text of a tree after what has been written, latest byte first. The links of
the chain that the root belongs to may have been checked already. Operands are written before a
quantifier is looked at, and the brackets of a group are not looked at. -/
def spell (checked : Bool) : Tree → Bytes → Except RegexError Bytes
  | node label [], _ => .error (.unknownNode label)
  | node label [only], written =>
    match Rule.ofLabel? label with
    | some .char => spellLiteral (node label [only]) written
    | some _ => only.spell false written
    | none => .error (.unknownNode label)
  | node label [first, second], written =>
    match Rule.ofLabel? label with
    | some .term => do
      unless checked do checkChain (node label [first, second])
      let written ← first.spell false written
      let written ← second.spell (second.label == label) written
      return Token.concat.byte :: written
    | some .factor => do
      let written ← first.spell false written
      match Quantifier.ofLabel? second.label with
      | some q => return q.byte :: written
      | none => .error (.unknownNode second.label)
    | some .char => spellLiteral (node label [first, second]) written
    | _ => .error (.unknownNode label)
  | node label [first, middle, last], written =>
    match Rule.ofLabel? label with
    | some .expr => do
      unless checked do checkChain (node label [first, middle, last])
      let written ← first.spell false written
      let written ← last.spell (last.label == label) written
      return Token.union.byte :: written
    | some .atom => middle.spell false written
    | _ => .error (.unknownNode label)
  | node label _, _ => .error (.unknownNode label)
where
  /-- Write a literal, unless it would read as an operator. -/
  spellLiteral (t : Tree) (written : Bytes) : Except RegexError Bytes :=
    match t.literal? with
    | some c => if Token.ofByte c = .symbol c then .ok (c :: written) else .error (.unwritable c)
    | none => .error (.unknownNode t.label)

end Tree

def Tree.postfixText (t : Tree) : Except RegexError Bytes :=
  return (← t.spell false []).reverse

end RegexLab
