import RegexLab.Grammar.Rule

/-!
# What can be wrong with a pattern

## Main definitions

* `RegexError` — why a pattern, a postfix text, a tree or a fragment is refused.
* `RegexError.position?` — where in the text, for the errors that have a place.
* `RegexError.message` — the wording.
-/

namespace RegexLab

inductive RegexError where
  /-- The byte at `position` continues no pattern. -/
  | unexpectedSymbol (c : UInt8) (position : Nat)
  /-- The quantifier at `position` has no operand. -/
  | unexpectedQuantifier (c : UInt8) (position : Nat)
  /-- The pattern stops in the middle of a rule. -/
  | endOfInput (position : Nat)
  /-- The postfix operator at `position` finds too few operands. -/
  | missingOperand (operator : UInt8) (position : Nat)
  | emptyPostfix
  /-- A postfix text of length `position` leaves `count` operands too many. -/
  | missingOperators (count position : Nat)
  /-- A node that the grammar does not know. -/
  | unknownNode (label : Bytes)
  /-- A literal that would read as an operator in postfix form. -/
  | unwritable (literal : UInt8)
  /-- A fragment with a state that the arena does not have. -/
  | foreignFragment
  /-- An automaton with more states than can be numbered. -/
  | tooManyStates
deriving DecidableEq, Repr

namespace RegexError

def located (problem : Bytes) (position : Nat) : Bytes :=
  ascii "[Syntax error] " ++ problem ++ ascii " at position " ++ decimal position ++ ascii "."

def endOfInputText (position : Nat) : Bytes :=
  located (ascii "Unexpected end of input") position

def unknownNodeText (label : Bytes) : Bytes :=
  ascii "[Nfa] Unrecognized node label " ++ label.backquoted ++ ascii "."

def description : RegexError → Bytes
  | unexpectedSymbol c position =>
    located (ascii "Unexpected symbol " ++ Bytes.backquoted [c]) position
  | unexpectedQuantifier c position =>
    located (ascii "Unexpected meta char " ++ Bytes.backquoted [c]) position
  | endOfInput position => endOfInputText position
  | missingOperand operator position =>
    located (ascii "Operator " ++ Bytes.backquoted [operator] ++ ascii " is missing an operand")
      position
  | emptyPostfix => located (ascii "Empty postfix expression") 0
  | missingOperators count position =>
    located (decimal count ++ ascii " operand(s) are missing an operator") position
  | unknownNode label => unknownNodeText label
  | unwritable literal =>
    ascii "[Postfix] Symbol " ++ Bytes.backquoted [literal]
      ++ ascii " can't be written in postfix form."
  | foreignFragment => ascii "[Nfa] Fragment doesn't belong to this builder."
  | tooManyStates => ascii "[Nfa] Too many states."

/-- The message of an error: its description up to the first zero byte. -/
def message (e : RegexError) : Bytes :=
  e.description.untilNul

def position? : RegexError → Option Nat
  | unexpectedSymbol _ position | unexpectedQuantifier _ position | endOfInput position
  | missingOperand _ position | missingOperators _ position => some position
  | emptyPostfix => some 0
  | unknownNode _ | unwritable _ | foreignFragment | tooManyStates => none

end RegexError

end RegexLab
