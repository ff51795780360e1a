import RegexLab.Grammar.Error
import RegexLab.Grammar.Tree

/-!
# Reading a pattern

The grammar needs one byte of lookahead, so a pattern is read byte by byte by a machine with a
stack: each open group keeps the alternatives and the factors that stand before it. A byte that
continues no pattern is refused on the spot, which makes its index the place of the error.

## Main definitions

* `Reading` — the state between two bytes.
* `Reading.step`, `Reading.conclude` — the effect of a byte, and of the end of the pattern.
* `Parser` — a pattern with the index where its last reading stopped.
* `parse` — the parse tree of a pattern.
-/

namespace RegexLab

/-- An expression being read: its finished alternatives and the finished factors of the current
one, both latest first. -/
structure Level where
  terms : List Tree := []
  factors : List Tree := []

namespace Level

def addFactor (level : Level) (factor : Tree) : Level :=
  { level with factors := factor :: level.factors }

def term (level : Level) : Tree :=
  Tree.term level.factors.reverse

def nextTerm (level : Level) : Level :=
  { terms := level.term :: level.terms }

def expr (level : Level) : Tree :=
  Tree.expr (level.term :: level.terms).reverse

end Level

/-- What may stand at the place that a reading has come to. -/
inductive Cursor where
  /-- An operand must follow. -/
  | operandDue
  /-- A backslash was read: any byte must follow. -/
  | escapeDue
  /-- An operand was read: a quantifier may follow. -/
  | operandRead (atom : Tree)
  /-- A factor with a quantifier was read. -/
  | factorRead

structure Reading where
  /-- The innermost expression. -/
  level : Level := {}
  /-- The expressions around it, from the inside out. -/
  outer : List Level := []
  cursor : Cursor := .operandDue

namespace Reading

def startOperand (r : Reading) (c : UInt8) (position : Nat) : Except RegexError Reading :=
  match Mark.ofByte c with
  | .quantifier _ => .error (.unexpectedQuantifier c position)
  | .bar | .closing => .error (.unexpectedSymbol c position)
  | .opening => .ok { level := {}, outer := r.level :: r.outer, cursor := .operandDue }
  | .escape => .ok { r with cursor := .escapeDue }
  | .literal => .ok { r with cursor := .operandRead (.atom (.bare c)) }

def continueTerm (r : Reading) (c : UInt8) (position : Nat) : Except RegexError Reading :=
  match Mark.ofByte c, r.outer with
  | .bar, _ => .ok { r with level := r.level.nextTerm, cursor := .operandDue }
  | .closing, level :: outer => .ok { level, outer, cursor := .operandRead (.group r.level.expr) }
  | _, _ => r.startOperand c position

def closeFactor (r : Reading) : Reading :=
  match r.cursor with
  | .operandRead atom => { r with level := r.level.addFactor (.factor atom), cursor := .factorRead }
  | _ => r

def step (r : Reading) (c : UInt8) (position : Nat) : Except RegexError Reading :=
  match r.cursor with
  | .operandDue => r.startOperand c position
  | .escapeDue => .ok { r with cursor := .operandRead (.atom (.escaped c)) }
  | .factorRead => r.continueTerm c position
  | .operandRead atom =>
    match Quantifier.ofByte? c with
    | some q =>
      .ok { r with level := r.level.addFactor (.quantified atom q), cursor := .factorRead }
    | none => r.closeFactor.continueTerm c position

def conclude (r : Reading) (position : Nat) : Except RegexError Tree :=
  match r.closeFactor with
  | ⟨level, [], .factorRead⟩ => .ok level.expr
  | _ => .error (.endOfInput position)

/-- Read the rest of a pattern from an index on, and tell the index where the reading stopped. -/
def run (r : Reading) : Bytes → Nat → Except RegexError Tree × Nat
  | [], position => (r.conclude position, position)
  | c :: rest, position =>
    match r.step c position with
    | .ok next => next.run rest (position + 1)
    | .error e => (.error e, position)

end Reading

/-- A pattern with the index where its last reading stopped. -/
structure Parser where
  pattern : Bytes
  position : Nat := 0
deriving DecidableEq, Repr

def Parser.parse (p : Parser) : Except RegexError Tree × Parser :=
  let (outcome, position) := Reading.run {} p.pattern 0
  (outcome, { p with position })

def parse (pattern : Bytes) : Except RegexError Tree :=
  (Parser.parse { pattern }).1

end RegexLab
