import RegexLab.Automaton.Basic
import RegexLab.Grammar.Error

/-!
# Putting automata together

All states are made in one arena. A fragment is an automaton in the making: the state where it is
entered and the state where it is left. Each operator adds its own states behind the old ones, the
entry before the exit, and changes old states in one way only: the exit of an operand stops
accepting and goes on elsewhere. States are numbered with 32 bits, so an operator fails when it
finds no room for its states.

## Main definitions

* `Fragment`, `Arena` — fragments and where their states live.
* `Arena.epsilon`, `Arena.symbol`, `Arena.concat`, `Arena.union`, `Arena.star`, `Arena.opt`,
  `Arena.plus` — what the operators make.
* `Arena.repeated` — what the operator of a quantifier makes.
* `Operation` — the operators as data, with their operands.
* `Arena.apply` — apply an operator, if there is room for its states.
* `Arena.extract` — the automaton of a fragment.
-/

namespace RegexLab

structure Fragment where
  entry : Nat
  exit : Nat
deriving DecidableEq, Repr, Inhabited

structure Arena where
  states : Array State := #[]
deriving DecidableEq, Repr, Inhabited

namespace Arena

def size (A : Arena) : Nat :=
  A.states.size

def push (A : Arena) (s : State) : Arena :=
  { states := A.states.push s }

/-- Let a state go on to others instead of accepting. -/
def redirect (A : Arena) (i : Nat) (targets : List Nat) : Arena :=
  { states := A.states.modify i fun s =>
      { s with accept := false, epsilons := s.epsilons ++ targets } }

/-- Add an entry with the given edges and an accepting exit. The edges are told both indices. -/
def pushPair (A : Arena) (entry : Fragment → State) : Fragment × Arena :=
  let ends : Fragment := ⟨A.size, A.size + 1⟩
  (ends, (A.push (entry ends)).push { accept := true })

@[simp] theorem size_push (A : Arena) (s : State) : (A.push s).size = A.size + 1 := by
  simp [push, size]

@[simp] theorem size_redirect (A : Arena) (i : Nat) (targets : List Nat) :
    (A.redirect i targets).size = A.size := by
  simp [redirect, size]

/-! ## What operators make -/

def epsilon (A : Arena) : Fragment × Arena :=
  A.pushPair fun f => { epsilons := [f.exit] }

def symbol (A : Arena) (c : UInt8) : Fragment × Arena :=
  A.pushPair fun f => { edge := some (c, f.exit) }

def concat (A : Arena) (a b : Fragment) : Fragment × Arena :=
  (⟨a.entry, b.exit⟩, A.redirect a.exit [b.entry])

def union (A : Arena) (a b : Fragment) : Fragment × Arena :=
  let (f, A) := A.pushPair fun _ => { epsilons := [a.entry, b.entry] }
  (f, (A.redirect a.exit [f.exit]).redirect b.exit [f.exit])

def star (A : Arena) (a : Fragment) : Fragment × Arena :=
  let (f, A) := A.pushPair fun f => { epsilons := [f.exit, a.entry] }
  (f, A.redirect a.exit [f.exit, a.entry])

def opt (A : Arena) (a : Fragment) : Fragment × Arena :=
  let (f, A) := A.pushPair fun f => { epsilons := [f.exit, a.entry] }
  (f, A.redirect a.exit [f.exit])

def plus (A : Arena) (a : Fragment) : Fragment × Arena :=
  let (f, A) := A.pushPair fun _ => { epsilons := [a.entry] }
  (f, A.redirect a.exit [f.exit, a.entry])

def repeated (A : Arena) (q : Quantifier) (a : Fragment) : Fragment × Arena :=
  match q with
  | .star => A.star a
  | .plus => A.plus a
  | .opt => A.opt a

@[simp] theorem size_epsilon (A : Arena) : A.epsilon.2.size = A.size + 2 := by
  simp [epsilon, pushPair]

@[simp] theorem size_symbol (A : Arena) (c : UInt8) : (A.symbol c).2.size = A.size + 2 := by
  simp [symbol, pushPair]

@[simp] theorem size_concat (A : Arena) (a b : Fragment) : (A.concat a b).2.size = A.size := by
  simp [concat]

@[simp] theorem size_union (A : Arena) (a b : Fragment) : (A.union a b).2.size = A.size + 2 := by
  simp [union, pushPair]

@[simp] theorem size_star (A : Arena) (a : Fragment) : (A.star a).2.size = A.size + 2 := by
  simp [star, pushPair]

@[simp] theorem size_opt (A : Arena) (a : Fragment) : (A.opt a).2.size = A.size + 2 := by
  simp [opt, pushPair]

@[simp] theorem size_plus (A : Arena) (a : Fragment) : (A.plus a).2.size = A.size + 2 := by
  simp [plus, pushPair]

/-! ## Operators -/

end Arena

inductive Operation where
  | epsilon
  | symbol (c : UInt8)
  | concat (a b : Fragment)
  | union (a b : Fragment)
  | repeated (q : Quantifier) (a : Fragment)
deriving DecidableEq, Repr

namespace Arena

/-- What an operator makes, if there is room for it. -/
def perform (A : Arena) : Operation → Fragment × Arena
  | .epsilon => A.epsilon
  | .symbol c => A.symbol c
  | .concat a b => A.concat a b
  | .union a b => A.union a b
  | .repeated q a => A.repeated q a

/-- The number of states that an arena has room for. The greatest number of 32 bits is given to no
state. -/
def limit : Nat :=
  UInt32.size - 1

/-- What was made, unless there is no room for its states. -/
def bounded (made : Fragment × Arena) : Except RegexError (Fragment × Arena) :=
  if made.2.size ≤ limit then .ok made else .error .tooManyStates

def apply (A : Arena) (op : Operation) : Except RegexError (Fragment × Arena) :=
  bounded (A.perform op)

/-! ## The finished automaton -/

/-- The automaton of a fragment, and the arena left behind, which is empty. -/
def extract (A : Arena) (f : Fragment) : Except RegexError (Automaton × Arena) :=
  if f.entry < A.size ∧ f.exit < A.size then
    .ok ({ states := A.states, entry := f.entry, exit := f.exit }, {})
  else .error .foreignFragment

end Arena

end RegexLab
