import RegexLab.Text.Bytes

/-!
# Automata

A state is an index into an array. It may read one byte and go to one state, and it may go to any
number of states without reading, in the order in which these edges were added.

## Main definitions

* `State` — a state with its edges.
* `Automaton` — an array of states with an entry and an exit.
* `Automaton.edgeCount` — the number of edges.
-/

namespace RegexLab

structure State where
  accept : Bool := false
  /-- The byte that the state reads, and where it goes then. -/
  edge : Option (UInt8 × Nat) := none
  /-- Where the state goes without reading. -/
  epsilons : List Nat := []
deriving DecidableEq, Repr, Inhabited

namespace State

/-- Whether the state does nothing but go on without reading. -/
def isRelay (s : State) : Bool :=
  !s.epsilons.isEmpty && s.edge.isNone && !s.accept

def degree (s : State) : Nat :=
  s.edge.toList.length + s.epsilons.length

end State

structure Automaton where
  states : Array State := #[]
  entry : Nat := 0
  exit : Nat := 0
deriving DecidableEq, Repr, Inhabited

namespace Automaton

def size (a : Automaton) : Nat :=
  a.states.size

def edgeCount (a : Automaton) : Nat :=
  a.states.foldl (fun n s => n + s.degree) 0

end Automaton

end RegexLab
