import RegexLab.Automaton.Closure

/-!
# Running an automaton on a word

All states that the automaton can be in are followed at once, so nothing is ever tried twice.

## Main definitions

* `Frontier` — the states that the automaton can be in after some bytes.
* `Frontier.advance` — the frontier after one more byte.
* `Automaton.accepts` — whether the automaton accepts a word.
-/

namespace RegexLab

/-- The states that an automaton can be in after some bytes, relays left out. -/
structure Frontier where
  active : Array Nat
  stamps : Stamps
  step : Nat
deriving Repr

namespace Automaton

def frontier (a : Automaton) : Frontier :=
  let (stamps, active) := a.close 1 a.freshStamps #[] a.entry
  { active, stamps, step := 1 }

def follow (a : Automaton) (c : UInt8) (step : Nat) (reached : Stamps × Array Nat) (i : Nat) :
    Stamps × Array Nat :=
  match a.states[i]? with
  | some { edge := some (d, target), .. } =>
    if d = c then
      match reached with
      | (stamps, found) => a.close step stamps found target
    else reached
  | _ => reached

end Automaton

namespace Frontier

def advance (a : Automaton) (f : Frontier) (c : UInt8) : Frontier :=
  match f with
  | { active, stamps, step } =>
    let (stamps, active) := active.foldl (a.follow c (step + 1)) (stamps, #[])
    { active, stamps, step := step + 1 }

def accepting (a : Automaton) (f : Frontier) : Bool :=
  f.active.any fun i => (a.states[i]?).any (·.accept)

/-- Read the rest of a word. Nothing is read any more once no state is left. -/
def run (a : Automaton) (f : Frontier) : Bytes → Bool
  | [] => f.accepting a
  | c :: word => if f.active.isEmpty then false else (f.advance a c).run a word

end Frontier

/-- Whether an automaton accepts a word. One without states accepts nothing. -/
def Automaton.accepts (a : Automaton) (word : Bytes) : Bool :=
  if a.states.isEmpty then false else a.frontier.run a word

end RegexLab
