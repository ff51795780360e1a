import RegexLab.Automaton.OfTree
import RegexLab.Automaton.Simulation
import RegexLab.Grammar.Parser
import RegexLab.Log
import RegexLab.Regex.Postfix

/-!
# Compiling patterns

A pattern becomes a tree, and the tree an automaton. The empty pattern has no tree: its automaton
accepts the empty word only.

## Main definitions

* `Build` — an automaton, and what is noted in the log about it.
* `buildTree`, `buildInfix`, `buildPostfix` — the automaton of a tree, of a pattern, of a postfix
  text.
* `Pattern` — a pattern with its automaton.
-/

namespace RegexLab

structure Build where
  automaton : Automaton
  notes : List LogEntry := []
deriving Repr

namespace Build

def note (t : Tree) (a : Automaton) : LogEntry where
  level := .debug
  message :=
    ascii "Compiled " ++ t.text.backquoted ++ ascii " into " ++ decimal a.size ++ ascii " states."

def ofEmpty : Except RegexError Build := do
  let (f, A) ← Arena.apply {} .epsilon
  return { automaton := (← A.extract f).1 }

end Build

def buildTree (t : Tree) : Except RegexError Build := do
  let (f, A) ← t.assemble [] {}
  let (automaton, _) ← A.extract f
  return { automaton, notes := [Build.note t automaton] }

def buildInfix (pattern : Bytes) : Except RegexError Build :=
  if pattern.isEmpty then Build.ofEmpty else do buildTree (← parse pattern)

def buildPostfix (tokens : Bytes) : Except RegexError Build :=
  if tokens.isEmpty then Build.ofEmpty else do buildTree (← Tree.ofPostfix tokens)

structure Pattern where
  source : Bytes
  automaton : Automaton
deriving DecidableEq, Repr

namespace Pattern

def compile (source : Bytes) : Except RegexError (Pattern × List LogEntry) := do
  let build ← buildInfix source
  return ({ source, automaton := build.automaton }, build.notes)

def accepts (p : Pattern) (word : Bytes) : Bool :=
  p.automaton.accepts word

end Pattern

end RegexLab
