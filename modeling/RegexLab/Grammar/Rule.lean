import RegexLab.Text.Words

/-!
# The grammar of patterns

    Expr   → Term | Term '|' Expr
    Term   → Factor | Factor Term
    Factor → Atom | Atom Quantifier
    Atom   → Char | '(' Expr ')'
    Char   → any byte but * + ? ( ) | \ , or '\' and any byte

## Main definitions

* `Rule` — the five rules and the labels of their nodes.
* `Quantifier` — the three marks of repetition.
* `Mark` — the part that a byte plays in a pattern.
-/

namespace RegexLab

/-! ## Rules -/

/-- A rule of the grammar, from the loosest to the tightest binding one. -/
inductive Rule where
  | expr
  | term
  | factor
  | atom
  | char
deriving DecidableEq, Repr

namespace Rule

def label : Rule → Bytes
  | expr => ascii "Expr"
  | term => ascii "Term"
  | factor => ascii "Factor"
  | atom => ascii "Atom"
  | char => ascii "Char"

def ofLabel? (label : Bytes) : Option Rule :=
  [expr, term, factor, atom, char].find? (·.label == label)

@[simp] theorem ofLabel?_label (r : Rule) : ofLabel? r.label = some r := by
  cases r <;> decide

theorem ofLabel?_eq_some_iff {label : Bytes} {r : Rule} :
    ofLabel? label = some r ↔ label = r.label := by
  constructor
  · intro h
    exact (by simpa using List.find?_some h : r.label = label).symm
  · rintro rfl
    exact ofLabel?_label r

theorem label_injective {r s : Rule} (h : r.label = s.label) : r = s := by
  simpa using congrArg ofLabel? h

end Rule

/-! ## Marks -/

inductive Quantifier where
  | star
  | plus
  | opt
deriving DecidableEq, Repr

namespace Quantifier

def byte : Quantifier → UInt8
  | star => '*'.toUInt8
  | plus => '+'.toUInt8
  | opt => '?'.toUInt8

def ofByte? (c : UInt8) : Option Quantifier :=
  [star, plus, opt].find? (·.byte == c)

@[simp] theorem ofByte?_byte (q : Quantifier) : ofByte? q.byte = some q := by
  cases q <;> decide

theorem ofByte?_eq_some_iff {c : UInt8} {q : Quantifier} : ofByte? c = some q ↔ c = q.byte := by
  constructor
  · intro h
    exact (by simpa using List.find?_some h : q.byte = c).symm
  · rintro rfl
    exact ofByte?_byte q

def ofLabel? : Bytes → Option Quantifier
  | [c] => ofByte? c
  | _ => none

theorem ofLabel?_eq_some_iff {label : Bytes} {q : Quantifier} :
    ofLabel? label = some q ↔ label = [q.byte] := by
  constructor
  · intro h
    unfold ofLabel? at h
    split at h
    · rw [ofByte?_eq_some_iff.mp h]
    · simp at h
  · rintro rfl
    exact ofByte?_byte q

end Quantifier

def bar : UInt8 := '|'.toUInt8

def opening : UInt8 := '('.toUInt8

def closing : UInt8 := ')'.toUInt8

/-- The part that a byte plays in a pattern. -/
inductive Mark where
  | quantifier (q : Quantifier)
  | bar
  | opening
  | closing
  | escape
  /-- Any other byte, which stands for itself. -/
  | literal
deriving DecidableEq, Repr

def Mark.ofByte (c : UInt8) : Mark :=
  match Quantifier.ofByte? c with
  | some q => quantifier q
  | none =>
    if c = RegexLab.bar then bar
    else if c = RegexLab.opening then opening
    else if c = RegexLab.closing then closing
    else if c = backslash then escape
    else literal

end RegexLab
