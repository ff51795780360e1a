import RegexLab.Grammar.Rule

/-!
# Parse trees

A node has a label and children; a node without children is a leaf, whatever its label. Trees need
not follow the grammar.

## Main definitions

* `Tree` — labelled trees.
* `Tree.term`, `Tree.expr` — the nested nodes of a run of factors, and of a run of alternatives.
* `Tree.text` — the leaf labels from left to right.
* `Tree.listing` — one line per node, indented by depth.
-/

namespace RegexLab

inductive Tree where
  | node (label : Bytes) (children : List Tree)
deriving Repr, Inhabited

namespace Tree

def label : Tree → Bytes
  | node label _ => label

def children : Tree → List Tree
  | node _ children => children

/-! ## Equality -/

mutual

def decEq : (t u : Tree) → Decidable (t = u)
  | node a ts, node b us =>
    if h : a = b then
      match decEqAll ts us with
      | isTrue h' => isTrue (by rw [h, h'])
      | isFalse h' => isFalse fun e => h' (node.inj e).2
    else isFalse fun e => h (node.inj e).1

def decEqAll : (ts us : List Tree) → Decidable (ts = us)
  | [], [] => isTrue rfl
  | t :: ts, u :: us =>
    match decEq t u with
    | isTrue h =>
      match decEqAll ts us with
      | isTrue h' => isTrue (by rw [h, h'])
      | isFalse h' => isFalse fun e => h' (List.cons.inj e).2
    | isFalse h => isFalse fun e => h (List.cons.inj e).1
  | [], _ :: _ => isFalse nofun
  | _ :: _, [] => isFalse nofun

end

instance : DecidableEq Tree := decEq

/-! ## Building -/

def leaf (c : UInt8) : Tree :=
  node [c] []

def bare (c : UInt8) : Tree :=
  node Rule.char.label [leaf c]

def escaped (c : UInt8) : Tree :=
  node Rule.char.label [leaf backslash, leaf c]

def atom (char : Tree) : Tree :=
  node Rule.atom.label [char]

def group (expr : Tree) : Tree :=
  node Rule.atom.label [leaf opening, expr, leaf closing]

def factor (atom : Tree) : Tree :=
  node Rule.factor.label [atom]

def quantified (atom : Tree) (q : Quantifier) : Tree :=
  node Rule.factor.label [atom, leaf q.byte]

/-- The nested nodes of a run of factors. A run has at least one. -/
def term : List Tree → Tree
  | [] => node Rule.term.label []
  | [last] => node Rule.term.label [last]
  | first :: rest => node Rule.term.label [first, term rest]

def expr : List Tree → Tree
  | [] => node Rule.expr.label []
  | [last] => node Rule.expr.label [last]
  | first :: rest => node Rule.expr.label [first, leaf bar, expr rest]

/-! ## Size -/

mutual

def size : Tree → Nat
  | node _ children => sizeAll children + 1

def sizeAll : List Tree → Nat
  | [] => 0
  | t :: ts => t.size + sizeAll ts

end

@[simp] theorem sizeAll_append (ts us : List Tree) :
    sizeAll (ts ++ us) = sizeAll ts + sizeAll us := by
  induction ts with
  | nil => simp [sizeAll]
  | cons t ts ih => simp [sizeAll, ih, Nat.add_assoc]

/-! ## Text -/

/-- The text of the trees that are still to be visited, after what has been written, latest byte
first. -/
def writeText : List Tree → Bytes → Bytes
  | [], written => written.reverse
  | node label [] :: pending, written => writeText pending (label.reverse ++ written)
  | node _ (t :: ts) :: pending, written => writeText (t :: ts ++ pending) written
termination_by pending => sizeAll pending
decreasing_by all_goals simp [sizeAll, size]; try omega

/-- The labels of the leaves, from left to right. -/
def text (t : Tree) : Bytes :=
  writeText [t] []

/-! ## Listing -/

/-- Two spaces per level; a width that does not fit in 32 bits wraps around. -/
def indentation (level : Nat) : Bytes :=
  List.replicate (2 * level % UInt32.size) 0x20

def leafLine (level : Nat) (label : Bytes) : List Bytes :=
  [indentation level, [singleQuote], label, ascii "'\n"]

def innerLine (level : Nat) (label : Bytes) : List Bytes :=
  [indentation level, label, ascii "\n"]

/-- The pieces of the lines of the trees that are still to be visited, each with its level, after
the pieces that have been written, latest first. -/
def writeListing : List (Nat × Tree) → List Bytes → List Bytes
  | [], written => written.reverse
  | (level, node label []) :: pending, written =>
    writeListing pending ((leafLine level label).reverse ++ written)
  | (level, node label (t :: ts)) :: pending, written =>
    writeListing ((t :: ts).map (level + 1, ·) ++ pending)
      ((innerLine level label).reverse ++ written)
termination_by pending => sizeAll (pending.map (·.2))
decreasing_by all_goals simp [sizeAll, size, Function.comp_def]; try omega

/-- The listing of a tree in pieces, the root being at a given level: one line per node, indented
by its level, the label of a leaf standing in quotes. -/
def listing (level : Nat) (t : Tree) : List Bytes :=
  writeListing [(level, t)] []

end Tree

end RegexLab
