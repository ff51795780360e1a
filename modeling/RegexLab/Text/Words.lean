import RegexLab.Text.Bytes

/-!
# Blanks, words and quoted arguments

A line is cut into words at its blanks. A word that opens with a quote runs to the matching quote
instead, so that an argument may hold blanks or be empty.

## Main definitions

* `isWhite` — whether a byte is one of the six blanks.
* `Bytes.blanksEnd`, `Bytes.wordEnd` — the index where a run of blanks, or a word, ends.
* `Bytes.trim`, `Bytes.stripReturn` — a text without its outer blanks, or without one final
  carriage return.
* `Bytes.takeArgument` — the argument at the head of a text, and what follows it.
* `Bytes.arguments` — all arguments of a text.
-/

namespace RegexLab

/-- Whether a byte separates words: the tab, the line feed, the vertical tab, the form feed, the
carriage return and the space do. -/
def isWhite (c : UInt8) : Bool :=
  c == 0x20 || (0x09 ≤ c && c ≤ 0x0d)

def singleQuote : UInt8 := '\''.toUInt8

def doubleQuote : UInt8 := '"'.toUInt8

def backslash : UInt8 := '\\'.toUInt8

/-- An argument as it was written: its value, and whether quotes enclosed it. -/
structure Argument where
  value : Bytes
  quoted : Bool
deriving DecidableEq, Repr

namespace Bytes

/-! ## Runs of blanks and words -/

/-- The index of the first byte at or after `start` that is no blank. A start past the end is the
answer itself. -/
def blanksEnd (start : Nat) (s : Bytes) : Nat :=
  start + ((s.drop start).takeWhile isWhite).length

def wordEnd (start : Nat) (s : Bytes) : Nat :=
  start + ((s.drop start).takeWhile (!isWhite ·)).length

def trim (s : Bytes) : Bytes :=
  ((s.dropWhile isWhite).reverse.dropWhile isWhite).reverse

/-- A text without one carriage return at its end. -/
def stripReturn (s : Bytes) : Bytes :=
  if s.getLast? = some 0x0d then s.dropLast else s

/-! ## Arguments -/

/-- The value of a quoted argument and the text after its closing quote. `done` holds the bytes
read so far, latest first. In double quotes a backslash before a double quote or before a backslash
stands for that byte; a quote that is never closed runs to the end. -/
def takeQuoted (quote : UInt8) (done : Bytes) : Bytes → Bytes × Bytes
  | [] => (done.reverse, [])
  | c :: s =>
    if c = quote then (done.reverse, s)
    else if quote = doubleQuote ∧ c = backslash then
      match s with
      | [] => ((c :: done).reverse, [])
      | d :: t =>
        if d = doubleQuote ∨ d = backslash then takeQuoted quote (d :: done) t
        else takeQuoted quote (c :: done) (d :: t)
    else takeQuoted quote (c :: done) s
termination_by s => s.length

/-- The argument at the head of a text and the text after it. An argument that does not open with a
quote is a word. -/
def takeArgument : Bytes → Argument × Bytes
  | [] => (⟨[], false⟩, [])
  | c :: s =>
    if c = singleQuote ∨ c = doubleQuote then
      let (value, rest) := takeQuoted c [] s
      (⟨value, true⟩, rest)
    else
      (⟨(c :: s).takeWhile (!isWhite ·), false⟩, (c :: s).dropWhile (!isWhite ·))

def argumentAt (start : Nat) (s : Bytes) : Nat × Argument :=
  let (argument, rest) := takeArgument (s.drop start)
  (if start < s.length then s.length - rest.length else start, argument)

theorem length_takeQuoted_le (quote : UInt8) (done s : Bytes) :
    (takeQuoted quote done s).2.length ≤ s.length := by
  fun_induction takeQuoted quote done s <;> simp_all <;> omega

/-- An argument that does not start with a blank takes at least one byte. -/
theorem length_takeArgument_lt {c : UInt8} (s : Bytes) (h : isWhite c = false) :
    (takeArgument (c :: s)).2.length < (c :: s).length := by
  by_cases hq : c = singleQuote ∨ c = doubleQuote
  · simpa [takeArgument, hq] using Nat.lt_succ_of_le (length_takeQuoted_le c [] s)
  · simpa [takeArgument, hq, h] using
      Nat.lt_succ_of_le (List.dropWhile_sublist (!isWhite ·)).length_le

def arguments (s : Bytes) : List Bytes :=
  match _h : s.dropWhile isWhite with
  | [] => []
  | c :: t =>
    let taken := takeArgument (c :: t)
    taken.1.value :: arguments taken.2
termination_by s.length
decreasing_by
  have hc : isWhite c = false := by
    have hd := List.head_dropWhile_not isWhite (l := s) (by simp [_h])
    simpa [_h] using hd
  have hs : (c :: t).length ≤ s.length := by
    rw [← _h]
    exact (List.dropWhile_sublist isWhite).length_le
  exact Nat.lt_of_lt_of_le (length_takeArgument_lt t hc) hs

/-- A text without a word has no arguments. -/
theorem arguments_of_blank {s : Bytes} (h : s.all isWhite) : arguments s = [] := by
  have ha : (s ++ []).dropWhile isWhite = [] :=
    List.dropWhile_append_of_pos (List.all_eq_true.mp h)
  unfold arguments
  split
  · rfl
  · simp_all

@[simp] theorem stripReturn_nil : stripReturn [] = [] := rfl

@[simp] theorem stripReturn_concat_return (s : Bytes) : stripReturn (s ++ [0x0d]) = s := by
  simp [stripReturn]

end Bytes

end RegexLab
