/-!
# Byte strings

Patterns, words, labels and lines are sequences of bytes; no encoding is assumed anywhere.

## Main definitions

* `Bytes` — a byte string.
* `ascii` — the bytes of a text of one-byte characters.
* `decimal` — a natural number in base ten.
* `Bytes.untilNul` — the part of a byte string before its first zero byte.
* `Bytes.backquoted` — a byte string between two backquotes.
* `Bytes.before` — the order of byte strings.
-/

namespace RegexLab

abbrev Bytes := List UInt8

/-- The bytes of a text whose characters are one byte each. -/
def ascii (text : String) : Bytes :=
  text.toList.map Char.toUInt8

def decimal (n : Nat) : Bytes :=
  (Nat.toDigits 10 n).map Char.toUInt8

namespace Bytes

/-- The part of a text before its first zero byte. Messages end there, and so do the names that the
file system is asked for. -/
def untilNul (s : Bytes) : Bytes :=
  s.takeWhile (· != 0)

def backquoted (s : Bytes) : Bytes :=
  ascii "`" ++ s ++ ascii "`"

/-- The order of byte strings: the first difference decides, and a beginning comes before the
whole. -/
def before : Bytes → Bytes → Bool
  | _, [] => false
  | [], _ :: _ => true
  | a :: s, b :: t => a < b || (a == b && before s t)

@[simp] theorem untilNul_nil : untilNul [] = [] := rfl

end Bytes

end RegexLab
