import RegexLab.Text.Bytes

/-!
# Lines

A text is read line by line: a line feed ends a line, and bytes after the last line feed form a
last line of their own.

## Main definitions

* `Bytes.takeLine` — the first line of a text, and what follows its line feed if it has one.
* `Bytes.lines` — all lines of a text.
* `LineSource` — a text being read, which knows whether its end has been met.
-/

namespace RegexLab

def lineFeed : UInt8 := '\n'.toUInt8

namespace Bytes

/-- The bytes before the first line feed, and the text after it if there is one. -/
def takeLine (s : Bytes) : Bytes × Option Bytes :=
  (s.takeWhile (· != lineFeed),
    match s.dropWhile (· != lineFeed) with
    | [] => none
    | _ :: rest => some rest)

/-- The text left after a line is shorter. -/
theorem length_lt_of_takeLine {s line rest : Bytes} (h : s.takeLine = (line, some rest)) :
    rest.length < s.length := by
  have hle := (List.dropWhile_sublist (· != lineFeed) (l := s)).length_le
  unfold takeLine at h
  split at h
  · simp at h
  · rename_i c t ht
    simp only [Prod.mk.injEq, Option.some.injEq] at h
    rw [ht, h.2] at hle
    exact hle

/-- The lines of a text, without their line feeds. Nothing after the last line feed makes no line.
-/
def lines (s : Bytes) : List Bytes :=
  if s = [] then []
  else match _h : s.takeLine with
    | (line, none) => [line]
    | (line, some rest) => line :: lines rest
termination_by s.length
decreasing_by exact length_lt_of_takeLine _h

/-- A line that no line feed ends is the whole text. -/
theorem takeLine_of_notMem {line : Bytes} (h : lineFeed ∉ line) : line.takeLine = (line, none) := by
  have ha : ∀ c ∈ line, (c != lineFeed) = true := by grind
  have ht : (line ++ []).takeWhile (· != lineFeed) = line ++ [] := List.takeWhile_append_of_pos ha
  have hd : (line ++ []).dropWhile (· != lineFeed) = [] := List.dropWhile_append_of_pos ha
  rw [List.append_nil] at ht hd
  rw [takeLine, ht, hd]

/-- A line ends at the first line feed. -/
theorem takeLine_append {line : Bytes} (h : lineFeed ∉ line) (rest : Bytes) :
    takeLine (line ++ lineFeed :: rest) = (line, some rest) := by
  have ha : ∀ c ∈ line, (c != lineFeed) = true := by grind
  simp [takeLine, List.takeWhile_append_of_pos ha, List.dropWhile_append_of_pos ha]

@[simp] theorem lines_nil : lines [] = [] := by
  simp [lines]

theorem lines_of_notMem {line : Bytes} (hne : line ≠ []) (h : lineFeed ∉ line) :
    lines line = [line] := by
  rw [lines, if_neg hne]
  split <;> simp_all [takeLine_of_notMem h]

theorem lines_append {line : Bytes} (h : lineFeed ∉ line) (rest : Bytes) :
    lines (line ++ lineFeed :: rest) = line :: lines rest := by
  rw [lines, if_neg (by simp)]
  split <;> simp_all [takeLine_append h]

end Bytes

/-- A text that is read a line at a time. The end is met when a line was cut short by it, or when
nothing was left to read. -/
structure LineSource where
  rest : Bytes
  ended : Bool := false
deriving DecidableEq, Repr

namespace LineSource

def next? (source : LineSource) : Option Bytes × LineSource :=
  if source.ended || source.rest.isEmpty then
    (none, { source with ended := true })
  else
    match source.rest.takeLine with
    | (line, none) => (some line, { rest := [], ended := true })
    | (line, some rest) => (some line, { rest })

/-- Read a line into a place that holds the line `previous`. At a known end the place keeps what it
holds; when the end is met only now it becomes empty. -/
def readOver (source : LineSource) (previous : Bytes) : Bool × Bytes × LineSource :=
  match source.next? with
  | (some line, after) => (true, line, after)
  | (none, after) => (false, if source.ended then previous else [], after)

/-- A source that gives a line has less text left. -/
theorem length_rest_lt_of_next? {source after : LineSource} {line : Bytes}
    (h : source.next? = (some line, after)) : after.rest.length < source.rest.length := by
  unfold next? at h
  split at h
  · simp at h
  · rename_i hne
    simp only [Bool.or_eq_true, List.isEmpty_iff, not_or] at hne
    split at h
    · simp only [Prod.mk.injEq, Option.some.injEq] at h
      rw [← h.2]
      exact List.length_pos_iff.mpr hne.2
    · rename_i ht
      simp only [Prod.mk.injEq, Option.some.injEq] at h
      rw [← h.2]
      exact Bytes.length_lt_of_takeLine ht

end LineSource

end RegexLab
