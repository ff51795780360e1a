import RegexLab.Text.Lines

/-!
# Lines as segments

Reading a text line by line gives its segments between line feeds, except that nothing after the
last line feed makes no line.

## Main definitions

* `Bytes.segments` — the segments of a text between its line feeds.
-/

namespace RegexLab

namespace Bytes

/-- The segments of a text between its line feeds. An empty one at the end does not count. -/
def segments (s : Bytes) : List Bytes :=
  let parts := s.splitOn lineFeed
  if parts.getLast? = some [] then parts.dropLast else parts

@[simp] theorem segments_nil : segments [] = [] := rfl

theorem segments_of_notMem {line : Bytes} (hne : line ≠ []) (h : lineFeed ∉ line) :
    segments line = [line] := by
  simp [segments, List.splitOn_eq_singleton h, hne]

theorem segments_append {line : Bytes} (h : lineFeed ∉ line) (rest : Bytes) :
    segments (line ++ lineFeed :: rest) = line :: segments rest := by
  have hparts : rest.splitOn lineFeed ≠ [] := List.splitOn_ne_nil _ _
  unfold segments
  rw [List.splitOn_append_cons_self_of_not_mem h]
  simp only [List.getLast?_cons_of_ne_nil hparts, List.dropLast_cons_of_ne_nil hparts]
  split <;> rfl

/-- A text is empty, or a single line that no line feed ends, or a line with the text behind its line
feed. -/
@[elab_as_elim]
theorem lines_induction {motive : Bytes → Prop} (empty : motive [])
    (single : ∀ line, line ≠ [] → lineFeed ∉ line → motive line)
    (line : ∀ line rest, lineFeed ∉ line → motive rest → motive (line ++ lineFeed :: rest))
    (s : Bytes) : motive s := by
  by_cases hmem : lineFeed ∈ s
  · obtain ⟨first, rest, hs, h⟩ := List.eq_append_cons_of_mem hmem
    rw [hs]
    exact line first rest h (lines_induction empty single line rest)
  · by_cases hne : s = []
    · rwa [hne]
    · exact single s hne hmem
termination_by s.length
decreasing_by
  simp only [hs, List.length_append, List.length_cons]
  omega

/-- The lines of a text are its segments. -/
theorem lines_eq_segments (s : Bytes) : s.lines = s.segments := by
  induction s using lines_induction with
  | empty => rw [lines_nil, segments_nil]
  | single line hne h => rw [lines_of_notMem hne h, segments_of_notMem hne h]
  | line line rest h ih => rw [lines_append h, segments_append h, ih]

end Bytes

end RegexLab
