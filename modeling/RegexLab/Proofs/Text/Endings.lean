import RegexLab.Proofs.Text.Lines
import RegexLab.Text.Words

/-!
# Ends of lines

A line may end with a carriage return before its line feed, and the last line of a text need not end
with a line feed at all. However the lines of a text end, they are the same once a carriage return
at the end of each has been taken away.

## Main definitions

* `Bytes.withReturns` — a text with a carriage return before every line feed.
* `Bytes.Respelled` — a text after changes to how its lines end.
* `Bytes.plainLines` — the lines of a text, however they end.
-/

namespace RegexLab

def carriageReturn : UInt8 := '\r'.toUInt8

namespace Bytes

variable {s t line : Bytes}

def withReturns (s : Bytes) : Bytes :=
  s.flatMap fun c => if c = lineFeed then [carriageReturn, lineFeed] else [c]

/-- The text `t` is `s` after changes to how its lines end: a carriage return has been put before
every line feed of a text in which there was none before any, or a line feed behind a last line that
had none. -/
inductive Respelled (s : Bytes) : Bytes → Prop
  | refl : Respelled s s
  | returns {t : Bytes} : Respelled s t → ¬ [carriageReturn, lineFeed] <:+: t →
      Respelled s t.withReturns
  | feed {t : Bytes} : Respelled s t → t ≠ [] → t.getLast? ≠ some lineFeed →
      Respelled s (t ++ [lineFeed])

def plainLines (s : Bytes) : List Bytes :=
  s.segments.map stripReturn

theorem plainLines_append (h : lineFeed ∉ line) (rest : Bytes) :
    plainLines (line ++ lineFeed :: rest) = stripReturn line :: plainLines rest := by
  rw [plainLines, segments_append h, List.map_cons, plainLines]

theorem withReturns_append (s t : Bytes) : withReturns (s ++ t) = withReturns s ++ withReturns t :=
  List.flatMap_append

/-- A text without a line feed is kept. -/
theorem withReturns_of_notMem (h : lineFeed ∉ s) : withReturns s = s := by
  induction s with
  | nil => rfl
  | cons c s ih =>
    obtain ⟨hc, hs⟩ := List.ne_and_not_mem_of_not_mem_cons h
    rw [withReturns, List.flatMap_cons, if_neg hc.symm, ← withReturns, ih hs,
      List.singleton_append]

/-- The first line of a text gets a carriage return at its end, and so do those behind it. -/
theorem withReturns_line (h : lineFeed ∉ line) (rest : Bytes) :
    withReturns (line ++ lineFeed :: rest) =
      (line ++ [carriageReturn]) ++ lineFeed :: withReturns rest := by
  rw [withReturns_append, withReturns_of_notMem h, withReturns, List.flatMap_cons, if_pos rfl,
    ← withReturns]
  simp

/-- Carriage returns before the line feeds do not count. -/
theorem plainLines_withReturns (h : ¬ [carriageReturn, lineFeed] <:+: s) :
    plainLines (withReturns s) = plainLines s := by
  induction s using lines_induction with
  | empty => rfl
  | single line _ hline => rw [withReturns_of_notMem hline]
  | line line rest hline ih =>
    have hrest : ¬ [carriageReturn, lineFeed] <:+: rest := fun hrest =>
      h (hrest.trans ((List.suffix_cons lineFeed rest).trans (List.suffix_append line _)).isInfix)
    have hend : line.getLast? ≠ some carriageReturn := by
      intro hend
      obtain ⟨front, rfl⟩ := List.getLast?_eq_some_iff.mp hend
      exact h ⟨front, rest, by simp⟩
    have hreturn : lineFeed ∉ line ++ [carriageReturn] := by
      simpa [hline] using (by decide : lineFeed ≠ carriageReturn)
    have hstrip : stripReturn (line ++ [carriageReturn]) = stripReturn line :=
      (stripReturn_concat_return line).trans (if_neg hend).symm
    rw [withReturns_line hline, plainLines_append hreturn, plainLines_append hline, ih hrest, hstrip]

/-- A line feed behind the last line does not count. -/
theorem plainLines_feed (hne : s ≠ []) (h : s.getLast? ≠ some lineFeed) :
    plainLines (s ++ [lineFeed]) = plainLines s := by
  induction s using lines_induction with
  | empty => exact absurd rfl hne
  | single line _ hline =>
    rw [plainLines_append hline, plainLines, plainLines, segments_nil,
      segments_of_notMem hne hline]
    rfl
  | line line rest hline ih =>
    -- The text does not end here, or its last byte would be this line feed.
    have hrest : rest ≠ [] := by
      rintro rfl
      simp at h
    have hlast : (line ++ lineFeed :: rest).getLast? = rest.getLast? := by
      rw [List.getLast?_append, List.getLast?_cons_of_ne_nil hrest,
        List.getLast?_eq_some_getLast hrest, Option.some_or]
    rw [List.append_assoc, List.cons_append, plainLines_append hline, plainLines_append hline,
      ih hrest (hlast ▸ h)]

/-- However the lines of a text end, they are the same lines. -/
theorem Respelled.plainLines_eq (h : Respelled s t) : plainLines s = plainLines t := by
  induction h with
  | refl => rfl
  | returns _ hreturns ih => rw [plainLines_withReturns hreturns, ih]
  | feed _ hne hlast ih => rw [plainLines_feed hne hlast, ih]

end Bytes

end RegexLab
