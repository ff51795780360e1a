import Mathlib.Data.List.Forall2
import Mathlib.Tactic.SplitIfs
import RegexLab.Proofs.Text.Arguments

/-!
# Where the arguments of a text stand

The arguments are read in a loop that goes on from the index behind the argument before. Every
argument takes at least one byte, so the loop ends, and all that it skips is blank. An argument that
opens with no quote is the word that stands there.

## Main definitions

* `Span` — a stretch of a text, from one index to another.
* `Bytes.Passes` — a run of the loop: the spans that it passes, and the arguments that it keeps.
* `Bytes.Gives` — a span, and the argument that stands there.
* `Bytes.CutFrom` — spans that leave nothing but blanks out, and their arguments.
-/

namespace RegexLab

/-- A stretch of a text: the index of its first byte, and the index behind its last one. -/
structure Span where
  start : Nat
  stop : Nat
deriving DecidableEq, Repr

def Span.text (span : Span) (s : Bytes) : Bytes :=
  (s.drop span.start).take (span.stop - span.start)

/-- What is kept of an argument: an empty one counts only if quotes enclosed it. -/
def Argument.kept (argument : Argument) : List Bytes :=
  if argument.value ≠ [] ∨ argument.quoted then [argument.value] else []

namespace Bytes

variable {s : Bytes} {i j k : Nat} {c : UInt8} {spans : List Span} {arguments : List Bytes}

/-! ## Skipping blanks -/

/-- Cutting at an index leaves what was before it, and what comes from there on. -/
theorem drop_length_takeWhile (p : UInt8 → Bool) (s : Bytes) :
    s.drop (s.takeWhile p).length = s.dropWhile p := by
  have hdrop : ∀ u v : Bytes, (u ++ v).drop u.length = v := fun _ _ => List.drop_left
  have hcut := hdrop (s.takeWhile p) (s.dropWhile p)
  rwa [List.takeWhile_append_dropWhile] at hcut

theorem take_length_takeWhile (p : UInt8 → Bool) (s : Bytes) :
    s.take (s.takeWhile p).length = s.takeWhile p := by
  have htake : ∀ u v : Bytes, (u ++ v).take u.length = u := fun _ _ => List.take_left
  have hcut := htake (s.takeWhile p) (s.dropWhile p)
  rwa [List.takeWhile_append_dropWhile] at hcut

theorem drop_blanksEnd (i : Nat) (s : Bytes) :
    s.drop (s.blanksEnd i) = (s.drop i).dropWhile isWhite := by
  rw [blanksEnd, ← List.drop_drop, drop_length_takeWhile]

theorem drop_wordEnd (i : Nat) (s : Bytes) :
    s.drop (s.wordEnd i) = (s.drop i).dropWhile (!isWhite ·) := by
  rw [wordEnd, ← List.drop_drop, drop_length_takeWhile]

theorem le_blanksEnd (i : Nat) (s : Bytes) : i ≤ s.blanksEnd i :=
  Nat.le_add_right _ _

/-- All that is skipped is blank. -/
theorem isWhite_of_lt_blanksEnd (hi : i ≤ k) (hk : k < s.blanksEnd i) (hc : s[k]? = some c) :
    isWhite c = true := by
  have hlt : k - i < ((s.drop i).takeWhile isWhite).length := by
    rw [blanksEnd] at hk
    omega
  rw [← Nat.add_sub_cancel' hi, ← List.getElem?_drop,
    ← List.takeWhile_append_dropWhile (p := isWhite) (l := s.drop i),
    List.getElem?_append_left hlt] at hc
  exact List.mem_takeWhile_imp (List.mem_of_getElem? hc)

/-- No blank is left. -/
theorem not_isWhite_blanksEnd (hc : s[s.blanksEnd i]? = some c) : isWhite c = false := by
  rw [← List.head?_drop, drop_blanksEnd] at hc
  exact eq_false_of_head?_dropWhile hc

/-- A word ends before a blank. -/
theorem isWhite_wordEnd (hc : s[s.wordEnd i]? = some c) : isWhite c = true := by
  rw [← List.head?_drop, drop_wordEnd] at hc
  simpa using eq_false_of_head?_dropWhile hc

/-! ## One argument -/

theorem takeQuoted_suffix (quote : UInt8) (done s : Bytes) : (takeQuoted quote done s).2 <:+ s := by
  fun_induction takeQuoted quote done s with
  | case1 => exact List.suffix_rfl
  | case2 => exact List.suffix_cons _ _
  | case3 => exact List.nil_suffix
  | case4 _ _ _ _ _ _ _ ih => exact ih.trans ((List.suffix_cons _ _).trans (List.suffix_cons _ _))
  | case5 _ _ _ _ _ _ _ ih => exact ih.trans (List.suffix_cons _ _)
  | case6 _ _ _ _ _ ih => exact ih.trans (List.suffix_cons _ _)

/-- What follows an argument is the end of the text. -/
theorem takeArgument_suffix (s : Bytes) : (takeArgument s).2 <:+ s := by
  unfold takeArgument
  split
  next => exact List.suffix_rfl
  next c s =>
    split_ifs
    · exact (takeQuoted_suffix c [] s).trans (List.suffix_cons c s)
    · exact List.dropWhile_suffix _

theorem argumentAt_eq (hi : i < s.length) : s.argumentAt i =
    (s.length - (takeArgument (s.drop i)).2.length, (takeArgument (s.drop i)).1) := by
  simp [argumentAt, hi]

/-- Reading goes on with what follows the argument. -/
theorem drop_argumentAt (hi : i < s.length) :
    s.drop (s.argumentAt i).1 = (takeArgument (s.drop i)).2 := by
  rw [argumentAt_eq hi]
  exact (List.suffix_iff_eq_drop.mp
    ((takeArgument_suffix (s.drop i)).trans (List.drop_suffix i s))).symm

theorem argumentAt_le (hi : i < s.length) : (s.argumentAt i).1 ≤ s.length := by
  rw [argumentAt_eq hi]
  exact Nat.sub_le _ _

/-- Where no blank is, an argument takes at least one byte. -/
theorem lt_argumentAt (hi : i < s.length) (hc : ∀ c ∈ s[i]?, isWhite c = false) :
    i < (s.argumentAt i).1 := by
  have hdrop := List.drop_eq_getElem_cons hi
  have hlt := length_takeArgument_lt (s.drop (i + 1)) (hc s[i] (by simp [hi]))
  rw [← hdrop, List.length_drop] at hlt
  rw [argumentAt_eq hi]
  dsimp only
  omega

/-- An argument that opens with no quote is the word that stands there. -/
theorem heads_argumentAt (hi : i < s.length) (hc : ∀ c ∈ s[i]?, isWhite c = false)
    (hquote : ∀ c ∈ s[i]?, c ≠ singleQuote ∧ c ≠ doubleQuote) :
    (s.argumentAt i).2 = ⟨Span.text ⟨i, (s.argumentAt i).1⟩ s, false⟩ ∧
      Heads (Span.text ⟨i, (s.argumentAt i).1⟩ s) (s.drop (s.argumentAt i).1) := by
  obtain ⟨w, rest, hdrop, h⟩ : ∃ w rest, s.drop i = w ++ rest ∧ Heads w rest := by
    rw [List.drop_eq_getElem_cons hi]
    exact ⟨_, _, List.takeWhile_append_dropWhile.symm, .of_head (hc s[i] (by simp [hi])) _⟩
  have hhead : w.head? = s[i]? := by
    obtain ⟨c, w, rfl⟩ := List.exists_cons_of_ne_nil h.ne_nil
    rw [← List.head?_drop, hdrop]
    rfl
  have hread := h.takeArgument_eq (by simpa [hhead, List.getElem?_eq_getElem hi] using hquote)
  have hstop : (s.argumentAt i).1 = i + w.length := by
    have hlength := congrArg List.length hdrop
    rw [List.length_drop, List.length_append] at hlength
    rw [argumentAt_eq hi, hdrop, hread]
    dsimp only
    omega
  have htext : Span.text ⟨i, (s.argumentAt i).1⟩ s = w := by
    rw [Span.text, hstop, Nat.add_sub_cancel_left, hdrop, List.take_left]
  rw [htext, drop_argumentAt hi, hdrop, hread, argumentAt_eq hi, hdrop, hread]
  exact ⟨rfl, h⟩

/-! ## The loop over the arguments -/

/-- A run of the loop over the arguments from an index on. At the end of the text it is over; before
that, the argument at the index is read and the blanks behind it are skipped. The run tells the
spans that it passes and the arguments that it keeps. -/
inductive Passes (s : Bytes) : Nat → List Span → List Bytes → Prop
  | stop {i : Nat} : s.length ≤ i → Passes s i [] []
  | next {i : Nat} {spans : List Span} {arguments : List Bytes} : i < s.length →
      Passes s (s.blanksEnd (s.argumentAt i).1) spans arguments →
      Passes s i (⟨i, (s.argumentAt i).1⟩ :: spans) ((s.argumentAt i).2.kept ++ arguments)

/-- The argument stands in the span. The span is not empty, and if it opens with no quote, the
argument is what it holds: a word, which a blank follows or the end of the text. -/
structure Gives (s : Bytes) (span : Span) (argument : Bytes) : Prop where
  lt : span.start < span.stop
  le : span.stop ≤ s.length
  bare : (∀ c ∈ s[span.start]?, c ≠ singleQuote ∧ c ≠ doubleQuote) →
    argument = span.text s ∧ (∀ c ∈ argument, isWhite c = false) ∧
      ∀ c ∈ s[span.stop]?, isWhite c = true

/-- From an index on, the spans stand one behind the other, each has one argument, and no byte
outside of them is anything but a blank. -/
structure CutFrom (s : Bytes) (i : Nat) (spans : List Span) (arguments : List Bytes) : Prop where
  gives : List.Forall₂ s.Gives spans arguments
  starts : ∀ span ∈ spans, i ≤ span.start
  ordered : spans.Pairwise fun a b => a.stop ≤ b.start
  blank : ∀ k ≥ i, (∀ span ∈ spans, ¬ (span.start ≤ k ∧ k < span.stop)) →
    ∀ c ∈ s[k]?, isWhite c = true

/-- Behind the blanks an argument is read, which is kept. -/
theorem gives_argumentAt (hi : i < s.length) (hc : ∀ c ∈ s[i]?, isWhite c = false) :
    s.Gives ⟨i, (s.argumentAt i).1⟩ (s.argumentAt i).2.value where
  lt := lt_argumentAt hi hc
  le := argumentAt_le hi
  bare hquote := by
    obtain ⟨hargument, h⟩ := heads_argumentAt hi hc hquote
    rw [hargument]
    refine ⟨rfl, h.bare, ?_⟩
    simpa using h.ends

theorem kept_takeArgument (hc : isWhite c = false) (t : Bytes) :
    (takeArgument (c :: t)).1.kept = [(takeArgument (c :: t)).1.value] := by
  by_cases hquote : c = singleQuote ∨ c = doubleQuote
  · simp [takeArgument_quoted hquote, Argument.kept]
  · simp [takeArgument, hquote, hc, Argument.kept]

theorem kept_argumentAt (hi : i < s.length) (hc : ∀ c ∈ s[i]?, isWhite c = false) :
    (s.argumentAt i).2.kept = [(s.argumentAt i).2.value] := by
  rw [argumentAt_eq hi, List.drop_eq_getElem_cons hi]
  exact kept_takeArgument (hc s[i] (by simp [hi])) _

namespace CutFrom

theorem nil (h : s.length ≤ s.blanksEnd i) : s.CutFrom i [] [] where
  gives := .nil
  starts := by simp
  ordered := .nil
  blank k hk _ c hc := by
    have hlt : k < s.length := (List.getElem?_eq_some_iff.mp hc).1
    exact isWhite_of_lt_blanksEnd hk (hlt.trans_le h) hc

/-- Blanks, a span, and what is cut behind it. -/
theorem cons {span : Span} {argument : Bytes} (hstart : span.start = s.blanksEnd i)
    (hgives : s.Gives span argument) (h : s.CutFrom span.stop spans arguments) :
    s.CutFrom i (span :: spans) (argument :: arguments) where
  gives := .cons hgives h.gives
  starts := by
    have hi := s.le_blanksEnd i
    rw [← hstart] at hi
    refine List.forall_mem_cons.mpr ⟨hi, fun other hother => ?_⟩
    exact hi.trans (hgives.lt.le.trans (h.starts other hother))
  ordered := List.pairwise_cons.mpr ⟨h.starts, h.ordered⟩
  blank k hk hout c hc := by
    obtain ⟨hspan, hspans⟩ := List.forall_mem_cons.mp hout
    by_cases hlt : k < span.start
    · exact isWhite_of_lt_blanksEnd hk (hstart ▸ hlt) hc
    · exact h.blank k (by omega) hspans c hc

end CutFrom

/-- The loop ends, whatever the text is. -/
theorem exists_passes (s : Bytes) (i : Nat) :
    ∃ spans arguments, s.Passes (s.blanksEnd i) spans arguments := by
  by_cases hi : s.blanksEnd i < s.length
  · have hlt := lt_argumentAt hi fun c hc => not_isWhite_blanksEnd hc
    have hle := s.le_blanksEnd i
    obtain ⟨spans, arguments, h⟩ := exists_passes s (s.argumentAt (s.blanksEnd i)).1
    exact ⟨_, _, .next hi h⟩
  · exact ⟨_, _, .stop (Nat.le_of_not_lt hi)⟩
termination_by s.length - i

namespace Passes

/-- The spans that the loop passes leave nothing but blanks out. -/
theorem cutFrom (h : s.Passes j spans arguments) (hj : j = s.blanksEnd i) :
    s.CutFrom i spans arguments := by
  induction h generalizing i with
  | stop hle => exact .nil (hj ▸ hle)
  | next hlt _ ih =>
    subst hj
    have hc : ∀ c ∈ s[s.blanksEnd i]?, isWhite c = false := fun c hc => not_isWhite_blanksEnd hc
    rw [kept_argumentAt hlt hc]
    exact .cons rfl (gives_argumentAt hlt hc) (ih rfl)

/-- The loop keeps the arguments of what follows the index. -/
theorem arguments_eq (h : s.Passes j spans arguments) (hj : j = s.blanksEnd i) :
    arguments = Bytes.arguments (s.drop i) := by
  induction h generalizing i with
  | stop hle =>
    have hblank : (s.drop i).all isWhite := by
      rw [List.all_eq_true, ← List.dropWhile_eq_nil_iff, ← drop_blanksEnd, ← hj]
      exact List.drop_eq_nil_of_le hle
    exact (arguments_of_blank hblank).symm
  | next hlt _ ih =>
    subst hj
    have hc : ∀ c ∈ s[s.blanksEnd i]?, isWhite c = false := fun c hc => not_isWhite_blanksEnd hc
    have hne : s.drop (s.blanksEnd i) ≠ [] := by simpa using hlt
    rw [kept_argumentAt hlt hc, ih rfl, arguments_of_skip (drop_blanksEnd i s).symm hne,
      drop_argumentAt hlt, argumentAt_eq hlt]
    rfl

end Passes

end Bytes

end RegexLab
