import Mathlib.Data.List.TakeWhile
import RegexLab.Text.Words

/-!
# Words

A word is a longest run of bytes without blanks. Skipping blanks and taking bytes up to the next
blank cuts a text into its words.

## Main definitions

* `Bytes.Heads` — a word stands at the head of a text, and the rest of the text follows it.
* `Bytes.FirstWord` — the first word of a text, and the rest of the text.
* `Bytes.words` — the words of a text.
* `Bytes.Trims` — a text without the blanks around it.
-/

namespace RegexLab

namespace Bytes

variable {w rest s inner blanks : Bytes} {c : UInt8}

/-- Dropping ends before a byte that is not to be dropped. -/
theorem eq_false_of_head?_dropWhile {p : UInt8 → Bool} (h : (s.dropWhile p).head? = some c) :
    p c = false := by
  have hnot := List.head?_dropWhile_not p s
  rwa [h] at hnot

/-- Blanks are skipped up to a byte that is none. -/
theorem dropWhile_blanks_append (hblanks : ∀ c ∈ blanks, isWhite c = true)
    (hs : ∀ c ∈ s.head?, isWhite c = false) : (blanks ++ s).dropWhile isWhite = s := by
  rw [List.dropWhile_append_of_pos hblanks]
  cases s with
  | nil => rfl
  | cons c s => exact List.dropWhile_cons_of_neg (by simp [hs c rfl])

/-! ## A word at the head of a text -/

/-- The word `w` stands at the head of the text `w ++ rest`: a blank follows it, or nothing. -/
structure Heads (w rest : Bytes) : Prop where
  ne_nil : w ≠ []
  bare : ∀ c ∈ w, isWhite c = false
  ends : ∀ c ∈ rest.head?, isWhite c = true

namespace Heads

theorem takeWhile_eq (h : Heads w rest) : (w ++ rest).takeWhile (!isWhite ·) = w := by
  have hbare : ∀ c ∈ w, (!isWhite c) = true := by simpa using h.bare
  rw [List.takeWhile_append_of_pos hbare]
  cases rest with
  | nil => simp
  | cons c rest => simp [h.ends c rfl]

theorem dropWhile_eq (h : Heads w rest) : (w ++ rest).dropWhile (!isWhite ·) = rest := by
  have hbare : ∀ c ∈ w, (!isWhite c) = true := by simpa using h.bare
  rw [List.dropWhile_append_of_pos hbare]
  cases rest with
  | nil => rfl
  | cons c rest => simp [h.ends c rfl]

/-- No blanks are skipped before a word, and all blanks that stand there are. -/
theorem skip_eq (h : Heads w rest) (hblanks : ∀ c ∈ blanks, isWhite c = true) :
    (blanks ++ (w ++ rest)).dropWhile isWhite = w ++ rest := by
  obtain ⟨c, w, rfl⟩ := List.exists_cons_of_ne_nil h.ne_nil
  exact dropWhile_blanks_append hblanks (by simpa using h.bare c List.mem_cons_self)

/-- The bytes up to the next blank are a word, unless the text starts with a blank. -/
theorem of_head (hc : isWhite c = false) (s : Bytes) :
    Heads ((c :: s).takeWhile (!isWhite ·)) ((c :: s).dropWhile (!isWhite ·)) where
  ne_nil := by simp [hc]
  bare d hd := by simpa using List.mem_takeWhile_imp hd
  ends d hd := by simpa using eq_false_of_head?_dropWhile hd

end Heads

/-! ## The first word -/

/-- Behind some blanks, `w` is the first word of the text, and `rest` follows it. -/
def FirstWord (s w rest : Bytes) : Prop :=
  ∃ blanks, (∀ c ∈ blanks, isWhite c = true) ∧ s = blanks ++ (w ++ rest) ∧ Heads w rest

namespace FirstWord

theorem skip_eq (h : FirstWord s w rest) : s.dropWhile isWhite = w ++ rest := by
  obtain ⟨blanks, hblanks, rfl, hheads⟩ := h
  exact hheads.skip_eq hblanks

theorem heads (h : FirstWord s w rest) : Heads w rest := by
  obtain ⟨-, -, -, hheads⟩ := h
  exact hheads

/-- The rest is shorter than the text. -/
theorem length_lt (h : FirstWord s w rest) : rest.length < s.length := by
  obtain ⟨blanks, -, rfl, hheads⟩ := h
  have hpos := List.length_pos_iff.mpr hheads.ne_nil
  simp only [List.length_append]
  omega

end FirstWord

/-- A text that is not blank has a first word. -/
theorem exists_firstWord (h : ¬ s.all isWhite) : ∃ w rest, FirstWord s w rest := by
  cases hs : s.dropWhile isWhite with
  | nil => exact absurd (List.all_eq_true.mpr (List.dropWhile_eq_nil_iff.mp hs)) h
  | cons c t =>
    have hc : isWhite c = false := eq_false_of_head?_dropWhile (congrArg List.head? hs)
    refine ⟨_, _, s.takeWhile isWhite, fun d hd => List.mem_takeWhile_imp hd, ?_, .of_head hc t⟩
    rw [List.takeWhile_append_dropWhile, ← hs, List.takeWhile_append_dropWhile]

/-! ## All words -/

def words (s : Bytes) : List Bytes :=
  (s.splitOnP isWhite).filter (· ≠ [])

@[simp] theorem words_nil : words [] = [] := rfl

theorem words_cons_of_white (hc : isWhite c = true) (s : Bytes) : words (c :: s) = words s := by
  simp [words, List.splitOnP_cons_eq_if_modifyHead, hc]

/-- The words behind a word are those of the rest. -/
theorem Heads.words_eq (h : Heads w rest) : words (w ++ rest) = w :: words rest := by
  cases rest with
  | nil => simp [words, List.splitOnP_eq_singleton h.bare, h.ne_nil]
  | cons c rest =>
    have hc := h.ends c rfl
    rw [words_cons_of_white hc, words, List.splitOnP_append_cons w rest hc,
      List.splitOnP_eq_singleton h.bare]
    simp [words, h.ne_nil]

/-- Blanks before the first word do not count. -/
theorem words_dropWhile (s : Bytes) : words (s.dropWhile isWhite) = words s := by
  induction s with
  | nil => rfl
  | cons c s ih =>
    cases hc : isWhite c with
    | true => rw [List.dropWhile_cons_of_pos hc, ih, words_cons_of_white hc]
    | false => rw [List.dropWhile_cons_of_neg (by simp [hc])]

theorem FirstWord.words_eq (h : FirstWord s w rest) : words s = w :: words rest := by
  rw [← words_dropWhile, h.skip_eq, h.heads.words_eq]

theorem words_of_blank (h : s.all isWhite) : words s = [] := by
  rw [← words_dropWhile, List.dropWhile_eq_nil_iff.mpr (List.all_eq_true.mp h), words_nil]

/-! ## The blanks around a text -/

/-- Blanks stand before and behind `inner`, which neither starts nor ends with one. -/
def Trims (s inner : Bytes) : Prop :=
  ∃ before after, (∀ c ∈ before, isWhite c = true) ∧ (∀ c ∈ after, isWhite c = true) ∧
    s = before ++ (inner ++ after) ∧
    (∀ c ∈ inner.head?, isWhite c = false) ∧ ∀ c ∈ inner.getLast?, isWhite c = false

theorem Trims.trim_eq (h : Trims s inner) : trim s = inner := by
  obtain ⟨before, after, hbefore, hafter, rfl, hhead, hlast⟩ := h
  cases inner with
  | nil =>
    have hskip : (before ++ ([] ++ after)).dropWhile isWhite = [] := by
      rw [List.dropWhile_append_of_pos hbefore]
      exact List.dropWhile_eq_nil_iff.mpr hafter
    rw [trim, hskip]
    rfl
  | cons c inner =>
    have hskip : (before ++ (c :: inner ++ after)).dropWhile isWhite = c :: inner ++ after :=
      dropWhile_blanks_append hbefore (by simpa using hhead)
    have hskip' : (after.reverse ++ (c :: inner).reverse).dropWhile isWhite =
        (c :: inner).reverse :=
      dropWhile_blanks_append (by simpa using hafter) (by rwa [List.head?_reverse])
    rw [trim, hskip, List.reverse_append, hskip', List.reverse_reverse]

theorem trims_trim (s : Bytes) : Trims s (trim s) := by
  -- The text from its first byte that is no blank, and the same from behind.
  let front := s.dropWhile isWhite
  let back := front.reverse.dropWhile isWhite
  have hback : front = back.reverse ++ (front.reverse.takeWhile isWhite).reverse := by
    rw [← List.reverse_append, List.takeWhile_append_dropWhile, List.reverse_reverse]
  refine ⟨s.takeWhile isWhite, (front.reverse.takeWhile isWhite).reverse,
    fun c hc => List.mem_takeWhile_imp hc, fun c hc => ?_, ?_, fun c hc => ?_, fun c hc => ?_⟩
  · exact List.mem_takeWhile_imp (List.mem_reverse.mp hc)
  · exact (List.takeWhile_append_dropWhile (p := isWhite)).symm.trans
      (congrArg (s.takeWhile isWhite ++ ·) hback)
  · refine eq_false_of_head?_dropWhile (s := s) ?_
    show front.head? = some c
    rw [hback, List.head?_append, show back.reverse.head? = some c from hc, Option.some_or]
  · rw [trim, List.getLast?_reverse] at hc
    exact eq_false_of_head?_dropWhile hc

end Bytes

end RegexLab
