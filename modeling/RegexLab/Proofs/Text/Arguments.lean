import RegexLab.Proofs.Text.Words

/-!
# Writing arguments

Any bytes can be passed as an argument. In double quotes a backslash keeps a double quote, or
another backslash, from being read as what it is; single quotes keep everything but a single quote;
and a word that opens with no quote needs none. Reading takes the blanks before each argument away,
and the quotes, and the backslashes that were put in.

## Main definitions

* `Bytes.escaped` — the bytes that are written between double quotes.
* `Bytes.Encodes` — the ways to write an argument.
* `Bytes.Spells` — arguments written in a row, with blanks before each.
-/

namespace RegexLab

namespace Bytes

variable {quote c : UInt8} {done argument written w rest s t : Bytes} {arguments : List Bytes}

/-! ## Quoted arguments -/

/-- What stands for a text between double quotes: a backslash goes before every double quote and
before every backslash. -/
def escaped (s : Bytes) : Bytes :=
  s.flatMap fun c => if c = doubleQuote ∨ c = backslash then [backslash, c] else [c]

theorem takeQuoted_close (quote : UInt8) (done rest : Bytes) :
    takeQuoted quote done (quote :: rest) = (done.reverse, rest) := by
  rw [takeQuoted.eq_def]
  exact if_pos rfl

theorem takeQuoted_plain (hquote : c ≠ quote) (hescape : ¬ (quote = doubleQuote ∧ c = backslash))
    (done s : Bytes) : takeQuoted quote done (c :: s) = takeQuoted quote (c :: done) s := by
  rw [takeQuoted.eq_def]
  exact (if_neg hquote).trans (if_neg hescape)

theorem takeQuoted_escape (hc : c = doubleQuote ∨ c = backslash) (done s : Bytes) :
    takeQuoted doubleQuote done (backslash :: c :: s) = takeQuoted doubleQuote (c :: done) s := by
  have hquote : backslash ≠ doubleQuote := by decide
  rw [takeQuoted.eq_def]
  exact (if_neg hquote).trans ((if_pos ⟨rfl, rfl⟩).trans (if_pos hc))

/-- Single quotes keep what stands between them. -/
theorem takeQuoted_single (h : singleQuote ∉ s) (done rest : Bytes) :
    takeQuoted singleQuote done (s ++ singleQuote :: rest) = (done.reverse ++ s, rest) := by
  induction s generalizing done with
  | nil => simpa using takeQuoted_close singleQuote done rest
  | cons c s ih =>
    have ⟨hc, hs⟩ : singleQuote ≠ c ∧ singleQuote ∉ s := by simpa using h
    have hplain : ¬ (singleQuote = doubleQuote ∧ c = backslash) :=
      fun h => absurd h.1 (by decide)
    simp [takeQuoted_plain (Ne.symm hc) hplain, ih hs]

/-- Between double quotes, what stands for a text is read as that text. -/
theorem takeQuoted_escaped (s done rest : Bytes) :
    takeQuoted doubleQuote done (escaped s ++ doubleQuote :: rest) = (done.reverse ++ s, rest) := by
  induction s generalizing done with
  | nil => simpa [escaped] using takeQuoted_close doubleQuote done rest
  | cons c s ih =>
    rw [escaped] at ih
    by_cases hc : c = doubleQuote ∨ c = backslash
    · simp [escaped, hc, takeQuoted_escape hc, ih]
    · have hplain := takeQuoted_plain (not_or.mp hc).1 (fun h => hc (.inr h.2)) done
      simp [escaped, hc, hplain, ih]

/-! ## One argument -/

/-- An argument that opens with a quote runs to the quote that closes it. -/
theorem takeArgument_quoted (hquote : c = singleQuote ∨ c = doubleQuote) (s : Bytes) :
    takeArgument (c :: s) = (⟨(takeQuoted c [] s).1, true⟩, (takeQuoted c [] s).2) := by
  rw [takeArgument, if_pos hquote]

/-- A word that opens with no quote is an argument as it stands. -/
theorem Heads.takeArgument_eq (h : Heads w rest)
    (hquote : w.head? ∉ [some singleQuote, some doubleQuote]) :
    takeArgument (w ++ rest) = (⟨w, false⟩, rest) := by
  have htake := h.takeWhile_eq
  have hdrop := h.dropWhile_eq
  obtain ⟨c, w, rfl⟩ := List.exists_cons_of_ne_nil h.ne_nil
  have hbare : ¬ (c = singleQuote ∨ c = doubleQuote) := by simpa using hquote
  rw [List.cons_append] at htake hdrop ⊢
  rw [takeArgument, if_neg hbare, htake, hdrop]

/-- The ways to write an argument. -/
inductive Encodes (argument : Bytes) : Bytes → Prop
  | double : Encodes argument (doubleQuote :: (escaped argument ++ [doubleQuote]))
  | single : singleQuote ∉ argument → Encodes argument (singleQuote :: (argument ++ [singleQuote]))
  | bare : argument ≠ [] → (∀ c ∈ argument, isWhite c = false) →
      argument.head? ∉ [some singleQuote, some doubleQuote] → Encodes argument argument

namespace Encodes

/-- No way to write an argument starts with a blank. -/
theorem exists_cons (h : Encodes argument written) :
    ∃ c t, written = c :: t ∧ isWhite c = false := by
  cases h with
  | double | single => exact ⟨_, _, rfl, by decide⟩
  | bare hne hbare =>
    obtain ⟨c, t, rfl⟩ := List.exists_cons_of_ne_nil hne
    exact ⟨c, t, rfl, hbare c List.mem_cons_self⟩

/-- What was written is read as the argument that it stands for. -/
theorem takeArgument_eq (h : Encodes argument written)
    (hrest : ∀ c ∈ rest.head?, isWhite c = true) :
    ∃ quoted, takeArgument (written ++ rest) = (⟨argument, quoted⟩, rest) := by
  cases h with
  | double =>
    have hread := takeQuoted_escaped argument [] rest
    exact ⟨true, by simp [takeArgument_quoted, hread]⟩
  | single hsingle =>
    have hread := takeQuoted_single hsingle [] rest
    exact ⟨true, by simp [takeArgument_quoted, hread]⟩
  | bare hne hbare hquote => exact ⟨false, Heads.takeArgument_eq ⟨hne, hbare, hrest⟩ hquote⟩

end Encodes

/-! ## Arguments in a row -/

/-- Behind the blanks of a text its first argument is taken, and then the others. -/
theorem arguments_of_skip (hskip : s.dropWhile isWhite = t) (hne : t ≠ []) :
    s.arguments = (takeArgument t).1.value :: Bytes.arguments (takeArgument t).2 := by
  rw [Bytes.arguments]
  split
  next h => exact absurd (hskip.symm.trans h) hne
  next c u h => rw [← h, hskip]

/-- The arguments are written one after the other, each behind one blank or more. -/
inductive Spells : List Bytes → Bytes → Prop
  | nil : Spells [] []
  | cons {blanks argument written : Bytes} {arguments : List Bytes} {rest : Bytes} :
      blanks ≠ [] → (∀ c ∈ blanks, isWhite c = true) → Encodes argument written →
      Spells arguments rest → Spells (argument :: arguments) (blanks ++ (written ++ rest))

namespace Spells

theorem head_isWhite (h : Spells arguments s) : ∀ c ∈ s.head?, isWhite c = true := by
  cases h with
  | nil => simp
  | @cons blanks _ _ _ _ hne hblanks =>
    obtain ⟨d, blanks, rfl⟩ := List.exists_cons_of_ne_nil hne
    simpa using hblanks d List.mem_cons_self

/-- Arguments in a row are read one by one. -/
theorem arguments_eq (h : Spells arguments s) : s.arguments = arguments := by
  induction h with
  | nil => exact arguments_of_blank rfl
  | @cons blanks argument written arguments rest _ hblanks hwritten hrest ih =>
    obtain ⟨quoted, hread⟩ := hwritten.takeArgument_eq hrest.head_isWhite
    obtain ⟨c, t, rfl, hc⟩ := hwritten.exists_cons
    have hskip := dropWhile_blanks_append hblanks (s := c :: t ++ rest) (by simpa using hc)
    rw [arguments_of_skip hskip (by simp), hread, ih]

/-- Every list of arguments can be written. -/
theorem exists_of_arguments (arguments : List Bytes) : ∃ s, Spells arguments s := by
  induction arguments with
  | nil => exact ⟨_, .nil⟩
  | cons argument arguments ih =>
    obtain ⟨s, hs⟩ := ih
    have hblank : ∀ c ∈ [0x20], isWhite c = true := by decide +kernel
    exact ⟨_, .cons (by simp) hblank .double hs⟩

end Spells

/-- A text in which no word opens with a quote has its words as arguments. -/
theorem arguments_eq_words (s : Bytes)
    (h : ∀ w ∈ s.words, w.head? ∉ [some singleQuote, some doubleQuote]) :
    s.arguments = s.words := by
  by_cases hblank : s.all isWhite
  · rw [arguments_of_blank hblank, words_of_blank hblank]
  · obtain ⟨w, rest, hfirst⟩ := exists_firstWord hblank
    have hshorter := hfirst.length_lt
    rw [hfirst.words_eq] at h ⊢
    obtain ⟨hw, hrest⟩ := List.forall_mem_cons.mp h
    rw [arguments_of_skip hfirst.skip_eq (by simp [hfirst.heads.ne_nil]),
      hfirst.heads.takeArgument_eq hw, arguments_eq_words rest hrest]
termination_by s.length

end Bytes

end RegexLab
