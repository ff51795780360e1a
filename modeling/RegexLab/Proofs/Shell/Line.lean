import RegexLab.Proofs.Text.Spans
import RegexLab.Shell.Session

/-!
# Cutting a line

The first word of a line names a command, and what follows are its arguments. Any arguments can be
written on a line so that they are read back, and whatever a line is, nothing but blanks is left out
when it is cut.

## Main definitions

* `commandSpan` — where the command word of a line stands.
-/

namespace RegexLab

variable {line w rest name s : Bytes} {arguments : List Bytes} {registry : Registry}
  {command : Command}

/-! ## The command word -/

/-- The first word of a line is its command word, and the arguments follow. -/
theorem splitLine_of_firstWord (h : Bytes.FirstWord line w rest) :
    splitLine line = (w, rest.arguments) := by
  simp only [splitLine, h.skip_eq, h.heads.takeWhile_eq, h.heads.dropWhile_eq]

/-- A blank line names no command. -/
theorem splitLine_of_blank (h : line.all isWhite) : splitLine line = ([], []) := by
  have hskip : line.dropWhile isWhite = [] :=
    List.dropWhile_eq_nil_iff.mpr (List.all_eq_true.mp h)
  have hnone : Bytes.arguments [] = [] := Bytes.arguments_of_blank rfl
  simp [splitLine, hskip, hnone]

/-- Arguments written behind a command word are read back. -/
theorem splitLine_of_spells (hname : name ≠ []) (hbare : ∀ c ∈ name, isWhite c = false)
    (h : Bytes.Spells arguments s) : splitLine (name ++ s) = (name, arguments) := by
  have hfirst : Bytes.FirstWord (name ++ s) name s :=
    ⟨[], by simp, rfl, hname, hbare, h.head_isWhite⟩
  rw [splitLine_of_firstWord hfirst, h.arguments_eq]

/-- A line of two words is cut at the blank between them. -/
theorem splitLine_words (hname : name ≠ []) (hbare : ∀ c ∈ name, isWhite c = false)
    (hne : w ≠ []) (hw : ∀ c ∈ w, isWhite c = false)
    (hquote : w.head? ∉ [some singleQuote, some doubleQuote]) :
    splitLine (name ++ 0x20 :: w) = (name, [w]) := by
  have hblank : ∀ c ∈ [0x20], isWhite c = true := by decide +kernel
  have hspells := Bytes.Spells.cons (by simp) hblank (.bare hne hw hquote) .nil
  rw [List.append_nil] at hspells
  exact splitLine_of_spells hname hbare hspells

def commandSpan (line : Bytes) : Span :=
  ⟨line.blanksEnd 0, line.wordEnd (line.blanksEnd 0)⟩

/-- The command word of a line stands in its span, and the arguments behind it. -/
theorem splitLine_eq (line : Bytes) : splitLine line =
    ((commandSpan line).text line, Bytes.arguments (line.drop (commandSpan line).stop)) := by
  simp only [splitLine, commandSpan, Span.text, Bytes.wordEnd, Nat.add_sub_cancel_left,
    Bytes.take_length_takeWhile, ← List.drop_drop, Bytes.drop_length_takeWhile,
    Bytes.drop_blanksEnd, List.drop_zero]

/-- There are no blanks in the command word, and it runs to a blank or to the end of the line. -/
theorem isWhite_commandSpan (s : Bytes) :
    (∀ c ∈ (commandSpan s).text s, isWhite c = false) ∧
      ∀ c ∈ s[(commandSpan s).stop]?, isWhite c = true := by
  have htext : (commandSpan s).text s =
      (s.dropWhile isWhite).takeWhile (!isWhite ·) := congrArg Prod.fst (splitLine_eq s).symm
  refine ⟨fun c hc => ?_, fun c hc => Bytes.isWhite_wordEnd hc⟩
  rw [htext] at hc
  simpa using List.mem_takeWhile_imp hc

/-- If no word behind the first opens with a quote, these words are the arguments. -/
theorem splitLine_words_tail
    (h : ∀ w ∈ line.words.tail, w.head? ∉ [some singleQuote, some doubleQuote]) :
    (splitLine line).2 = line.words.tail := by
  by_cases hblank : line.all isWhite
  · rw [splitLine_of_blank hblank, Bytes.words_of_blank hblank]
    rfl
  · obtain ⟨w, rest, hfirst⟩ := Bytes.exists_firstWord hblank
    rw [hfirst.words_eq, List.tail_cons] at h ⊢
    rw [splitLine_of_firstWord hfirst, Bytes.arguments_eq_words rest h]

namespace Registry

/-- The command of a line, with the arguments behind the command word. -/
theorem commandOf_of_splitLine (hline : splitLine line = (name, arguments))
    (hfind : registry.find name = .ok command) :
    registry.commandOf line = .ok (command, arguments) := by
  simp only [commandOf, hline, hfind]
  rfl

/-! ## Arguments that are read back -/

/-- All arguments can be passed to a command: there is a way to write them behind its name, and in
whatever ways and with whatever blanks each of them is written, they are read back as they are. -/
theorem commandOf_reads_back (hname : name ≠ []) (hbare : ∀ c ∈ name, isWhite c = false)
    (hfind : registry.find name = .ok command) (arguments : List Bytes) :
    (∃ s, Bytes.Spells arguments s) ∧
    ∀ s, Bytes.Spells arguments s → registry.commandOf (name ++ s) = .ok (command, arguments) :=
  ⟨Bytes.Spells.exists_of_arguments arguments,
    fun _ h => commandOf_of_splitLine (splitLine_of_spells hname hbare h) hfind⟩

/-- An empty argument, one with a blank, a quote and a backslash, and one with a zero byte. -/
theorem commandOf_reads_back_eachWay :
    standard.commandOf (ascii "test" ++ (ascii "  " ++ (ascii "''" ++ (ascii "\t" ++
      (ascii "\"a \\\"\\\\\"" ++ (ascii " " ++ ([0x78, 0x00, 0xff] ++ []))))))) =
        .ok (.test, [[], ascii "a \"\\", [0x78, 0x00, 0xff]]) := by
  have hempty : Bytes.Encodes [] (ascii "''") := .single (by simp)
  have hdouble : Bytes.Encodes (ascii "a \"\\") (ascii "\"a \\\"\\\\\"") := .double
  have hbare : Bytes.Encodes [0x78, 0x00, 0xff] [0x78, 0x00, 0xff] :=
    .bare (by decide) (by decide +kernel) (by decide)
  exact (commandOf_reads_back (by decide) (by decide +kernel) rfl _).2 _
    (.cons (by decide) (by decide +kernel) hempty (.cons (by decide) (by decide +kernel) hdouble
      (.cons (by decide) (by decide +kernel) hbare .nil)))

/-! ## Lines of any kind -/

/-- Whatever a line is, the loop over its arguments ends, and cuts the line without leaving anything
but blanks out: the command word stands behind some blanks, and each argument in a span of its own,
one behind the other. An argument that opens with no quote is the word in its span. So if no word
behind the first opens with a quote, these words are the arguments. -/
theorem commandOf_cuts_line
    (h : registry.find ((commandSpan s).text s) = .ok command) :
    ∃ spans arguments, registry.commandOf s = .ok (command, arguments) ∧
      s.Passes (s.blanksEnd (commandSpan s).stop) spans arguments ∧
      (∀ i < (commandSpan s).start, ∀ c ∈ s[i]?, isWhite c = true) ∧
      (∀ c ∈ (commandSpan s).text s, isWhite c = false) ∧
      (∀ c ∈ s[(commandSpan s).stop]?, isWhite c = true) ∧
      s.CutFrom (commandSpan s).stop spans arguments ∧
      ((∀ w ∈ s.words.tail, w.head? ∉ [some singleQuote, some doubleQuote]) →
        arguments = s.words.tail) := by
  obtain ⟨spans, arguments, hpasses⟩ := s.exists_passes (commandSpan s).stop
  obtain ⟨hword, hend⟩ := isWhite_commandSpan s
  have hline := splitLine_eq s
  rw [← hpasses.arguments_eq rfl] at hline
  refine ⟨spans, arguments, commandOf_of_splitLine hline h, hpasses, ?_, hword, hend,
    hpasses.cutFrom rfl, fun hquote => ?_⟩
  · exact fun i hi c hc => Bytes.isWhite_of_lt_blanksEnd (Nat.zero_le i) hi hc
  · rw [← splitLine_words_tail hquote, hline]

/-- Two quoted arguments with nothing between them, of which the second is not closed and ends with
a backslash. -/
def unclosedLine : Bytes :=
  ascii "test 'a'\"b\\\" c\\"

def spacedLine : Bytes :=
  ascii " test a'b  c\""

theorem commandOf_cuts_line_unclosedAndSpaced :
    (∃ spans, standard.commandOf unclosedLine = .ok (.test, [ascii "a", ascii "b\" c\\"]) ∧
      unclosedLine.CutFrom 4 spans [ascii "a", ascii "b\" c\\"]) ∧
    standard.commandOf spacedLine = .ok (.test, [ascii "a'b", ascii "c\""]) := by
  constructor
  · have hline : splitLine unclosedLine = (ascii "test", [ascii "a", ascii "b\" c\\"]) := by
      decide +kernel
    have hname : (commandSpan unclosedLine).text unclosedLine = ascii "test" :=
      congrArg Prod.fst ((splitLine_eq _).symm.trans hline)
    obtain ⟨spans, arguments, hcommand, -, -, -, -, hcut, -⟩ :=
      commandOf_cuts_line (show standard.find _ = .ok .test by rw [hname]; rfl)
    have hsame := hcommand.symm.trans (commandOf_of_splitLine hline rfl)
    obtain rfl := (Prod.mk.inj (Except.ok.inj hsame)).2
    exact ⟨spans, hcommand, hcut⟩
  · have hname : (commandSpan spacedLine).text spacedLine = ascii "test" := by decide +kernel
    have htail : spacedLine.words.tail = [ascii "a'b", ascii "c\""] := by decide +kernel
    obtain ⟨spans, arguments, hcommand, -, -, -, -, -, hwords⟩ :=
      commandOf_cuts_line (show standard.find _ = .ok .test by rw [hname]; rfl)
    rw [hcommand, hwords (by rw [htail]; decide +kernel), htail]

end Registry

end RegexLab
