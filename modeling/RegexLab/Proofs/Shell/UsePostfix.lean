import RegexLab.Proofs.Grammar.Completeness
import RegexLab.Proofs.Postfix.Compile
import RegexLab.Proofs.Shell.Line

/-!
# The command for postfix texts

The command keeps the pattern that a postfix text spells, and compiles that. The pattern reads back
as the tree that its text was taken from, so compiling it is compiling the postfix text. On a line
the command stands before the text, with a blank between them.
-/

namespace RegexLab

variable {ts : Bytes} {t : Tree}

/-- The tree of a postfix text is the tree of the pattern that it spells. -/
theorem parse_text_of_ofPostfix (h : Tree.ofPostfix ts = .ok t) : parse t.text = .ok t := by
  obtain ⟨r, -, hr⟩ := bind_eq_ok_iff.mp h
  obtain rfl := Except.ok.inj hr
  exact r.derives_toTree.parse_text

namespace Command

theorem infixOf_of_tree (h : Tree.ofPostfix ts = .ok t) : infixOf ts = .ok t.text := by
  have hts : ts ≠ [] := by
    rintro rfl
    cases h
  simp [infixOf, hts, h]

/-- The pattern of a postfix text compiles as the postfix text does. -/
theorem buildInfix_infixOf {source : Bytes} (h : infixOf ts = .ok source) :
    buildInfix source = buildPostfix ts := by
  by_cases hts : ts = []
  · subst hts
    obtain rfl := Except.ok.inj h
    rfl
  · cases htree : Tree.ofPostfix ts with
    | error e => simp [infixOf, hts, htree] at h
    | ok t =>
      obtain rfl := Except.ok.inj ((infixOf_of_tree htree).symm.trans h)
      -- The pattern is parsed to the tree that it was taken from, so one tree is compiled twice.
      rw [buildInfix_of_parse (parse_text_of_ofPostfix htree), buildPostfix_of_tree htree]

/-- A text that compiles has a pattern. -/
theorem exists_infixOf {b : Build} (h : buildPostfix ts = .ok b) : ∃ p, infixOf ts = .ok p := by
  cases ts with
  | nil => exact ⟨[], rfl⟩
  | cons c ts =>
    obtain ⟨t, ht, -⟩ := bind_eq_ok_iff.mp h
    exact ⟨t.text, infixOf_of_tree ht⟩

/-- The pattern that is used has the automaton that was built for it. -/
theorem compiled_of_buildInfix {source : Bytes} {b : Build} (h : buildInfix source = .ok b) :
    compiled source = .ok ({ source, automaton := b.automaton }, b.notes.map .log) := by
  simp [compiled, Pattern.compile, h, bind, Except.bind, pure, Except.pure]

theorem compiled_of_error {source : Bytes} {e : RegexError} (h : buildInfix source = .error e) :
    compiled source = .error (.regex e) := by
  simp [compiled, Pattern.compile, h, bind, Except.bind]

/-- The command uses the pattern that the postfix text spells from now on. -/
theorem usePostfix_run_of_infixOf {source : Bytes} {b : Build} (hsource : infixOf ts = .ok source)
    (hb : buildInfix source = .ok b) (around : Surroundings) (s : Session) :
    ∃ transcript, usePostfix.run around s [ts] =
      .ok (transcript, { s with current := some { source, automaton := b.automaton } }) := by
  simp [usePostfix, unary, hsource, compiled_of_buildInfix hb, bind, Except.bind, pure, Except.pure]

/-- The command fails with the error of the postfix text, or because there is no room for the
states, or it uses the pattern that the text spells from now on, with the automaton of the text. -/
theorem usePostfix_run (around : Surroundings) (s : Session) (ts : Bytes) :
    (∃ e, ts ≠ [] ∧ Tree.ofPostfix ts = .error e ∧
      usePostfix.run around s [ts] = .error (.regex e)) ∨
    (Arena.limit < Postfix.stateCount ts ∧ (∃ t, Tree.ofPostfix ts = .ok t) ∧
      usePostfix.run around s [ts] = .error (.regex .tooManyStates)) ∨
    Postfix.stateCount ts ≤ Arena.limit ∧ ∃ source b transcript, infixOf ts = .ok source ∧
      buildPostfix ts = .ok b ∧ usePostfix.run around s [ts] =
        .ok (transcript, { s with current := some { source, automaton := b.automaton } }) := by
  obtain ⟨e, hts, he, -⟩ | ⟨hmany, ⟨t, ht⟩, hbuild⟩ | ⟨hroom, b, hb⟩ := buildPostfix_cases ts
  · refine .inl ⟨e, hts, he, ?_⟩
    simp [usePostfix, unary, infixOf, hts, he, bind, Except.bind]
  · refine .inr (.inl ⟨hmany, ⟨t, ht⟩, ?_⟩)
    have hsource := infixOf_of_tree ht
    have hfails := compiled_of_error ((buildInfix_infixOf hsource).trans hbuild)
    simp [usePostfix, unary, hsource, hfails, bind, Except.bind]
  · obtain ⟨source, hsource⟩ := exists_infixOf hb
    obtain ⟨transcript, hrun⟩ :=
      usePostfix_run_of_infixOf hsource ((buildInfix_infixOf hsource).trans hb) around s
    exact .inr (.inr ⟨hroom, source, b, transcript, hsource, hb, hrun⟩)

end Command

/-! ## Lines -/

namespace Registry

variable {registry : Registry} {command : Command} {name line : Bytes} {arguments : List Bytes}

/-- A line runs the command that it names, with the arguments that it has. -/
theorem perform_of_splitLine (hline : splitLine line = (name, arguments))
    (hfind : registry.find name = .ok command) (files : Files) (s : Session) :
    registry.perform files s line =
      ((checkArguments command.kinds arguments).mapError .command).bind
        (command.run { files, descriptions := registry.descriptions } s) := by
  simp only [perform, commandOf, hline, hfind]
  rfl

theorem find_standard_usePostfix : standard.find (ascii "postfix") = .ok .usePostfix :=
  rfl

/-- Every tree that is made from a postfix text is the tree of the pattern that it spells. So the
command for postfix texts, which compiles that pattern again, fails only where there is no tree or
no room for its states, and otherwise the pattern in use has the very automaton of the postfix text.
The command is what a line with its name and one argument runs. -/
theorem usePostfix_keeps_automaton :
    (∀ ts t, Tree.ofPostfix ts = .ok t → parse t.text = .ok t) ∧
    (∀ around s ts,
      (∃ e, ts ≠ [] ∧ Tree.ofPostfix ts = .error e ∧
        Command.usePostfix.run around s [ts] = .error (.regex e)) ∨
      (Arena.limit < Postfix.stateCount ts ∧ (∃ t, Tree.ofPostfix ts = .ok t) ∧
        Command.usePostfix.run around s [ts] = .error (.regex .tooManyStates)) ∨
      Postfix.stateCount ts ≤ Arena.limit ∧ ∃ p b transcript, buildPostfix ts = .ok b ∧
        p.automaton = b.automaton ∧ Command.infixOf ts = .ok p.source ∧
        Command.usePostfix.run around s [ts] = .ok (transcript, { s with current := some p })) ∧
    ∀ files s line ts, splitLine line = (ascii "postfix", [ts]) →
      standard.perform files s line =
        Command.usePostfix.run { files, descriptions := standard.descriptions } s [ts] := by
  refine ⟨fun ts t h => parse_text_of_ofPostfix h, fun around s ts => ?_,
    fun files s line ts hline => perform_of_splitLine hline find_standard_usePostfix files s⟩
  obtain h | h | ⟨hroom, source, b, transcript, hinfix, hb, hrun⟩ :=
    Command.usePostfix_run around s ts
  · exact .inl h
  · exact .inr (.inl h)
  · exact .inr (.inr ⟨hroom, _, b, transcript, hb, rfl, hinfix, hrun⟩)

/-- A loop over a group of alternatives before a symbol that needs a backslash in the pattern. -/
theorem usePostfix_keeps_automaton_escaped :
    ∃ t p b transcript, Tree.ofPostfix (ascii "ab|*(.") = .ok t ∧ parse t.text = .ok t ∧
      splitLine (ascii "postfix ab|*(.") = (ascii "postfix", [ascii "ab|*(."]) ∧
      Postfix.stateCount (ascii "ab|*(.") ≤ Arena.limit ∧
      buildPostfix (ascii "ab|*(.") = .ok b ∧ p.automaton = b.automaton ∧
      standard.perform {} {} (ascii "postfix ab|*(.") =
        .ok (transcript, { current := some p }) := by
  obtain ⟨hparse, hrun, hperform⟩ := usePostfix_keeps_automaton
  obtain ⟨t, ht⟩ : ∃ t, Tree.ofPostfix (ascii "ab|*(.") = .ok t := ⟨_, rfl⟩
  have hline : splitLine (ascii "postfix" ++ 0x20 :: ascii "ab|*(.") =
      (ascii "postfix", [ascii "ab|*(."]) := by
    apply splitLine_words <;> decide +kernel
  obtain ⟨e, -, he, -⟩ | ⟨hmany, -⟩ | ⟨hroom, p, b, transcript, hb, hp, -, hok⟩ :=
    hrun { descriptions := standard.descriptions } {} (ascii "ab|*(.")
  · cases ht.symm.trans he
  · exact absurd hmany (by decide +kernel)
  · exact ⟨t, p, b, transcript, ht, hparse _ t ht, hline, hroom, hb, hp,
      (hperform {} {} _ _ hline).trans hok⟩

/-- A symbol in so many loops that there is no room for all the states: the text has a tree, and the
command fails all the same. -/
theorem usePostfix_keeps_automaton_tooManyLoops :
    (∃ t, Tree.ofPostfix (0x61 :: List.replicate (2 ^ 31 - 1) Quantifier.star.byte) = .ok t) ∧
      Command.usePostfix.run {} {} [0x61 :: List.replicate (2 ^ 31 - 1) Quantifier.star.byte] =
        .error (.regex .tooManyStates) := by
  obtain ⟨t, ht⟩ := Tree.exists_ofPostfix_loops .star (2 ^ 31 - 1)
  obtain ⟨e, -, he, -⟩ | ⟨-, -, hrun⟩ | ⟨hroom, -⟩ := Command.usePostfix_run {} {}
    (0x61 :: List.replicate (2 ^ 31 - 1) Quantifier.star.byte)
  · cases ht.symm.trans he
  · exact ⟨⟨t, ht⟩, hrun⟩
  · exact absurd (Postfix.limit_lt_stateCount_loops .star) (Nat.not_lt_of_le hroom)

end Registry

end RegexLab
