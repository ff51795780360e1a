import RegexLab.Proofs.Shell.UsePostfix

/-!
# What lines do to a session

Two commands choose a pattern, one ends the session, and the others leave the session alone, as
does every line that fails. So after any run of lines the pattern in use is the one that was chosen
last, and the session is over once some line has ended it.

## Main definitions

* `Chooses`, `Ends` — the lines that choose a pattern, and those that end the session.
* `Session.KeptBy` — a computation that leaves the session as it was.
* `Registry.after` — the session after several lines.
-/

namespace RegexLab

/-- The line chooses the pattern `p`: it compiles `p`, or a postfix text that spells `p`, and there
is room for the states. -/
inductive Chooses (line : Bytes) : Bytes → Prop
  | emptyPattern : splitLine line = (ascii "compile", [[]]) → Chooses line []
  | pattern {p : Bytes} {t : Tree} : splitLine line = (ascii "compile", [p]) →
      parse p = .ok t → t.stateCount ≤ Arena.limit → Chooses line p
  | emptyTokens : splitLine line = (ascii "postfix", [[]]) → Chooses line []
  | tokens {ts : Bytes} {t : Tree} : splitLine line = (ascii "postfix", [ts]) →
      Tree.ofPostfix ts = .ok t → Postfix.stateCount ts ≤ Arena.limit → Chooses line t.text

def Ends (line : Bytes) : Prop :=
  splitLine line = (ascii "exit", [])

/-- The session after several lines, each with the files as they are when it is run. -/
def Registry.after (registry : Registry) (s : Session) (lines : List (Files × Bytes)) : Session :=
  lines.foldl (fun s line => (registry.runLine line.1 s line.2).2) s

variable {line p source : Bytes} {s s' : Session} {files : Files} {α : Type}
  {command : Command} {t : Tree} {b : Build} {name : Bytes} {arguments : List Bytes}

/-! ## Commands that leave the session alone -/

/-- The computation leaves the session as it was, if it succeeds at all. -/
def Session.KeptBy (s : Session) (x : Except Failure (Transcript × Session)) : Prop :=
  ∀ written s', x = .ok (written, s') → s' = s

namespace Session.KeptBy

theorem ok (written : Transcript) : s.KeptBy (.ok (written, s)) := by
  rintro _ _ ⟨⟩
  rfl

theorem error (e : Failure) : s.KeptBy (.error e) :=
  nofun

theorem bind {x : Except Failure α} {f : α → Except Failure (Transcript × Session)}
    (h : ∀ a, s.KeptBy (f a)) : s.KeptBy (x >>= f) := by
  intro written s' hok
  obtain ⟨a, -, hok⟩ := bind_eq_ok_iff.mp hok
  exact h a written s' hok

theorem ite {c : Prop} [Decidable c] {x y : Except Failure (Transcript × Session)}
    (hx : s.KeptBy x) (hy : s.KeptBy y) : s.KeptBy (if c then x else y) := by
  split
  · exact hx
  · exact hy

end Session.KeptBy

namespace Command

open Session.KeptBy

def Keeps (command : Command) : Prop :=
  ∀ around (s : Session) arguments, s.KeptBy (command.run around s arguments)

theorem keeps_unary {kind : ArgumentKind} {description : String}
    {run : Surroundings → Session → Bytes → Except Failure (Transcript × Session)}
    (h : ∀ around (s : Session) argument, s.KeptBy (run around s argument)) :
    (unary kind description run).Keeps := by
  intro around s arguments
  match arguments with
  | [argument] => exact h around s argument
  | [] | _ :: _ :: _ => exact error _

theorem keeps_nullary {description : String}
    {run : Surroundings → Session → Except Failure (Transcript × Session)}
    (h : ∀ around (s : Session), s.KeptBy (run around s)) : (nullary description run).Keeps :=
  fun around s _ => h around s

theorem keeps_showPattern : showPattern.Keeps :=
  keeps_nullary fun _ _ => bind fun _ => ok _

theorem keeps_matchWord : matchWord.Keeps :=
  keeps_unary fun _ _ _ => bind fun _ => ok _

theorem keeps_test : test.Keeps := by
  intro around s arguments
  match arguments with
  | [source, word] => exact bind fun _ => ok _
  | [] | [_] | _ :: _ :: _ :: _ => exact error _

theorem keeps_batch : batch.Keeps := by
  refine keeps_unary fun around s path => bind fun p => ?_
  cases around.files.read path with
  | error cause => exact error _
  | ok content => exact ok _

theorem keeps_showPostfix : showPostfix.Keeps :=
  keeps_unary fun _ _ _ => ite (ok _) (bind fun _ => bind fun _ => ok _)

theorem keeps_showTree : showTree.Keeps :=
  keeps_unary fun _ _ _ => ite (error _) (bind fun _ => ok _)

theorem keeps_help : help.Keeps :=
  keeps_nullary fun _ _ => ok _

end Command

/-! ## Commands that choose a pattern -/

/-- The patterns that compile are the empty one and those with a tree whose states find room. -/
theorem exists_buildInfix_iff : (∃ b, buildInfix p = .ok b) ↔
    p = [] ∨ ∃ t, parse p = .ok t ∧ t.stateCount ≤ Arena.limit := by
  constructor
  · rintro ⟨b, hb⟩
    cases p with
    | nil => exact .inl rfl
    | cons c p =>
      obtain ⟨t, ht, -⟩ := bind_eq_ok_iff.mp hb
      refine .inr ⟨t, ht, ?_⟩
      by_contra hmany
      cases hb.symm.trans (buildInfix_of_lt ht (Nat.lt_of_not_le hmany))
  · rintro (rfl | ⟨t, ht, hroom⟩)
    · exact exists_ofEmpty.imp fun _ => And.left
    · exact exists_buildInfix ht hroom

/-- The postfix texts that compile are the empty one and those with a tree whose states find
room. -/
theorem exists_buildPostfix_iff {ts : Bytes} : (∃ b, buildPostfix ts = .ok b) ↔
    ts = [] ∨ ∃ t, Tree.ofPostfix ts = .ok t ∧ Postfix.stateCount ts ≤ Arena.limit := by
  obtain ⟨e, hts, he, hb⟩ | ⟨hmany, ⟨t, ht⟩, hb⟩ | ⟨hroom, b, hb⟩ := buildPostfix_cases ts
  · simp [hb, hts, he]
  · have hts : ts ≠ [] := by
      rintro rfl
      cases ht
    simp [hb, hts, Nat.not_le_of_lt hmany]
  · refine iff_of_true ⟨b, hb⟩ ?_
    cases ts with
    | nil => exact .inl rfl
    | cons c ts =>
      obtain ⟨t, ht, -⟩ := bind_eq_ok_iff.mp hb
      exact .inr ⟨t, ht, hroom⟩

namespace Command

theorem compile_run (h : buildInfix p = .ok b) (around : Surroundings) (s : Session) :
    ∃ written, compile.run around s [p] =
      .ok (written, { s with current := some { source := p, automaton := b.automaton } }) :=
  ⟨_, bind_eq_ok_iff.mpr ⟨_, compiled_of_buildInfix h, rfl⟩⟩

theorem buildInfix_of_compiled {q : Pattern × Transcript} (h : compiled p = .ok q) :
    ∃ b, buildInfix p = .ok b := by
  cases hb : buildInfix p with
  | ok b => exact ⟨b, rfl⟩
  | error e => cases h.symm.trans (compiled_of_error hb)

theorem buildInfix_of_compile_run {around : Surroundings} {written : Transcript}
    (h : compile.run around s [p] = .ok (written, s')) : ∃ b, buildInfix p = .ok b := by
  obtain ⟨_, hcompiled, -⟩ := bind_eq_ok_iff.mp h
  exact buildInfix_of_compiled hcompiled

theorem infixOf_of_usePostfix_run {around : Surroundings} {written : Transcript} {ts : Bytes}
    (h : usePostfix.run around s [ts] = .ok (written, s')) :
    ∃ p, infixOf ts = .ok p ∧ ∃ b, buildInfix p = .ok b := by
  obtain ⟨p, hp, h⟩ := bind_eq_ok_iff.mp h
  obtain ⟨_, hcompiled, -⟩ := bind_eq_ok_iff.mp h
  exact ⟨p, hp, buildInfix_of_compiled hcompiled⟩

end Command

/-- What a line chooses, told by what its command does. -/
theorem chooses_iff : Chooses line p ↔ (∃ b, buildInfix p = .ok b) ∧
    (splitLine line = (ascii "compile", [p]) ∨
      ∃ ts, splitLine line = (ascii "postfix", [ts]) ∧ Command.infixOf ts = .ok p) := by
  constructor
  · intro h
    cases h with
    | emptyPattern hline => exact ⟨exists_buildInfix_iff.mpr (.inl rfl), .inl hline⟩
    | pattern hline ht hroom =>
      exact ⟨exists_buildInfix_iff.mpr (.inr ⟨_, ht, hroom⟩), .inl hline⟩
    | emptyTokens hline => exact ⟨exists_buildInfix_iff.mpr (.inl rfl), .inr ⟨[], hline, rfl⟩⟩
    | tokens hline ht hroom =>
      have hsource := Command.infixOf_of_tree ht
      refine ⟨?_, .inr ⟨_, hline, hsource⟩⟩
      rw [Command.buildInfix_infixOf hsource]
      exact exists_buildPostfix_iff.mpr (.inr ⟨_, ht, hroom⟩)
  · rintro ⟨hb, hline | ⟨ts, hline, hsource⟩⟩
    · obtain rfl | ⟨t, ht, hroom⟩ := exists_buildInfix_iff.mp hb
      · exact .emptyPattern hline
      · exact .pattern hline ht hroom
    · rw [Command.buildInfix_infixOf hsource] at hb
      obtain rfl | ⟨t, ht, hroom⟩ := exists_buildPostfix_iff.mp hb
      · obtain rfl := Except.ok.inj hsource
        exact .emptyTokens hline
      · obtain rfl := Except.ok.inj ((Command.infixOf_of_tree ht).symm.trans hsource)
        exact .tokens hline ht hroom

/-! ## Lines -/

theorem not_blank_of_splitLine (h : splitLine line = (name, arguments)) (hne : name ≠ []) :
    ¬ line.all isWhite := by
  intro hblank
  rw [splitLine_of_blank hblank] at h
  exact hne (Prod.mk.inj h).1.symm

theorem checkArguments_nil {checked : List Bytes} (h : checkArguments [] arguments = .ok checked) :
    arguments = [] := by
  cases arguments with
  | nil => rfl
  | cons a rest => simp [checkArguments] at h

/-- A command for one argument, which is no word and no path, gets it as it is. -/
theorem checkArguments_singleton {kind : ArgumentKind} (hword : kind ≠ .word) (hpath : kind ≠ .path)
    {checked : List Bytes} :
    checkArguments [kind] arguments = .ok checked ↔ ∃ a, arguments = [a] ∧ checked = [a] := by
  match arguments with
  | [] =>
    have hmissing : fillArguments [kind] [] = .error .argumentCount := by
      cases kind with
      | word => exact absurd rfl hword
      | pattern | tokens | path => rfl
    simp [checkArguments, hmissing]
  | [a] =>
    have hfill : fillArguments [kind] [a] = .ok [a] := by
      cases kind with
      | word => exact absurd rfl hword
      | path => exact absurd rfl hpath
      | pattern | tokens => rfl
    simp [checkArguments, hfill, eq_comm]
  | _ :: _ :: _ => simp [checkArguments]

namespace Registry

/-- A line that succeeds names a command, which has run with its checked arguments. -/
theorem perform_eq_ok {registry : Registry} {written : Transcript}
    (h : registry.perform files s line = .ok (written, s')) :
    ∃ name arguments command checked, splitLine line = (name, arguments) ∧
      registry.find name = .ok command ∧ checkArguments command.kinds arguments = .ok checked ∧
      command.run { files, descriptions := registry.descriptions } s checked =
        .ok (written, s') := by
  obtain ⟨⟨name, arguments⟩, hline⟩ : ∃ parts, splitLine line = parts := ⟨_, rfl⟩
  cases hfind : registry.find name with
  | error e => simp [perform, commandOf, hline, hfind, Except.mapError, bind, Except.bind] at h
  | ok command =>
    rw [perform_of_splitLine hline hfind] at h
    cases hcheck : checkArguments command.kinds arguments with
    | error e => simp [hcheck, Except.mapError, Except.bind] at h
    | ok checked =>
      rw [hcheck] at h
      exact ⟨name, arguments, command, checked, hline, hfind, hcheck, h⟩

/-- A command that is found is one of the registry. -/
theorem mem_commands_of_find {registry : Registry} (h : registry.find name = .ok command) :
    (name, command) ∈ registry.commands := by
  unfold find at h
  split at h
  next c hlookup =>
    obtain rfl := Except.ok.inj h
    obtain ⟨before, after, hcommands, -⟩ := List.lookup_eq_some_iff.mp hlookup
    simp [hcommands]
  next => cases h

/-- All standard commands but three leave the session alone. -/
theorem standard_cases (h : standard.find name = .ok command) :
    name = ascii "compile" ∧ command = .compile ∨ name = ascii "postfix" ∧ command = .usePostfix ∨
      name = ascii "exit" ∧ command = .exit ∨ command.Keeps := by
  have hmem := mem_commands_of_find h
  simp only [standard, List.mem_cons, Prod.mk.injEq, List.not_mem_nil, or_false] at hmem
  rcases hmem with ⟨-, rfl⟩ | h | h | ⟨-, rfl⟩ | ⟨-, rfl⟩ | h | ⟨-, rfl⟩ | ⟨-, rfl⟩ | ⟨-, rfl⟩ |
    ⟨-, rfl⟩
  · exact .inr (.inr (.inr Command.keeps_batch))
  · exact .inl h
  · exact .inr (.inr (.inl h))
  · exact .inr (.inr (.inr Command.keeps_help))
  · exact .inr (.inr (.inr Command.keeps_matchWord))
  · exact .inr (.inl h)
  · exact .inr (.inr (.inr Command.keeps_showPattern))
  · exact .inr (.inr (.inr Command.keeps_test))
  · exact .inr (.inr (.inr Command.keeps_showPostfix))
  · exact .inr (.inr (.inr Command.keeps_showTree))

/-! ## One line -/

theorem find_standard_compile : standard.find (ascii "compile") = .ok .compile :=
  rfl

theorem find_standard_exit : standard.find (ascii "exit") = .ok .exit :=
  rfl

theorem runLine_of_perform {registry : Registry} {written : Transcript}
    (hblank : ¬ line.all isWhite) (h : registry.perform files s line = .ok (written, s')) :
    registry.runLine files s line = (written, s') := by
  rw [runLine, if_neg hblank, h]

/-- A line that fails is reported. -/
theorem runLine_of_error {registry : Registry} {e : Failure} (hblank : ¬ line.all isWhite)
    (h : registry.perform files s line = .error e) :
    registry.runLine files s line = (e.report line, s) := by
  rw [runLine, if_neg hblank, h]

theorem runLine_of_blank {registry : Registry} (hblank : line.all isWhite) :
    registry.runLine files s line = ([], s) := by
  rw [runLine, if_pos hblank]

/-- A line that chooses a pattern puts it in use, with its automaton. -/
theorem perform_of_chooses (h : Chooses line p) (files : Files) (s : Session) :
    ∃ b written, buildInfix p = .ok b ∧ standard.perform files s line =
      .ok (written, { s with current := some { source := p, automaton := b.automaton } }) := by
  obtain ⟨⟨b, hb⟩, hline | ⟨ts, hline, hsource⟩⟩ := chooses_iff.mp h
  · obtain ⟨written, hrun⟩ :=
      Command.compile_run hb { files, descriptions := standard.descriptions } s
    exact ⟨b, written, hb, (perform_of_splitLine hline find_standard_compile files s).trans hrun⟩
  · obtain ⟨written, hrun⟩ := Command.usePostfix_run_of_infixOf hsource hb
      { files, descriptions := standard.descriptions } s
    exact ⟨b, written, hb, (perform_of_splitLine hline find_standard_usePostfix files s).trans hrun⟩

theorem not_blank_of_chooses (h : Chooses line p) : ¬ line.all isWhite := by
  obtain ⟨-, hline | ⟨ts, hline, -⟩⟩ := chooses_iff.mp h
  · exact not_blank_of_splitLine hline (by decide)
  · exact not_blank_of_splitLine hline (by decide)

theorem runLine_of_chooses (h : Chooses line p) (files : Files) (s : Session) :
    ∃ b, buildInfix p = .ok b ∧ (standard.runLine files s line).2 =
      { s with current := some { source := p, automaton := b.automaton } } := by
  obtain ⟨b, written, hb, hperform⟩ := perform_of_chooses h files s
  exact ⟨b, hb, congrArg Prod.snd (runLine_of_perform (not_blank_of_chooses h) hperform)⟩

/-- A line that ends the session does nothing else. -/
theorem perform_of_ends (h : Ends line) (files : Files) (s : Session) :
    standard.perform files s line = .ok ([], { s with stopped := true }) :=
  perform_of_splitLine h find_standard_exit files s

theorem runLine_of_ends (h : Ends line) (files : Files) (s : Session) :
    (standard.runLine files s line).2 = { s with stopped := true } := by
  have hblank := not_blank_of_splitLine h (by decide)
  exact congrArg Prod.snd (runLine_of_perform hblank (perform_of_ends h files s))

/-- All other lines leave the session alone. -/
theorem runLine_of_other (hchooses : ∀ p, ¬ Chooses line p) (hends : ¬ Ends line) (files : Files)
    (s : Session) : (standard.runLine files s line).2 = s := by
  by_cases hblank : line.all isWhite
  · exact congrArg Prod.snd (runLine_of_blank hblank)
  cases hperform : standard.perform files s line with
  | error e => exact congrArg Prod.snd (runLine_of_error hblank hperform)
  | ok result =>
    obtain ⟨written, s'⟩ := result
    obtain ⟨name, arguments, command, checked, hline, hfind, hcheck, hrun⟩ :=
      perform_eq_ok hperform
    rw [runLine_of_perform hblank hperform]
    -- A command that changes the session makes the line one of the two kinds that are excluded.
    obtain ⟨rfl, rfl⟩ | ⟨rfl, rfl⟩ | ⟨rfl, rfl⟩ | hkeeps := standard_cases hfind
    · obtain ⟨p, rfl, rfl⟩ := (checkArguments_singleton (by decide) (by decide)).mp hcheck
      have hb := Command.buildInfix_of_compile_run hrun
      exact absurd (chooses_iff.mpr ⟨hb, .inl hline⟩) (hchooses p)
    · obtain ⟨ts, rfl, rfl⟩ := (checkArguments_singleton (by decide) (by decide)).mp hcheck
      obtain ⟨p, hp, hb⟩ := Command.infixOf_of_usePostfix_run hrun
      exact absurd (chooses_iff.mpr ⟨hb, .inr ⟨ts, hline, hp⟩⟩) (hchooses p)
    · obtain rfl := checkArguments_nil hcheck
      exact absurd hline hends
    · exact hkeeps _ s checked written s' hrun

/-! ## All lines -/

end Registry

end RegexLab
