import RegexLab.Proofs.Shell.Batch

/-!
# What lines see of the files

Where a path leads depends on which files there are, and what is read there on the content of one of
them. Of the standard commands one reads a file, and it only uses the words on the lines of that
file. So a line has the same effect with any files that show it the same words.

## Main definitions

* `Files.SameUnder` — files that cannot be told apart by what is told of their contents.
-/

namespace RegexLab

variable {α : Type} {f : Bytes → α} {files files' : Files} {path line name : Bytes}
  {arguments : List Bytes} {s : Session} {command : Command}

/-! ## Paths -/

/-- Paths lead to the same places, the same files exist, and `f` tells the same of their contents. -/
structure Files.SameUnder (f : Bytes → α) (files files' : Files) : Prop where
  lookup : files.lookup = files'.lookup
  map_find? : ∀ name, (files.find? name).map f = (files'.find? name).map f

namespace Files.SameUnder

theorem symm (h : files.SameUnder f files') : files'.SameUnder f files :=
  ⟨h.lookup.symm, fun name => (h.map_find? name).symm⟩

theorem isFile_eq (h : files.SameUnder f files') : files.isFile = files'.isFile := by
  funext name
  rw [Files.isFile_eq, Files.isFile_eq, ← Option.isSome_map (f := f), h.map_find? name,
    Option.isSome_map]

theorem locate_eq (h : files.SameUnder f files') (path : Bytes) :
    files.locate path = files'.locate path := by
  rw [locate, locate, h.lookup, h.isFile_eq]

theorem textAt_eq (h : files.SameUnder f files') (place : Place) :
    f (files.textAt place) = f (files'.textAt place) := by
  cases place with
  | directory => rfl
  | file name => rw [textAt, textAt, ← Option.getD_map f, h.map_find? name, Option.getD_map]

/-- A path can be read in both or in neither, and the same is told of what is read. -/
theorem map_read_eq (h : files.SameUnder f files') (path : Bytes) :
    (files.read path).map f = (files'.read path).map f := by
  rw [read, read, h.locate_eq]
  cases files'.locate path with
  | error cause => rfl
  | ok place => exact congrArg Except.ok (h.textAt_eq place)

end Files.SameUnder

/-! ## Commands -/

namespace Command

/-- Of the files, the command only uses the words of the one that it reads. -/
theorem batch_run_congr {around around' : Surroundings}
    (h : (around.files.read path).map wordsOf = (around'.files.read path).map wordsOf) :
    batch.run around s [path] = batch.run around' s [path] := by
  have hshown : ∀ around : Surroundings, batch.run around s [path] = s.pattern.bind fun p =>
      match (around.files.read path).map wordsOf with
      | .error cause => .error (.command (.cannotOpen path cause))
      | .ok words => .ok (Event.note .info (ascii "Matching " ++ decimal words.size ++
          ascii " lines of " ++ path ++ ascii " against " ++ p.source.backquoted ++ ascii ".") ::
          report (words.toList.zip (p.acceptsEach words).toList), s) := by
    intro around
    cases hpattern : s.pattern <;> cases hread : around.files.read path <;>
      simp [batch, unary, hpattern, hread, bind, Except.bind, Except.map, pure, Except.pure]
  rw [hshown, hshown, h]

/-- A standard command does the same with any files, unless it reads one of them. -/
theorem run_congr (hfind : Registry.standard.find name = .ok command)
    (h : name = ascii "batch" → ∀ path, arguments = [path] →
      (files.read path).map wordsOf = (files'.read path).map wordsOf) (descriptions : List Bytes) :
    command.run { files, descriptions } s arguments =
      command.run { files := files', descriptions } s arguments := by
  have hmem := Registry.mem_commands_of_find hfind
  simp only [Registry.standard, List.mem_cons, Prod.mk.injEq, List.not_mem_nil, or_false] at hmem
  rcases hmem with ⟨hname, rfl⟩ | ⟨-, rfl⟩ | ⟨-, rfl⟩ | ⟨-, rfl⟩ | ⟨-, rfl⟩ | ⟨-, rfl⟩ |
    ⟨-, rfl⟩ | ⟨-, rfl⟩ | ⟨-, rfl⟩ | ⟨-, rfl⟩
  · rcases arguments with - | ⟨path, - | ⟨other, more⟩⟩
    · rfl
    · exact batch_run_congr (h hname path rfl)
    · rfl
  all_goals rfl

/-- The command gets its path as it was written. -/
theorem eq_of_checkArguments_batch {checked : List Bytes}
    (h : checkArguments batch.kinds arguments = .ok checked) : checked = arguments := by
  match arguments with
  | [] => cases h
  | _ :: _ :: _ => simp [checkArguments, batch, unary] at h
  | [path] =>
    have hfill : checkArguments batch.kinds [path] =
      (ArgumentKind.path.check path).bind fun a => .ok [a] := rfl
    rw [hfill, ArgumentKind.check] at h
    split_ifs at h with hbad
    · cases h
    · exact (Except.ok.inj h).symm

end Command

/-! ## Lines -/

namespace Registry

/-- A line has the same effect with any files, unless it reads one of them. -/
theorem runLine_congr
    (h : ∀ path, splitLine line = (ascii "batch", [path]) →
      (files.read path).map Command.wordsOf = (files'.read path).map Command.wordsOf) :
    standard.runLine files s line = standard.runLine files' s line := by
  have hperform : standard.perform files s line = standard.perform files' s line := by
    obtain ⟨⟨name, arguments⟩, hline⟩ : ∃ parts, splitLine line = parts := ⟨_, rfl⟩
    cases hfind : standard.find name with
    | error e => simp [perform, commandOf, hline, hfind, Except.mapError, bind, Except.bind]
    | ok command =>
      rw [perform_of_splitLine hline hfind, perform_of_splitLine hline hfind]
      cases hcheck : checkArguments command.kinds arguments with
      | error e => rfl
      | ok checked =>
        refine Command.run_congr hfind (fun hname path hpath => h path ?_) _
        obtain rfl := Except.ok.inj (hfind.symm.trans (hname ▸ find_standard_batch))
        rw [hline, hname, ← Command.eq_of_checkArguments_batch hcheck, hpath]
  rw [runLine, runLine, hperform]

/-- What a line makes of the session does not depend on the files. -/
theorem session_runLine_eq (files files' : Files) (s : Session) (line : Bytes) :
    (standard.runLine files s line).2 = (standard.runLine files' s line).2 := by
  by_cases hchooses : ∃ p, Chooses line p
  · obtain ⟨p, hp⟩ := hchooses
    obtain ⟨b, hb, hrun⟩ := runLine_of_chooses hp files s
    obtain ⟨b', hb', hrun'⟩ := runLine_of_chooses hp files' s
    obtain rfl := Except.ok.inj (hb.symm.trans hb')
    rw [hrun, hrun']
  · by_cases hends : Ends line
    · rw [runLine_of_ends hends, runLine_of_ends hends]
    · rw [runLine_of_other (not_exists.mp hchooses) hends,
        runLine_of_other (not_exists.mp hchooses) hends]

end Registry

end RegexLab
