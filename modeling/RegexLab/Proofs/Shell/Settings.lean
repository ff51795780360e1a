import Mathlib.Algebra.Group.Nat.Defs
import RegexLab.Proofs.Text.Lines
import RegexLab.Proofs.Text.Words
import RegexLab.Shell.Directory
import RegexLab.Shell.Settings

/-!
# Loading settings

The lines of a file are applied one after the other, up to the first bad one. So each setting is
what the last line for its keyword makes of it, among the lines before the first bad one, and stays
as it was if there is no such line. A bad line leaves nothing behind.

## Main definitions

* `Assigns` — a line gives a keyword a value.
* `BadLine` — what is wrong with a line.
* `Says` — what a line says that is not bad.
* `Latest` — what the last line for a keyword leaves.
* `Settings.Follows` — the settings that some lines leave.
-/

namespace RegexLab

variable {α : Type} {makes : Bytes → α → Prop} {prior mid x x' : α}
  {line keyword value keyword' value' path content : Bytes} {lines lines' : List Bytes}
  {s s' s'' : Settings} {directive : Directive} {problem : LineProblem} {files : Files}

/-! ## Lines -/

/-- Without a carriage return at its end, the line has the keyword as its first word, and the value
is what follows without the blanks around it. -/
def Assigns (line keyword value : Bytes) : Prop :=
  ∃ rest, Bytes.FirstWord line.stripReturn keyword rest ∧ Bytes.Trims rest value

namespace Assigns

/-- What a line says is a matter of its keyword and its value. -/
theorem ofLine_eq (h : Assigns line keyword value) : Directive.ofLine line.stripReturn =
    if keyword = ascii "prompt" then
      if value = [] then .error .emptyPrompt else .ok (.prompt value)
    else if keyword = ascii "log" then
      (LogLevel.ofName? value).elim (.error .unknownLevel) fun level => .ok (.log level)
    else if keyword = ascii "pattern" then .ok (.pattern value)
    else if keyword.head? = some '#'.toUInt8 then .ok .nothing
    else .error (.unknownKeyword keyword) := by
  obtain ⟨rest, hfirst, htrims⟩ := h
  simp only [Directive.ofLine, hfirst.skip_eq, hfirst.heads.takeWhile_eq, hfirst.heads.dropWhile_eq,
    htrims.trim_eq, hfirst.heads.ne_nil, if_false]
  cases LogLevel.ofName? value <;> rfl

/-- A line has one keyword. -/
theorem keyword_eq (h : Assigns line keyword value)
    (h' : Assigns line keyword' value') : keyword = keyword' := by
  obtain ⟨rest, hfirst, -⟩ := h
  obtain ⟨rest', hfirst', -⟩ := h'
  rw [← hfirst.heads.takeWhile_eq, ← hfirst.skip_eq, hfirst'.skip_eq, hfirst'.heads.takeWhile_eq]

/-- A line gives its keyword one value. -/
theorem value_eq (h : Assigns line keyword value) (h' : Assigns line keyword value') :
    value = value' := by
  obtain ⟨rest, hfirst, htrims⟩ := h
  obtain ⟨rest', hfirst', htrims'⟩ := h'
  have hrest : rest = rest' := by
    rw [← hfirst.heads.dropWhile_eq, ← hfirst.skip_eq, hfirst'.skip_eq, hfirst'.heads.dropWhile_eq]
  rw [← htrims.trim_eq, hrest, htrims'.trim_eq]

/-- A blank line has no keyword. -/
theorem not_blank (h : Assigns line keyword value) : ¬ line.stripReturn.all isWhite := by
  obtain ⟨rest, ⟨blanks, -, hline, hheads⟩, -⟩ := h
  obtain ⟨c, w, rfl⟩ := List.exists_cons_of_ne_nil hheads.ne_nil
  simp [hline, hheads.bare c List.mem_cons_self]

end Assigns

/-- A line without a word says nothing. -/
theorem Directive.ofLine_of_blank (h : line.all isWhite) : ofLine line = .ok .nothing := by
  have hskip : line.dropWhile isWhite = [] := List.dropWhile_eq_nil_iff.mpr (List.all_eq_true.mp h)
  simp [ofLine, hskip]

/-- A line that is not blank gives its first word a value. -/
theorem exists_assigns (h : ¬ line.stripReturn.all isWhite) :
    ∃ keyword value, Assigns line keyword value := by
  obtain ⟨keyword, rest, hfirst⟩ := Bytes.exists_firstWord h
  exact ⟨keyword, _, rest, hfirst, Bytes.trims_trim rest⟩

/-- What is wrong with a line: a prompt without a text, a level of the log that there is none of, or
a first word that is no keyword and does not start a comment. -/
inductive BadLine (line : Bytes) : LineProblem → Prop
  | prompt : Assigns line (ascii "prompt") [] → BadLine line .emptyPrompt
  | log {value : Bytes} : Assigns line (ascii "log") value →
      value ∉ [ascii "error", ascii "info", ascii "debug"] → BadLine line .unknownLevel
  | keyword {keyword value : Bytes} : Assigns line keyword value →
      keyword ∉ [ascii "prompt", ascii "log", ascii "pattern"] →
      keyword.head? ≠ some '#'.toUInt8 → BadLine line (.unknownKeyword keyword)

inductive Says (line : Bytes) : Directive → Prop
  | blank : line.stripReturn.all isWhite → Says line .nothing
  | comment {keyword value : Bytes} : Assigns line keyword value →
      keyword.head? = some '#'.toUInt8 → Says line .nothing
  | prompt {value : Bytes} : Assigns line (ascii "prompt") value → value ≠ [] →
      Says line (.prompt value)
  | log {level : LogLevel} : Assigns line (ascii "log") level.name → Says line (.log level)
  | pattern {value : Bytes} : Assigns line (ascii "pattern") value → Says line (.pattern value)

/-- A text that is no name of a level is none of the three names. -/
theorem LogLevel.ofName?_eq_none_iff {name : Bytes} :
    ofName? name = none ↔ name ∉ [ascii "error", ascii "info", ascii "debug"] := by
  simp [ofName?, LogLevel.name, @eq_comm _ name]

/-- A line is read as what it says, or refused for what is wrong with it. -/
theorem Directive.ofLine_spec (line : Bytes) :
    (∃ directive, ofLine line.stripReturn = .ok directive ∧ Says line directive) ∨
      ∃ problem, ofLine line.stripReturn = .error problem ∧ BadLine line problem := by
  by_cases hblank : line.stripReturn.all isWhite
  · exact .inl ⟨_, ofLine_of_blank hblank, .blank hblank⟩
  · obtain ⟨keyword, value, h⟩ := exists_assigns hblank
    rw [h.ofLine_eq]
    split_ifs with hprompt hempty hlog hpattern hcomment
    · subst hprompt hempty
      exact .inr ⟨_, rfl, .prompt h⟩
    · subst hprompt
      exact .inl ⟨_, rfl, .prompt h hempty⟩
    · subst hlog
      cases hlevel : LogLevel.ofName? value with
      | some level =>
        rw [LogLevel.ofName?_eq_some_iff.mp hlevel] at h
        exact .inl ⟨_, rfl, .log h⟩
      | none => exact .inr ⟨_, rfl, .log h (LogLevel.ofName?_eq_none_iff.mp hlevel)⟩
    · subst hpattern
      exact .inl ⟨_, rfl, .pattern h⟩
    · exact .inl ⟨_, rfl, .comment h hcomment⟩
    · exact .inr ⟨_, rfl, .keyword h (by simp [hprompt, hlog, hpattern]) hcomment⟩

theorem BadLine.ofLine_eq (h : BadLine line problem) :
    Directive.ofLine line.stripReturn = .error problem := by
  cases h with
  | prompt h => rw [h.ofLine_eq, if_pos rfl, if_pos rfl]
  | log h hvalue =>
    rw [h.ofLine_eq, if_neg (by decide), if_pos rfl, LogLevel.ofName?_eq_none_iff.mpr hvalue,
      Option.elim_none]
  | keyword h hkeyword hcomment =>
    obtain ⟨hprompt, hlog, hpattern⟩ : _ ∧ _ ∧ _ := by simpa using hkeyword
    rw [h.ofLine_eq, if_neg hprompt, if_neg hlog, if_neg hpattern, if_neg hcomment]

/-- A line for a pattern is not bad, whatever the pattern. -/
theorem Assigns.not_badLine (h : Assigns line (ascii "pattern") value) : ¬ BadLine line problem := by
  intro hbad
  have hline := h.ofLine_eq
  rw [if_neg (by decide), if_neg (by decide), if_pos rfl, hbad.ofLine_eq] at hline
  cases hline

/-! ## The last line for a keyword -/

/-- Some lines leave `x`: it is what is made of the value that the last of them for the keyword
gives, or what was there before if none of them is for the keyword. -/
def Latest (lines : List Bytes) (keyword : Bytes) (makes : Bytes → α → Prop) (prior x : α) : Prop :=
  (∃ before line after value, lines = before ++ line :: after ∧ Assigns line keyword value ∧
    (∀ later ∈ after, ∀ v, ¬ Assigns later keyword v) ∧ makes value x) ∨
  ((∀ line ∈ lines, ∀ v, ¬ Assigns line keyword v) ∧ x = prior)

namespace Latest

theorem refl (hnone : ∀ line ∈ lines, ∀ v, ¬ Assigns line keyword v) :
    Latest lines keyword makes x x :=
  .inr ⟨hnone, rfl⟩

theorem single (h : Assigns line keyword value) (hmakes : makes value x) :
    Latest [line] keyword makes prior x :=
  .inl ⟨[], line, [], value, rfl, h, by simp, hmakes⟩

/-- The later lines count, and the earlier ones if there is none for the keyword among those. -/
theorem append (h : Latest lines keyword makes prior mid)
    (h' : Latest lines' keyword makes mid x) : Latest (lines ++ lines') keyword makes prior x := by
  obtain ⟨before, line, after, value, rfl, hline, hafter, hmakes⟩ | ⟨hnone', rfl⟩ := h'
  · exact .inl ⟨lines ++ before, line, after, value, by simp, hline, hafter, hmakes⟩
  · obtain ⟨before, line, after, value, rfl, hline, hafter, hmakes⟩ | ⟨hnone, rfl⟩ := h
    · refine .inl ⟨before, line, after ++ lines', value, by simp, hline, fun later hlater => ?_,
        hmakes⟩
      exact (List.mem_append.mp hlater).elim (hafter later) (hnone' later)
    · exact .refl fun line hline => (List.mem_append.mp hline).elim (hnone line) (hnone' line)

/-- There is one last line for a keyword. -/
theorem unique (hmakes : ∀ value x x', makes value x → makes value x' → x = x')
    (h : Latest lines keyword makes prior x) (h' : Latest lines keyword makes prior x') :
    x = x' := by
  obtain ⟨before, line, after, value, rfl, hline, hafter, hx⟩ | ⟨hnone, rfl⟩ := h <;>
    obtain ⟨before', line', after', value', hlines, hline', hafter', hx'⟩ | ⟨hnone', rfl⟩ := h'
  · have hsame : line = line' := by
      obtain ⟨between, -, hrest⟩ | ⟨between, -, hrest⟩ := List.append_eq_append_iff.mp hlines
      · cases between with
        | nil => exact (List.cons.inj hrest).1
        | cons => exact absurd hline' (hafter line' (by simp [(List.cons.inj hrest).2]) value')
      · cases between with
        | nil => exact (List.cons.inj hrest).1.symm
        | cons => exact absurd hline (hafter' line (by simp [(List.cons.inj hrest).2]) value)
    subst hsame
    exact hmakes value x x' hx (hline.value_eq hline' ▸ hx')
  · exact absurd hline (hnone' line (by simp) value)
  · exact absurd hline' (hnone line' (by simp [hlines]) value')
  · rfl

end Latest

namespace Settings

/-- The settings `s'` are those that some lines leave of `s`. A space follows the prompt. -/
structure Follows (lines : List Bytes) (s s' : Settings) : Prop where
  prompt : Latest lines (ascii "prompt") (fun value text => text = value ++ ascii " ")
    s.prompt s'.prompt
  level : Latest lines (ascii "log") (fun value level => value = level.name) s.level s'.level
  pattern : Latest lines (ascii "pattern") (fun value source => source = some value)
    s.pattern s'.pattern

namespace Follows

theorem nil (s : Settings) : Follows [] s s :=
  ⟨.refl (by simp), .refl (by simp), .refl (by simp)⟩

theorem append (h : Follows lines s s') (h' : Follows lines' s' s'') :
    Follows (lines ++ lines') s s'' :=
  ⟨h.prompt.append h'.prompt, h.level.append h'.level, h.pattern.append h'.pattern⟩

end Follows

end Settings

/-- A line for one keyword is for no other. -/
theorem Assigns.latest_of_ne (h : Assigns line keyword value)
    (hne : keyword ≠ keyword') : Latest [line] keyword' makes x x :=
  .refl fun line' hline' v h' => by
    obtain rfl := List.mem_singleton.mp hline'
    exact hne (h.keyword_eq h')

/-- Applying what a line says leaves what that line leaves. -/
theorem Says.follows (h : Says line directive) (s : Settings) :
    Settings.Follows [line] s (s.apply directive) := by
  cases h with
  | blank hblank =>
    have hnone : ∀ keyword, ∀ line' ∈ [line], ∀ v, ¬ Assigns line' keyword v := by
      intro keyword line' hline' v h'
      obtain rfl := List.mem_singleton.mp hline'
      exact h'.not_blank hblank
    exact ⟨.refl (hnone _), .refl (hnone _), .refl (hnone _)⟩
  | comment h hhash =>
    refine ⟨h.latest_of_ne ?_, h.latest_of_ne ?_, h.latest_of_ne ?_⟩ <;>
    · rintro rfl
      exact absurd hhash (by decide)
  | prompt h => exact ⟨.single h rfl, h.latest_of_ne (by decide), h.latest_of_ne (by decide)⟩
  | log h => exact ⟨h.latest_of_ne (by decide), .single h rfl, h.latest_of_ne (by decide)⟩
  | pattern h => exact ⟨h.latest_of_ne (by decide), h.latest_of_ne (by decide), .single h rfl⟩

/-! ## Files -/

namespace SettingsError

/-- The message of a bad line starts with the path and the number of the line, if the counter can
hold that number. -/
theorem message_badLine {number : Nat} (hpos : 0 < number) (hlt : number < 2 ^ 31) (path : Bytes)
    (problem : LineProblem) : (badLine path (.ofNat number) problem).message =
      (path ++ ascii ":" ++ decimal number ++ ascii ", " ++ problem.text).untilNul := by
  have hnumber : ¬ Int32.ofNat number ≤ 0 := by
    rw [Int32.le_iff_toInt_le, Int32.toInt_ofNat_of_lt hlt, Int32.toInt_zero]
    omega
  rw [message, located, if_neg hnumber, Int32.toNatClampNeg_ofNat_of_lt hlt]

/-- Otherwise neither is told. -/
theorem message_badLine_of_le {number : Int32} (h : number ≤ 0) (path : Bytes)
    (problem : LineProblem) : (badLine path number problem).message = problem.text.untilNul := by
  rw [message, located, if_pos h]

end SettingsError

namespace Settings

/-- A line further on, the numbers of the lines behind it are the same. -/
theorem number_cons (number : Int32) (line : Bytes) (good : List Bytes) :
    number + 1 + .ofNat good.length = number + .ofNat (line :: good).length := by
  rw [List.length_cons, Int32.ofNat_add, Int32.add_comm (.ofNat good.length), ← Int32.add_assoc]
  rfl

/-- Counting from one, the number of the line behind some lines is one more than theirs. -/
theorem one_add_ofNat (count : Nat) : (1 : Int32) + .ofNat count = .ofNat (count + 1) := by
  rw [Int32.ofNat_add, Int32.add_comm]
  rfl

/-- The lines before the first bad one are applied; `number` is the number of the first line. -/
theorem applyLines_spec (path : Bytes) (s : Settings) (lines : List Bytes)
    (number : Int32) :
    ∃ good, (∀ line ∈ good, ∀ problem, ¬ BadLine line problem) ∧
      Follows good s (s.applyLines path lines number).1 ∧
      ((lines = good ∧ (s.applyLines path lines number).2 = .ok ()) ∨
        ∃ line after problem, lines = good ++ line :: after ∧ BadLine line problem ∧
          (s.applyLines path lines number).2 =
            .error (.badLine path (number + .ofNat good.length) problem)) := by
  induction lines generalizing s number with
  | nil => exact ⟨[], by simp, .nil s, .inl ⟨rfl, rfl⟩⟩
  | cons line lines ih =>
    obtain ⟨directive, hline, hmeans⟩ | ⟨problem, hline, hbad⟩ := Directive.ofLine_spec line
    · obtain ⟨good, hgood, hfollows, hend⟩ := ih (s.apply directive) (number + 1)
      have hnot : ∀ problem, ¬ BadLine line problem := fun problem hbad => by
        simp [hbad.ofLine_eq] at hline
      simp only [applyLines, hline]
      refine ⟨line :: good, by simpa using ⟨hnot, hgood⟩,
        (hmeans.follows s).append hfollows, ?_⟩
      obtain ⟨rfl, hok⟩ | ⟨line', after, problem, rfl, hbad, herror⟩ := hend
      · exact .inl ⟨rfl, hok⟩
      · refine .inr ⟨line', after, problem, rfl, hbad, ?_⟩
        rw [herror, number_cons]
    · simp only [applyLines, hline]
      refine ⟨[], by simp, .nil s, .inr ⟨line, lines, problem, rfl, hbad, ?_⟩⟩
      have hnumber : number + .ofNat ([] : List Bytes).length = number := Int32.add_zero number
      rw [hnumber]

/-- Lines that are not bad are all applied. -/
theorem applyLines_of_good (hgood : ∀ line ∈ lines, ∀ problem, ¬ BadLine line problem)
    (path : Bytes) (s : Settings) (number : Int32) :
    ∃ s', s.applyLines path lines number = (s', .ok ()) ∧ Follows lines s s' := by
  obtain ⟨good, -, hfollows, ⟨rfl, hok⟩ | ⟨line, after, problem, rfl, hbad, -⟩⟩ :=
    s.applyLines_spec path lines number
  · exact ⟨_, Prod.ext rfl hok, hfollows⟩
  · exact absurd hbad (hgood line (by simp) problem)

/-- The first bad line is the one that is told. -/
theorem applyLines_of_bad {good : List Bytes}
    (hgood : ∀ line ∈ good, ∀ problem, ¬ BadLine line problem) (hbad : BadLine line problem)
    (path : Bytes) (s : Settings) (after : List Bytes) (number : Int32) :
    ∃ s', s.applyLines path (good ++ line :: after) number =
      (s', .error (.badLine path (number + .ofNat good.length) problem)) := by
  induction good generalizing s number with
  | nil => exact ⟨s, by simp [applyLines, hbad.ofLine_eq]⟩
  | cons first good ih =>
    obtain ⟨hfirst, hrest⟩ := List.forall_mem_cons.mp hgood
    obtain ⟨directive, hok, -⟩ | ⟨problem, -, hbad⟩ := Directive.ofLine_spec first
    · obtain ⟨s', hs'⟩ := ih hrest (s.apply directive) (number + 1)
      exact ⟨s', by simp only [List.cons_append, applyLines, hok, hs', number_cons _ first]⟩
    · exact absurd hbad (hfirst problem)

/-- Loading a file applies the lines before the first bad one: each setting is then what the last of
them for its keyword gives, or as it was before. If there is a bad line, and only then, loading
fails. The error has the path and what the counter makes of the number of the first bad line, all
lines counted, and its message tells them as long as the counter can hold that number. -/
theorem load_applies_lines (hread : files.read path = .ok content) (s : Settings) :
    (∃ good, (∀ line ∈ good, ∀ problem, ¬ BadLine line problem) ∧
      Follows good s (s.load files path).1 ∧
      ((content.segments = good ∧ (s.load files path).2 = .ok [loadedNote path]) ∨
        ∃ line after problem, content.segments = good ++ line :: after ∧ BadLine line problem ∧
          ∃ e, (s.load files path).2 = .error e ∧
            e = .badLine path (.ofNat (good.length + 1)) problem ∧
            (good.length + 1 < 2 ^ 31 →
              e.message = (path ++ ascii ":" ++ decimal (good.length + 1) ++ ascii ", " ++
                problem.text).untilNul))) ∧
    ((∃ e, (s.load files path).2 = .error e) ↔
      ∃ line ∈ content.segments, ∃ problem, BadLine line problem) := by
  obtain ⟨good, hgood, hfollows, hend⟩ := s.applyLines_spec path content.segments 1
  have hload : s.load files path = ((s.applyLines path content.segments 1).1,
      (s.applyLines path content.segments 1).2.map fun _ => [loadedNote path]) := by
    simp only [load, hread, Bytes.lines_eq_segments]
  rw [hload]
  obtain ⟨hlines, hok⟩ | ⟨line, after, problem, hlines, hbad, herror⟩ := hend
  · refine ⟨⟨good, hgood, hfollows, .inl ⟨hlines, by rw [hok]; rfl⟩⟩, ?_⟩
    rw [hok, hlines]
    constructor
    · rintro ⟨_, ⟨⟩⟩
    · rintro ⟨line, hline, problem, hbad⟩
      exact absurd hbad (hgood line hline problem)
  · rw [one_add_ofNat] at herror
    refine ⟨⟨good, hgood, hfollows, .inr ⟨line, after, problem, hlines, hbad, _,
      by rw [herror]; rfl, rfl, fun hlt =>
        SettingsError.message_badLine (Nat.succ_pos _) hlt path problem⟩⟩, ?_⟩
    rw [herror, hlines]
    exact iff_of_true ⟨_, rfl⟩ ⟨line, by simp, problem, hbad⟩

def portContent : Bytes :=
  ascii "# shell\r\n\n prompt a\nprompt  b> \r\npattern x y\nport 8080\nlog error\n"

theorem load_applies_lines_portContent :
    ∃ good line after e, portContent.segments = good ++ line :: after ∧ good.length = 5 ∧
      BadLine line (.unknownKeyword (ascii "port")) ∧
      Follows good {} { prompt := ascii "b> ", pattern := some (ascii "x y") } ∧
      (load {} (.ofList .directory [(ascii "rc", portContent)]) (ascii "rc")).2 = .error e ∧
      e.message = ascii "rc:6, Can't understand keyword \x60port\x60" := by
  have hread : Files.read (.ofList .directory [(ascii "rc", portContent)]) (ascii "rc") =
      .ok portContent := by decide +kernel
  have hload : load {} (.ofList .directory [(ascii "rc", portContent)]) (ascii "rc") =
      ({ prompt := ascii "b> ", pattern := some (ascii "x y") },
        .error (.badLine (ascii "rc") 6 (.unknownKeyword (ascii "port")))) := by decide +kernel
  have hlength : portContent.segments.length = 7 := by decide +kernel
  obtain ⟨⟨good, hgood, hfollows, hend⟩, -⟩ := load_applies_lines hread {}
  rw [hload] at hfollows hend
  obtain ⟨-, ⟨⟩⟩ | ⟨line, after, problem, hlines, hbad, e, ⟨⟩, he, hmessage⟩ := hend
  obtain ⟨-, hnumber, rfl⟩ := SettingsError.badLine.inj he
  have hlt : good.length + 1 < 2 ^ 31 := by
    rw [hlines, List.length_append, List.length_cons] at hlength
    omega
  have hgood : good.length = 5 := by
    have htold := congrArg Int32.toNatClampNeg hnumber
    rw [Int32.toNatClampNeg_ofNat_of_lt hlt] at htold
    exact (Nat.succ.inj htold).symm
  exact ⟨good, line, after, _, hlines, hgood, hbad, hfollows, congrArg Prod.snd hload,
    (hmessage hlt).trans (by rw [hgood]; decide +kernel)⟩

def wordBehind (n : Nat) : Bytes :=
  List.replicate n lineFeed ++ ascii "x"

theorem segments_wordBehind (n : Nat) :
    (wordBehind n).segments = List.replicate n [] ++ [ascii "x"] := by
  induction n with
  | zero => exact Bytes.segments_of_notMem (by decide) (by decide)
  | succ n ih => exact (Bytes.segments_append List.not_mem_nil _).trans (congrArg _ ih)

theorem badLine_x : BadLine (ascii "x") (.unknownKeyword (ascii "x")) := by
  have hline : Directive.ofLine (ascii "x").stripReturn =
      .error (.unknownKeyword (ascii "x")) := by decide +kernel
  obtain ⟨directive, hok, -⟩ | ⟨problem, herror, hbad⟩ := Directive.ofLine_spec (ascii "x")
  · cases hline.symm.trans hok
  · cases hline.symm.trans herror
    exact hbad

/-- Where the counter does not hold the number of the bad line, its message is all that is told. -/
theorem load_wordBehind {n : Nat} (h : Int32.ofNat (n + 1) ≤ 0) (s : Settings) :
    ∃ e, (s.load (.ofList .byName [(ascii "rc", wordBehind n)]) (ascii "rc")).2 = .error e ∧
      e.message = ascii "Can't understand keyword \x60x\x60" := by
  have hblank : ∀ line ∈ List.replicate n ([] : Bytes), ∀ problem, ¬ BadLine line problem := by
    intro line hline problem hbad
    rw [List.eq_of_mem_replicate hline] at hbad
    cases hbad.ofLine_eq
  obtain ⟨s', hs'⟩ := applyLines_of_bad hblank badLine_x (ascii "rc") s [] 1
  have hread : Files.read (.ofList .byName [(ascii "rc", wordBehind n)]) (ascii "rc") =
      .ok (wordBehind n) := Files.read_byName (by decide +kernel) (by decide) _
  rw [List.length_replicate, one_add_ofNat] at hs'
  refine ⟨_, by simp only [load, hread, Bytes.lines_eq_segments, segments_wordBehind, hs']; rfl, ?_⟩
  rw [SettingsError.message_badLine_of_le h]
  decide +kernel

/-- With as many lines before the bad one as the counter can hold, neither the path nor the number is
told. -/
theorem load_applies_lines_tooManyLines :
    (wordBehind (2 ^ 31 - 1)).segments = List.replicate (2 ^ 31 - 1) [] ++ [ascii "x"] ∧
      BadLine (ascii "x") (.unknownKeyword (ascii "x")) ∧
      ∃ e, (load {} (.ofList .byName [(ascii "rc", wordBehind (2 ^ 31 - 1))]) (ascii "rc")).2 =
          .error e ∧
        e.message = ascii "Can't understand keyword \x60x\x60" :=
  ⟨segments_wordBehind _, badLine_x, load_wordBehind (by decide) {}⟩

end Settings

end RegexLab
