import Mathlib.Order.Bounds.Defs
import RegexLab.Proofs.Grammar.Completeness

/-!
# A reading stops where no pattern goes on

A reading takes a byte exactly if some pattern goes on with it: whatever has been read can be
completed to a pattern, and a byte that is refused is refused whatever follows. So the place where
a reading stops is the end of the longest beginning that can still become a pattern.

## Main definitions

* `Viable` — some pattern starts with the text.
* `RegexError.unexpected` — the error for a byte that continues no pattern.
* `Reading.Refuses` — a byte continues no pattern after what has been read.
-/

namespace RegexLab

def Viable (s : Bytes) : Prop :=
  ∃ rest t, Derives .expr t ∧ t.text = s ++ rest

/-- The error for a byte that continues no pattern. It is worded by the part that the byte plays. -/
def RegexError.unexpected (c : UInt8) (position : Nat) : RegexError :=
  match Mark.ofByte c with
  | .quantifier _ => .unexpectedQuantifier c position
  | _ => .unexpectedSymbol c position

variable {level : Level} {outer : List Level} {r r' : Reading} {c : UInt8} {s u w : Bytes}
  {position : Nat}

namespace Reading

/-! ## One byte -/

/-- The byte is refused wherever it stands. -/
def Refuses (r : Reading) (c : UInt8) : Prop :=
  ∀ position, r.step c position = .error (.unexpected c position)

theorem startOperand_cases (r : Reading) (c : UInt8) :
    (∃ r', ∀ position, r.startOperand c position = .ok r') ∨
      ∀ position, r.startOperand c position = .error (.unexpected c position) := by
  unfold startOperand RegexError.unexpected
  cases Mark.ofByte c with
  | quantifier q | bar | closing => exact .inr fun _ => rfl
  | opening | escape | literal => exact .inl ⟨_, fun _ => rfl⟩

theorem continueTerm_cases (r : Reading) (c : UInt8) :
    (∃ r', ∀ position, r.continueTerm c position = .ok r') ∨
      ∀ position, r.continueTerm c position = .error (.unexpected c position) := by
  unfold continueTerm
  split
  · exact .inl ⟨_, fun _ => rfl⟩
  · exact .inl ⟨_, fun _ => rfl⟩
  · exact r.startOperand_cases c

/-- Whether a byte is taken does not depend on where it stands. -/
theorem step_cases (r : Reading) (c : UInt8) :
    (∃ r', ∀ position, r.step c position = .ok r') ∨ r.Refuses c := by
  unfold Refuses step
  cases r.cursor with
  | operandDue => exact r.startOperand_cases c
  | escapeDue => exact .inl ⟨_, fun _ => rfl⟩
  | factorRead => exact r.continueTerm_cases c
  | operandRead atom =>
    cases Quantifier.ofByte? c with
    | some q => exact .inl ⟨_, fun _ => rfl⟩
    | none => exact r.closeFactor.continueTerm_cases c

/-! ## The whole text -/

/-- A reading takes all bytes, or it stops at the first that it refuses. -/
theorem run_cases (r : Reading) (w : Bytes) (position : Nat) :
    (∃ r', r.Takes w r' ∧
      r.run w position = (r'.conclude (position + w.length), position + w.length)) ∨
    ∃ u c rest r', w = u ++ c :: rest ∧ r.Takes u r' ∧ r'.Refuses c ∧
      r.run w position =
        (.error (.unexpected c (position + u.length)), position + u.length) := by
  induction w generalizing r position with
  | nil => exact .inl ⟨r, .nil r, rfl⟩
  | cons c w ih =>
    obtain ⟨r₁, hstep⟩ | hrefuses := r.step_cases c
    · have hrun : r.run (c :: w) position = r₁.run w (position + 1) := by
        rw [run, hstep]
      have hshift : ∀ v : Bytes, position + 1 + v.length = position + (c :: v).length :=
        fun v => by simp; omega
      rw [hrun]
      obtain ⟨r', htakes, hend⟩ | ⟨u, d, rest, r', rfl, htakes, hrefuses, hend⟩ :=
        ih r₁ (position + 1)
      · exact .inl ⟨r', .cons hstep htakes, by rw [hend, hshift]⟩
      · exact .inr ⟨c :: u, d, rest, r', rfl, .cons hstep htakes, hrefuses, by rw [hend, hshift]⟩
    · exact .inr ⟨[], c, w, r, rfl, .nil r, hrefuses, by rw [run, hrefuses]; rfl⟩

/-- A byte that is refused is refused whatever follows. -/
theorem run_of_refuses (htakes : r.Takes u r') (hrefuses : r'.Refuses c) (rest : Bytes) :
    r.run (u ++ c :: rest) position =
      (.error (.unexpected c (position + u.length)), position + u.length) := by
  rw [htakes.run, run, hrefuses]

theorem conclude_cases (r : Reading) (position : Nat) :
    (∃ t, r.conclude position = .ok t) ∨ r.conclude position = .error (.endOfInput position) := by
  unfold conclude
  split
  · exact .inl ⟨_, rfl⟩
  · exact .inr rfl

/-! ## Completing a text -/

/-- All open groups can be closed after a factor. -/
theorem Ended.exists_close (h : r.Ended level outer) :
    ∃ w r' level', r.Takes w r' ∧ r'.Ended level' [] := by
  induction outer generalizing r level with
  | nil => exact ⟨[], r, level, .nil r, h⟩
  | cons around outer ih =>
    obtain ⟨w, r', level', htakes, hended⟩ :=
      ih (r := ⟨around, outer, .operandRead (.group level.expr)⟩) rfl
    exact ⟨closing :: w, r', level', .cons h.close htakes, hended⟩

/-- Wherever a reading has come to, a factor can be finished. -/
theorem exists_ended (r : Reading) :
    ∃ w r' level outer, r.Takes w r' ∧ r'.Ended level outer := by
  obtain ⟨level, outer, cursor⟩ := r
  cases cursor with
  | operandDue =>
    have hliteral : Awaits ⟨level, outer, .operandDue⟩ level outer := .inl rfl
    exact ⟨[0x61], _, _, outer, .byte (hliteral.literal (by decide)), rfl⟩
  | escapeDue => exact ⟨[0x61], _, _, outer, .byte fun _ => rfl, rfl⟩
  | operandRead atom => exact ⟨[], _, _, outer, .nil _, rfl⟩
  | factorRead => exact ⟨[], _, level, outer, .nil _, rfl⟩

end Reading

/-! ## Where a reading stops -/

/-- What has been read can be completed to a pattern. -/
theorem viable_of_takes (h : Reading.Takes {} s r) : Viable s := by
  obtain ⟨v, r₁, level₁, outer, hv, hended₁⟩ := r.exists_ended
  obtain ⟨w, r₂, level₂, hw, hended₂⟩ := hended₁.exists_close
  have hrun := ((h.append hv).append hw).run [] 0
  rw [List.append_nil, Reading.run, hended₂.conclude] at hrun
  have hparse : parse (s ++ v ++ w) = .ok level₂.expr := congrArg Prod.fst hrun
  obtain ⟨hderives, htext⟩ := derives_of_parse hparse
  exact ⟨v ++ w, level₂.expr, hderives, by rw [htext, List.append_assoc]⟩

/-- A byte that is refused continues no pattern. -/
theorem not_viable_of_refuses (h : Reading.Takes {} u r) (hrefuses : r.Refuses c) :
    ¬ Viable (u ++ [c]) := by
  rintro ⟨rest, t, hderives, htext⟩
  have hparse := hderives.parse_text
  rw [htext, List.append_assoc, List.singleton_append] at hparse
  have hstop : parse (u ++ c :: rest) = .error (.unexpected c (0 + u.length)) :=
    congrArg Prod.fst (Reading.run_of_refuses h hrefuses rest)
  cases hparse.symm.trans hstop

theorem Viable.of_append (h : Viable (u ++ w)) : Viable u := by
  obtain ⟨rest, t, hderives, htext⟩ := h
  exact ⟨w ++ rest, t, hderives, by rw [htext, List.append_assoc]⟩

/-- A text that is taken is viable as a whole. -/
theorem isGreatest_viable_of_takes (h : Reading.Takes {} s r) :
    IsGreatest {n | n ≤ s.length ∧ Viable (s.take n)} s.length :=
  ⟨⟨Nat.le_refl _, by simpa using viable_of_takes h⟩, fun _ hn => hn.1⟩

/-- The longest viable beginning of a text ends in front of the byte that is refused. -/
theorem isGreatest_viable_of_refuses (h : Reading.Takes {} u r) (hrefuses : r.Refuses c)
    (rest : Bytes) :
    IsGreatest {n | n ≤ (u ++ c :: rest).length ∧ Viable ((u ++ c :: rest).take n)} u.length := by
  refine ⟨⟨by simp, by simpa using viable_of_takes h⟩, ?_⟩
  rintro n ⟨-, hviable⟩
  refine Nat.le_of_not_lt fun hlt => ?_
  -- A longer beginning holds the byte that is refused.
  obtain ⟨k, rfl⟩ : ∃ k, n = u.length + (k + 1) := ⟨n - u.length - 1, by omega⟩
  rw [List.take_length_add_append, List.take_succ_cons, List.append_cons] at hviable
  exact not_viable_of_refuses h hrefuses hviable.of_append

namespace Parser

theorem parse_of_run {p : Parser} {outcome : Except RegexError Tree}
    (h : Reading.run {} p.pattern 0 = (outcome, position)) :
    p.parse = (outcome, { p with position }) := by
  rw [parse, h]

/-- A reading that succeeds ends at the end of the pattern. A text that is no pattern is read up
to the end of its longest viable beginning: if that is the whole text, the end of input is
reported, and otherwise the byte behind it, as an error of syntax. Reading once more gives the same
result and stops at the same place. -/
theorem parse_stops_at_longest_viable (p : Parser) :
    (∀ t, p.parse.1 = .ok t → p.parse.2.position = p.pattern.length) ∧
    ((¬ ∃ t, Derives .expr t ∧ t.text = p.pattern) →
      ∃ i, IsGreatest {n | n ≤ p.pattern.length ∧ Viable (p.pattern.take n)} i ∧
        p.parse.2.position = i ∧
        (i = p.pattern.length → p.parse.1 = .error (.endOfInput i)) ∧
        (i ≠ p.pattern.length →
          ∃ c, p.pattern[i]? = some c ∧ p.parse.1 = .error (.unexpected c i))) ∧
    p.parse.2.parse = p.parse := by
  obtain ⟨pattern, start⟩ := p
  obtain ⟨r, htakes, hrun⟩ | ⟨u, c, rest, r, rfl, htakes, hrefuses, hrun⟩ :=
    Reading.run_cases {} pattern 0
  · rw [Nat.zero_add] at hrun
    have hparse := parse_of_run (p := ⟨pattern, start⟩) hrun
    refine ⟨fun t _ => by rw [hparse], fun hnone => ⟨pattern.length, ?_⟩, rfl⟩
    refine ⟨isGreatest_viable_of_takes htakes, by rw [hparse], fun _ => ?_, fun hne => absurd rfl hne⟩
    obtain ⟨t, ht⟩ | hend := r.conclude_cases pattern.length
    · exact absurd ⟨t, derives_of_parse ((congrArg Prod.fst hrun).trans ht)⟩ hnone
    · rw [hparse, hend]
  · rw [Nat.zero_add] at hrun
    have hparse := parse_of_run (p := ⟨u ++ c :: rest, start⟩) hrun
    refine ⟨fun t ht => ?_, fun _ => ⟨u.length, ?_⟩, rfl⟩
    · rw [hparse] at ht
      cases ht
    · have hne : u.length ≠ (u ++ c :: rest).length := by simp
      exact ⟨isGreatest_viable_of_refuses htakes hrefuses rest, by rw [hparse],
        fun hlength => absurd hlength hne, fun _ => ⟨c, by simp, by rw [hparse]⟩⟩

/-- A group that is never closed, and a star that has no operand. -/
theorem parse_stops_at_longest_viable_openGroup :
    (¬ ∃ t, Derives .expr t ∧ t.text = ascii "(a|b") ∧
    IsGreatest {n | n ≤ 4 ∧ Viable ((ascii "(a|b").take n)} 4 ∧
    parse { pattern := ascii "(a|b" } =
      (.error (.endOfInput 4), { pattern := ascii "(a|b", position := 4 }) ∧
    IsGreatest {n | n ≤ 5 ∧ Viable ((ascii "(a|*)").take n)} 3 ∧
    parse { pattern := ascii "(a|*)" } =
      (.error (.unexpectedQuantifier 0x2a 3), { pattern := ascii "(a|*)", position := 3 }) := by
  have hgroup : ¬ ∃ t, Derives .expr t ∧ t.text = ascii "(a|b" := by
    rintro ⟨t, hderives, htext⟩
    have hparse := hderives.parse_text
    rw [htext] at hparse
    cases hparse
  have hstar : ¬ ∃ t, Derives .expr t ∧ t.text = ascii "(a|*)" := by
    rintro ⟨t, hderives, htext⟩
    have hparse := hderives.parse_text
    rw [htext] at hparse
    cases hparse
  obtain ⟨i, hgreatest, rfl, -⟩ :=
    (parse_stops_at_longest_viable { pattern := ascii "(a|b" }).2.1 hgroup
  obtain ⟨j, hgreatest', rfl, -⟩ :=
    (parse_stops_at_longest_viable { pattern := ascii "(a|*)" }).2.1 hstar
  exact ⟨hgroup, hgreatest, rfl, hgreatest', rfl⟩

end Parser

end RegexLab
