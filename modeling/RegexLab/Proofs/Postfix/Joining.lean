import RegexLab.Proofs.Postfix.Spelling
import RegexLab.Proofs.Regex.ToTree

/-!
# Joining runs in a postfix text

The tree of a postfix text does not show in which order the operands of a run were joined. So two
texts that push the same operand, but for the nesting of runs, may be exchanged wherever they stand.
-/

namespace RegexLab

variable {r s : Regex} {t : Tree} {c : UInt8} {u w w' x y z ts : Bytes} {stack stack' : List Regex}

namespace Regex

open Postfix

/-! ## Outcomes -/

/-- Reading a text ends with the one operand that is left, or an operator finds too few operands, or
some are left over. Only the empty text leaves none. -/
theorem ofPostfix_cases (hts : ts ≠ []) :
    (count 0 ts = some 1 ∧ ∃ r, ofPostfix ts = .ok r) ∨
      (∃ c i, ofPostfix ts = .error (.missingOperand c i)) ∨
      ∃ n i, ofPostfix ts = .error (.missingOperators n i) := by
  obtain ⟨i, c, hstarves⟩ | ⟨n, hcount⟩ := starves_or_count 0 ts
  · exact .inr (.inl ⟨c, i, ofPostfix_of_starves hstarves⟩)
  · obtain rfl | htwo : n = 1 ∨ 2 ≤ n := by
      have := count_pos hcount hts
      omega
    · obtain ⟨r, hr, -⟩ := exists_ofPostfix hcount
      exact .inl ⟨hcount, r, hr⟩
    · exact .inr (.inr ⟨n - 1, ts.length, ofPostfix_of_two_le hcount htwo⟩)

theorem count_of_ofPostfix (h : ofPostfix ts = .ok r) : count 0 ts = some 1 := by
  have hts : ts ≠ [] := by
    rintro rfl
    cases h
  obtain ⟨hcount, -⟩ | ⟨c, i, he⟩ | ⟨n, i, he⟩ := ofPostfix_cases hts
  · exact hcount
  · cases h.symm.trans he
  · cases h.symm.trans he

/-! ## Exchanging operands -/

/-- A byte does the same to two stacks whose operands differ in the nesting of runs. -/
theorem StackStep.regrouped {next : List Regex} (hstep : StackStep c stack next)
    (h : List.Forall₂ Regrouped stack stack') :
    ∃ next', StackStep c stack' next' ∧ List.Forall₂ Regrouped next next' := by
  cases hstep with
  | symbol stack hc => exact ⟨_, .symbol stack' hc, .cons (.refl _) h⟩
  | concat first second stack =>
    obtain _ | ⟨hsecond, _ | ⟨hfirst, h⟩⟩ := h
    exact ⟨_, .concat _ _ _, .cons (.concat hfirst hsecond) h⟩
  | union first second stack =>
    obtain _ | ⟨hsecond, _ | ⟨hfirst, h⟩⟩ := h
    exact ⟨_, .union _ _ _, .cons (.union hfirst hsecond) h⟩
  | repeated q operand stack =>
    obtain _ | ⟨hoperand, h⟩ := h
    exact ⟨_, .repeated q _ _, .cons (.repeated q hoperand) h⟩

/-- So a byte is taken from both stacks, or refused alike. -/
theorem pushToken_regrouped (h : List.Forall₂ Regrouped stack stack') (c : UInt8)
    (position : Nat) :
    (∃ next next', pushToken stack c position = .ok next ∧
      pushToken stack' c position = .ok next' ∧ List.Forall₂ Regrouped next next') ∨
    ∃ e, pushToken stack c position = .error e ∧ pushToken stack' c position = .error e := by
  by_cases hle : needs c ≤ stack.length
  · obtain ⟨next, hstep⟩ := exists_stackStep hle
    obtain ⟨next', hstep', hnext⟩ := hstep.regrouped h
    exact .inl ⟨next, next', hstep.pushToken_eq position, hstep'.pushToken_eq position, hnext⟩
  · have hlt := Nat.lt_of_not_le hle
    have hlt' : stack'.length < needs c := h.length_eq ▸ hlt
    exact .inr ⟨_, pushToken_of_lt hlt position, pushToken_of_lt hlt' position⟩

/-- Reading goes on alike from two stacks whose operands differ in the nesting of runs: to the same
tree, or to the same error. -/
theorem map_toTree_readPostfix (h : List.Forall₂ Regrouped stack stack') (ts : Bytes)
    (position : Nat) :
    (readPostfix stack ts position).map toTree = (readPostfix stack' ts position).map toTree := by
  induction ts generalizing stack stack' position with
  | nil =>
    match stack, stack', h with
    | _, _, .nil => rfl
    | _, _, .cons hr .nil => exact congrArg Except.ok hr.toTree_eq
    | _, _, .cons _ (.cons _ h) => simp [readPostfix, h.length_eq]
  | cons c ts ih =>
    obtain ⟨next, next', hpush, hpush', hnext⟩ | ⟨e, hpush, hpush'⟩ :=
      pushToken_regrouped h c position
    · rw [readPostfix_cons hpush, readPostfix_cons hpush']
      exact ih hnext (position + 1)
    · rw [readPostfix, readPostfix, hpush, hpush']

/-- A text that has a tree by itself pushes one operand wherever it stands. -/
theorem exists_pushes (h : Tree.ofPostfix u = .ok t) : ∃ r, Pushes u r := by
  obtain ⟨r, hr, -⟩ := Tree.ofPostfix_eq_ok_iff.mp h
  obtain ⟨stack, hlength, -, hread⟩ := readPostfix_append [] (count_of_ofPostfix hr)
  obtain ⟨s, rfl⟩ := List.length_eq_one_iff.mp hlength
  exact ⟨s, hread⟩

/-- Texts of one length that push the same operand, but for the nesting of runs, may be exchanged
in any text. -/
theorem Pushes.ofPostfix_congr (hw : Pushes w r) (hw' : Pushes w' s)
    (hlength : w.length = w'.length) (h : Regrouped r s) (u v : Bytes) :
    Tree.ofPostfix (u ++ w ++ v) = Tree.ofPostfix (u ++ w' ++ v) := by
  rw [Tree.ofPostfix_eq, Tree.ofPostfix_eq, List.append_assoc, List.append_assoc]
  obtain ⟨i, c, hstarves⟩ | ⟨n, hcount⟩ := starves_or_count 0 u
  · rw [ofPostfix_of_starves (hstarves.append _), ofPostfix_of_starves (hstarves.append _)]
  · obtain ⟨stack, -, -, hread⟩ := exists_readPostfix hcount
    rw [ofPostfix, ofPostfix, hread, hread, hw, hw', hlength]
    exact map_toTree_readPostfix (.cons h (List.forall₂_same.mpr fun r _ => .refl r)) v _

end Regex

/-! ## Joining runs -/

/-- In which order the operands of a run are joined does not matter: joining the first two before
the third is read, or the last two after that, comes to the same wherever the three operands stand.
Either way there is the same tree, or the same operator finds too few operands at the same place, or
as many operands are left over at the end. -/
theorem ofPostfix_join_assoc {op : UInt8} {tx ty tz : Tree} (hop : op = dot ∨ op = bar)
    (hx : Tree.ofPostfix x = .ok tx) (hy : Tree.ofPostfix y = .ok ty)
    (hz : Tree.ofPostfix z = .ok tz) (u v : Bytes) :
    Tree.ofPostfix (u ++ x ++ y ++ [op] ++ z ++ [op] ++ v) =
      Tree.ofPostfix (u ++ x ++ y ++ z ++ [op, op] ++ v) ∧
    ∀ e, Tree.ofPostfix (u ++ x ++ y ++ z ++ [op, op] ++ v) = .error e →
      (∃ c i, e = .missingOperand c i) ∨ ∃ n i, e = .missingOperators n i := by
  constructor
  · obtain ⟨a, ha⟩ := Regex.exists_pushes hx
    obtain ⟨b, hb⟩ := Regex.exists_pushes hy
    obtain ⟨c, hc⟩ := Regex.exists_pushes hz
    have hlength : (x ++ y ++ [op] ++ z ++ [op]).length =
        (x ++ (y ++ z ++ [op]) ++ [op]).length := by
      simp
    have hcongr : Tree.ofPostfix (u ++ (x ++ y ++ [op] ++ z ++ [op]) ++ v) =
        Tree.ofPostfix (u ++ (x ++ (y ++ z ++ [op]) ++ [op]) ++ v) := by
      rcases hop with rfl | rfl
      · have hleft := (ha.two hb (Regex.pushToken_dot a b)).two hc (Regex.pushToken_dot _ c)
        have hright := ha.two (hb.two hc (Regex.pushToken_dot b c)) (Regex.pushToken_dot a _)
        exact hleft.ofPostfix_congr hright hlength (.concat_assoc a b c) u v
      · have hleft := (ha.two hb (Regex.pushToken_bar a b)).two hc (Regex.pushToken_bar _ c)
        have hright := ha.two (hb.two hc (Regex.pushToken_bar b c)) (Regex.pushToken_bar a _)
        exact hleft.ofPostfix_congr hright hlength (.union_assoc a b c) u v
    simpa using hcongr
  · intro e he
    have hne : u ++ x ++ y ++ z ++ [op, op] ++ v ≠ [] := by simp
    rw [Tree.ofPostfix_eq] at he
    obtain ⟨-, r, h⟩ | ⟨c, i, h⟩ | ⟨n, i, h⟩ := Regex.ofPostfix_cases hne
    · rw [h] at he
      cases he
    · rw [h] at he
      exact .inl ⟨c, i, (Except.error.inj he).symm⟩
    · rw [h] at he
      exact .inr ⟨n, i, (Except.error.inj he).symm⟩

/-- A symbol, a run and a loop, joined behind an operand that a last operator joins to them, or that
is left over. -/
theorem ofPostfix_join_assoc_runAndLoop :
    (∃ tx ty tz, Tree.ofPostfix (ascii "a") = .ok tx ∧ Tree.ofPostfix (ascii "bc.") = .ok ty ∧
      Tree.ofPostfix (ascii "de|*") = .ok tz) ∧
    Tree.ofPostfix (ascii "sabc..de|*.|") = Tree.ofPostfix (ascii "sabc.de|*..|") ∧
      (Tree.ofPostfix (ascii "sabc.de|*..|")).map Tree.text = .ok (ascii "s|abc(d|e)*") ∧
    Tree.ofPostfix (ascii "sabc.|de|*|") = Tree.ofPostfix (ascii "sabc.de|*||") ∧
      Tree.ofPostfix (ascii "sabc.de|*||") = .error (.missingOperators 1 11) := by
  obtain ⟨tx, ha⟩ : ∃ t, Tree.ofPostfix (ascii "a") = .ok t := ⟨_, rfl⟩
  obtain ⟨ty, hb⟩ : ∃ t, Tree.ofPostfix (ascii "bc.") = .ok t := ⟨_, rfl⟩
  obtain ⟨tz, hc⟩ : ∃ t, Tree.ofPostfix (ascii "de|*") = .ok t := ⟨_, rfl⟩
  refine ⟨⟨tx, ty, tz, ha, hb, hc⟩, ?_, by decide +kernel, ?_, rfl⟩
  · exact (ofPostfix_join_assoc (.inl rfl) ha hb hc (ascii "s") (ascii "|")).1
  · exact (ofPostfix_join_assoc (.inr rfl) ha hb hc (ascii "s") []).1

end RegexLab
