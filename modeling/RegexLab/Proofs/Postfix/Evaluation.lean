import RegexLab.Proofs.Regex.Assembly
import RegexLab.Regex.Postfix

/-!
# Reading a postfix text

Whether a postfix text can be read is a matter of counting: an operator takes the operands that it
needs from those that are there and leaves one. What the text means can be worked out on a stack of
languages. Reading keeps a stack of regular expressions instead, with as many entries as are
counted, whose languages are those of the other stack.

## Main definitions

* `Postfix.needs`, `Postfix.count` — the operands that a byte needs, and those that a text leaves.
* `Postfix.Starves` — the place of the first operator that finds too few operands.
* `Postfix.apply`, `Postfix.evaluate` — a byte, and a text, on a stack of languages.
* `Regex.StackStep` — a byte on a stack of regular expressions.
-/

namespace RegexLab

open Computability

variable {c : UInt8} {u ts rest : Bytes} {stack : List Regex} {n m i : Nat}

/-! ## Tokens -/

/-- What a byte is, given the token that it stands for. -/
theorem Token.ofByte_spec (c : UInt8) :
    match Token.ofByte c with
    | .symbol d => d = c ∧ c ∉ ascii ".|*+?"
    | .concat => c = dot
    | .union => c = bar
    | .quantifier q => c = q.byte := by
  unfold Token.ofByte
  cases hq : Quantifier.ofByte? c with
  | some q => exact Quantifier.ofByte?_eq_some_iff.mp hq
  | none =>
    split_ifs with hdot hbar <;> try assumption
    have hne : ∀ q : Quantifier, c ≠ q.byte := by
      rintro q rfl
      simp at hq
    have hstar : c ≠ '*'.toUInt8 := hne .star
    have hplus : c ≠ '+'.toUInt8 := hne .plus
    have hopt : c ≠ '?'.toUInt8 := hne .opt
    simpa [ascii] using ⟨hdot, hbar, hstar, hplus, hopt⟩

theorem Token.ofByte_eq_symbol (h : c ∉ ascii ".|*+?") : Token.ofByte c = .symbol c := by
  have hc := Token.ofByte_spec c
  cases ht : Token.ofByte c with
  | symbol d =>
    rw [ht] at hc
    rw [hc.1]
  | concat | union =>
    rw [ht] at hc
    subst hc
    exact absurd (by decide) h
  | quantifier q =>
    rw [ht] at hc
    subst hc
    cases q <;> exact absurd (by decide) h

/-- Only the operators do not read as symbols. -/
theorem Token.ofByte_eq_symbol_iff : Token.ofByte c = .symbol c ↔ c ∉ ascii ".|*+?" := by
  refine ⟨fun h => ?_, Token.ofByte_eq_symbol⟩
  have hc := Token.ofByte_spec c
  rw [h] at hc
  exact hc.2

/-! ## Counting operands -/

namespace Postfix

def needs (c : UInt8) : Nat :=
  if c ∈ ascii "*+?" then 1 else if c ∈ ascii ".|" then 2 else 0

/-- The number of operands that a text leaves where there are `n`, unless some operator finds too
few. A byte leaves one for those that it needs. -/
def count (n : Nat) : Bytes → Option Nat
  | [] => some n
  | c :: rest => if needs c ≤ n then count (n - needs c + 1) rest else none

/-- Where there are `n` operands, the byte at index `i` is the first operator of the text that finds
too few. -/
def Starves (n : Nat) (ts : Bytes) (i : Nat) (c : UInt8) : Prop :=
  ts[i]? = some c ∧ ∃ m, count n (ts.take i) = some m ∧ m < needs c

@[simp] theorem needs_dot : needs dot = 2 := by decide

@[simp] theorem needs_bar : needs bar = 2 := by decide

@[simp] theorem needs_byte (q : Quantifier) : needs q.byte = 1 := by
  cases q <;> decide

theorem needs_of_notMem (h : c ∉ ascii ".|*+?") : needs c = 0 := by
  simp_all [needs, ascii]

/-- Whether an operator finds its operands does not depend on what follows. -/
theorem Starves.append (h : Starves n ts i c) (rest : Bytes) : Starves n (ts ++ rest) i c := by
  obtain ⟨hi, m, hm, hlt⟩ := h
  have hlength := (List.getElem?_eq_some_iff.mp hi).1
  refine ⟨List.getElem?_append_left hlength ▸ hi, m, ?_, hlt⟩
  rwa [List.take_append_of_le_length hlength.le]

/-- Counting ends with an operator that finds too few operands, or with the text. -/
theorem starves_or_count (n : Nat) (ts : Bytes) :
    (∃ i c, Starves n ts i c) ∨ ∃ m, count n ts = some m := by
  induction ts generalizing n with
  | nil => exact .inr ⟨n, rfl⟩
  | cons c ts ih =>
    by_cases hc : needs c ≤ n
    · obtain ⟨i, d, hi, m, hm, hd⟩ | ⟨m, hm⟩ := ih (n - needs c + 1)
      · exact .inl ⟨i + 1, d, by simpa using hi, m, by simpa [count, hc] using hm, hd⟩
      · exact .inr ⟨m, by simpa [count, hc] using hm⟩
    · exact .inl ⟨0, c, rfl, n, rfl, by omega⟩

/-- A byte leaves at least one operand. -/
theorem count_pos (h : count n ts = some m) (hts : ts ≠ []) : 0 < m := by
  induction ts generalizing n with
  | nil => exact absurd rfl hts
  | cons c ts ih =>
    by_cases hc : needs c ≤ n
    · simp only [count, hc, if_true] at h
      cases ts with
      | nil =>
        obtain rfl := Option.some.inj h
        omega
      | cons d ts => exact ih h (by simp)
    · simp [count, hc] at h

/-! ## Evaluation -/

def apply (stack : List (Language UInt8)) (c : UInt8) : Option (List (Language UInt8)) :=
  if c = '*'.toUInt8 then one fun L => L∗
  else if c = '+'.toUInt8 then one fun L => L * L∗
  else if c = '?'.toUInt8 then one fun L => 1 + L
  else if c = '.'.toUInt8 then two fun L M => L * M
  else if c = '|'.toUInt8 then two fun L M => L + M
  else some ({[c]} :: stack)
where
  /-- Replace the language on top. -/
  one (f : Language UInt8 → Language UInt8) : Option (List (Language UInt8)) :=
    match stack with
    | L :: rest => some (f L :: rest)
    | [] => none
  /-- Replace the two languages on top, of which the upper is the second operand. -/
  two (f : Language UInt8 → Language UInt8 → Language UInt8) : Option (List (Language UInt8)) :=
    match stack with
    | M :: L :: rest => some (f L M :: rest)
    | _ => none

/-- A postfix text read on a stack of languages. -/
def evaluate (stack : List (Language UInt8)) : Bytes → Option (List (Language UInt8))
  | [] => some stack
  | c :: rest => (apply stack c).bind (evaluate · rest)

theorem apply_of_notMem (h : c ∉ ascii ".|*+?") (stack : List (Language UInt8)) :
    apply stack c = some ({[c]} :: stack) := by
  simp_all [apply, ascii]

theorem apply_byte (q : Quantifier) (L : Language UInt8) (stack : List (Language UInt8)) :
    apply (L :: stack) q.byte = some (q.language L :: stack) := by
  cases q <;> rfl

theorem apply_dot (L M : Language UInt8) (stack : List (Language UInt8)) :
    apply (M :: L :: stack) dot = some (L * M :: stack) :=
  rfl

theorem apply_bar (L M : Language UInt8) (stack : List (Language UInt8)) :
    apply (M :: L :: stack) bar = some ((L + M) :: stack) :=
  rfl

end Postfix

/-! ## Reading -/

namespace Regex

open Postfix

theorem pushToken_symbol (h : Token.ofByte c = .symbol c) (stack : List Regex) (position : Nat) :
    pushToken stack c position = .ok (.symbol c :: stack) := by
  unfold pushToken
  rw [h]

theorem pushToken_dot (first second : Regex) (stack : List Regex) (position : Nat) :
    pushToken (second :: first :: stack) dot position = .ok (.concat first second :: stack) :=
  rfl

theorem pushToken_bar (first second : Regex) (stack : List Regex) (position : Nat) :
    pushToken (second :: first :: stack) bar position = .ok (.union first second :: stack) :=
  rfl

theorem pushToken_byte (q : Quantifier) (operand : Regex) (stack : List Regex) (position : Nat) :
    pushToken (operand :: stack) q.byte position = .ok (.repeated q operand :: stack) := by
  cases q <;> rfl

theorem readPostfix_cons {stack' : List Regex} {position : Nat}
    (h : pushToken stack c position = .ok stack') (rest : Bytes) :
    readPostfix stack (c :: rest) position = readPostfix stack' rest (position + 1) := by
  rw [readPostfix, h]
  rfl

/-- What a byte does to the stack where it finds the operands that it needs. -/
inductive StackStep : UInt8 → List Regex → List Regex → Prop
  | symbol {c : UInt8} (stack : List Regex) (hc : c ∉ ascii ".|*+?") :
      StackStep c stack (.symbol c :: stack)
  | concat (first second : Regex) (stack : List Regex) :
      StackStep dot (second :: first :: stack) (.concat first second :: stack)
  | union (first second : Regex) (stack : List Regex) :
      StackStep bar (second :: first :: stack) (.union first second :: stack)
  | repeated (q : Quantifier) (operand : Regex) (stack : List Regex) :
      StackStep q.byte (operand :: stack) (.repeated q operand :: stack)

theorem exists_stackStep (h : needs c ≤ stack.length) : ∃ stack', StackStep c stack stack' := by
  have hc := Token.ofByte_spec c
  cases ht : Token.ofByte c with
  | symbol d =>
    rw [ht] at hc
    exact ⟨_, .symbol stack hc.2⟩
  | concat =>
    rw [ht] at hc
    subst hc
    match stack, h with
    | second :: first :: stack, _ => exact ⟨_, .concat first second stack⟩
  | union =>
    rw [ht] at hc
    subst hc
    match stack, h with
    | second :: first :: stack, _ => exact ⟨_, .union first second stack⟩
  | quantifier q =>
    rw [ht] at hc
    subst hc
    rw [needs_byte] at h
    match stack, h with
    | operand :: stack, _ => exact ⟨_, .repeated q operand stack⟩

namespace StackStep

variable {stack' : List Regex}

/-- One operand is left for those that are needed. -/
theorem length_eq (h : StackStep c stack stack') :
    stack'.length = stack.length - needs c + 1 := by
  cases h with
  | symbol _ hc => simp [needs_of_notMem hc]
  | concat | union | repeated => simp

/-- The operand that is left has the language that evaluation gives it. -/
theorem apply_eq (h : StackStep c stack stack') :
    apply (stack.map language) c = some (stack'.map language) := by
  cases h with
  | symbol stack hc => exact apply_of_notMem hc _
  | concat first second stack => exact apply_dot _ _ _
  | union first second stack => exact apply_bar _ _ _
  | repeated q operand stack => exact apply_byte q _ _

/-- What lies below the operands is not touched. -/
theorem append (h : StackStep c stack stack') (below : List Regex) :
    StackStep c (stack ++ below) (stack' ++ below) := by
  cases h with
  | symbol stack hc => exact .symbol _ hc
  | concat first second stack => exact .concat first second _
  | union first second stack => exact .union first second _
  | repeated q operand stack => exact .repeated q operand _

theorem pushToken_eq (h : StackStep c stack stack') (position : Nat) :
    pushToken stack c position = .ok stack' := by
  cases h with
  | symbol stack hc => exact pushToken_symbol (Token.ofByte_eq_symbol hc) stack position
  | concat first second stack => exact pushToken_dot first second stack position
  | union first second stack => exact pushToken_bar first second stack position
  | repeated q operand stack => exact pushToken_byte q operand stack position

end StackStep

/-- A byte that finds too few operands is refused. -/
theorem pushToken_of_lt (h : stack.length < needs c) (position : Nat) :
    pushToken stack c position = .error (.missingOperand c position) := by
  have hc := Token.ofByte_spec c
  cases ht : Token.ofByte c with
  | symbol d =>
    rw [ht] at hc
    simp [needs_of_notMem hc.2] at h
  | concat | union =>
    rw [ht] at hc
    subst hc
    match stack, h with
    | [], _ | [_], _ => rfl
  | quantifier q =>
    rw [ht] at hc
    subst hc
    rw [needs_byte] at h
    match stack, h with
    | [], _ => cases q <;> rfl

/-- A byte is taken only where it finds the operands that it needs. -/
theorem stackStep_of_pushToken {stack' : List Regex} {position : Nat}
    (h : pushToken stack c position = .ok stack') : StackStep c stack stack' := by
  have hle : needs c ≤ stack.length := by
    by_contra hlt
    rw [pushToken_of_lt (Nat.lt_of_not_le hlt)] at h
    cases h
  obtain ⟨next, hstep⟩ := exists_stackStep hle
  obtain rfl := Except.ok.inj (h.symm.trans (hstep.pushToken_eq position))
  exact hstep

/-- A text in which every operator finds its operands leaves as many operands as are counted, with
the languages that evaluation gives them. What lies below is not touched. -/
theorem readPostfix_append (stack : List Regex) (h : count stack.length u = some n) :
    ∃ stack', stack'.length = n ∧ evaluate (stack.map language) u = some (stack'.map language) ∧
      ∀ below rest position, readPostfix (stack ++ below) (u ++ rest) position =
        readPostfix (stack' ++ below) rest (position + u.length) := by
  -- The two stacks keep in step: one entry for each operand counted, with the same language.
  induction u generalizing stack with
  | nil => exact ⟨stack, Option.some.inj h, rfl, fun _ _ _ => rfl⟩
  | cons c u ih =>
    by_cases hc : needs c ≤ stack.length
    · simp only [count, hc, if_true] at h
      obtain ⟨next, hstep⟩ := exists_stackStep hc
      rw [← hstep.length_eq] at h
      obtain ⟨stack', hlength, heval, hread⟩ := ih next h
      refine ⟨stack', hlength, by rw [evaluate, hstep.apply_eq, Option.bind_some, heval], ?_⟩
      intro below rest position
      have hpush := (hstep.append below).pushToken_eq position
      rw [List.cons_append, readPostfix_cons hpush, hread, List.length_cons]
      congr 1
      omega
    · simp [count, hc] at h

/-- A text that finds its operands leaves them on the empty stack. -/
theorem exists_readPostfix (h : count 0 u = some n) :
    ∃ stack, stack.length = n ∧ evaluate [] u = some (stack.map language) ∧
      ∀ rest, readPostfix [] (u ++ rest) 0 = readPostfix stack rest u.length := by
  obtain ⟨stack, hlength, heval, hread⟩ := readPostfix_append [] h
  refine ⟨stack, hlength, heval, fun rest => ?_⟩
  simpa using hread [] rest 0

/-- The first operator that finds too few operands is reported, whatever follows it. -/
theorem ofPostfix_of_starves (h : Starves 0 ts i c) :
    ofPostfix ts = .error (.missingOperand c i) := by
  obtain ⟨hi, n, hcount, hlt⟩ := h
  obtain ⟨hlength, rfl⟩ := List.getElem?_eq_some_iff.mp hi
  obtain ⟨stack, rfl, -, hread⟩ := exists_readPostfix hcount
  have htake : (ts.take i).length = i := List.length_take_of_le hlength.le
  have hrest := hread (ts.drop i)
  rw [List.take_append_drop, htake, List.drop_eq_getElem_cons hlength] at hrest
  rw [ofPostfix, hrest, readPostfix, pushToken_of_lt hlt]
  rfl

/-- Operands that are left over are counted, all but one. -/
theorem ofPostfix_of_two_le (h : count 0 ts = some n) (hn : 2 ≤ n) :
    ofPostfix ts = .error (.missingOperators (n - 1) ts.length) := by
  obtain ⟨stack, rfl, -, hread⟩ := exists_readPostfix h
  have hend := hread []
  rw [List.append_nil] at hend
  rw [ofPostfix, hend]
  match stack, hn with
  | _ :: second :: others, _ => rfl

/-- A text that leaves one operand spells a regular expression, with the language that the text
evaluates to. -/
theorem exists_ofPostfix (h : count 0 ts = some 1) :
    ∃ r, ofPostfix ts = .ok r ∧ evaluate [] ts = some [r.language] := by
  obtain ⟨stack, hlength, heval, hread⟩ := exists_readPostfix h
  obtain ⟨r, rfl⟩ := List.length_eq_one_iff.mp hlength
  refine ⟨r, ?_, heval⟩
  have hend := hread []
  rw [List.append_nil] at hend
  rw [ofPostfix, hend, readPostfix]

end Regex

theorem Tree.ofPostfix_eq (ts : Bytes) :
    Tree.ofPostfix ts = (Regex.ofPostfix ts).map Regex.toTree := by
  unfold Tree.ofPostfix
  cases Regex.ofPostfix ts <;> rfl

theorem Tree.ofPostfix_eq_ok_iff {t : Tree} :
    Tree.ofPostfix ts = .ok t ↔ ∃ r, Regex.ofPostfix ts = .ok r ∧ r.toTree = t := by
  rw [ofPostfix_eq]
  cases Regex.ofPostfix ts <;> simp [Except.map]

end RegexLab
