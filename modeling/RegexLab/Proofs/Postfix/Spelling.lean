import RegexLab.Proofs.Postfix.Evaluation
import RegexLab.Proofs.Regex.Literals

/-!
# Writing a postfix text

The postfix text of a tree is that of the regular expression that the tree means. It exists if no
symbol would read as an operator, and then it reads back as that regular expression.

## Main definitions

* `Regex.postfixText` — the postfix text of a regular expression.
* `Postfix.symbols` — the symbols of a postfix text.
* `Regex.Pushes` — a text that leaves a regular expression on the stack.
* `Regex.spelled` — that text after what has been written, or the first symbol that cannot be.
-/

namespace RegexLab

variable {r s x : Regex} {t : Tree} {c : UInt8} {u v ts : Bytes}

namespace Regex

def postfixText : Regex → Bytes
  | symbol c => [c]
  | concat first second => first.postfixText ++ second.postfixText ++ [dot]
  | union first second => first.postfixText ++ second.postfixText ++ [bar]
  | repeated q operand => operand.postfixText ++ [q.byte]

/-- All symbols read as symbols in a postfix text. -/
def Writable (r : Regex) : Prop :=
  ∀ c ∈ r.symbols, Token.ofByte c = .symbol c

/-- Reading the text leaves the regular expression on the stack, whatever lies below it and whatever
follows the text. -/
def Pushes (u : Bytes) (r : Regex) : Prop :=
  ∀ stack rest position, readPostfix stack (u ++ rest) position =
    readPostfix (r :: stack) rest (position + u.length)

namespace Pushes

theorem symbol (hc : Token.ofByte c = .symbol c) : Pushes [c] (.symbol c) := by
  intro stack rest position
  exact readPostfix_cons (pushToken_symbol hc stack position) rest

/-- An operator follows its operand. -/
theorem one (hr : Pushes u r)
    (hpush : ∀ stack position, pushToken (r :: stack) c position = .ok (x :: stack)) :
    Pushes (u ++ [c]) x := by
  intro stack rest position
  rw [List.append_assoc, hr, List.singleton_append, readPostfix_cons (hpush stack _),
    List.length_append, List.length_singleton, Nat.add_assoc]

/-- An operator follows its two operands. -/
theorem two (hr : Pushes u r) (hs : Pushes v s)
    (hpush : ∀ stack position, pushToken (s :: r :: stack) c position = .ok (x :: stack)) :
    Pushes (u ++ v ++ [c]) x := by
  intro stack rest position
  rw [List.append_assoc, List.append_assoc, hr, hs, List.singleton_append,
    readPostfix_cons (hpush stack _), List.length_append, List.length_append,
    List.length_singleton, Nat.add_assoc, Nat.add_assoc, Nat.add_assoc]

end Pushes

/-- Reading a postfix text leaves the regular expression that it spells. -/
theorem pushes_postfixText (hr : r.Writable) : Pushes r.postfixText r := by
  induction r with
  | symbol c => exact .symbol (hr c (by simp [symbols]))
  | concat a b iha ihb =>
    obtain ⟨ha, hb⟩ := List.forall_mem_append.mp hr
    exact (iha ha).two (ihb hb) (pushToken_dot a b)
  | union a b iha ihb =>
    obtain ⟨ha, hb⟩ := List.forall_mem_append.mp hr
    exact (iha ha).two (ihb hb) (pushToken_bar a b)
  | repeated q a ih => exact (ih hr).one (pushToken_byte q a)

/-- The postfix text of a regular expression spells it. -/
theorem ofPostfix_postfixText (hr : r.Writable) : ofPostfix r.postfixText = .ok r := by
  have hread := pushes_postfixText hr [] [] 0
  rw [List.append_nil] at hread
  rw [ofPostfix, hread, readPostfix]

/-- Different regular expressions that can be written have different postfix texts. -/
theorem eq_of_postfixText_eq (hr : r.Writable) (hs : s.Writable)
    (h : r.postfixText = s.postfixText) : r = s := by
  have hread := ofPostfix_postfixText hr
  rw [h, ofPostfix_postfixText hs] at hread
  exact (Except.ok.inj hread).symm

/-! ## What a text spells -/

end Regex

namespace Postfix

/-- The symbols of a postfix text: the bytes that are no operators. -/
def symbols (ts : Bytes) : Bytes :=
  ts.filter (· ∉ ascii ".|*+?")

theorem flatMap_symbols (ts : Bytes) : ts.flatMap (fun c => symbols [c]) = symbols ts := by
  induction ts with
  | nil => rfl
  | cons c ts ih =>
    rw [List.flatMap_cons, ih]
    exact (List.filter_append [c] ts).symm

theorem ofByte_of_mem_symbols (hc : c ∈ symbols ts) : Token.ofByte c = .symbol c :=
  Token.ofByte_eq_symbol (by simpa using (List.mem_filter.mp hc).2)

end Postfix

namespace Regex

section Collect

variable {stack stack' : List Regex} {position : Nat}

/-- Something is collected from the operands on a stack. If each byte adds its own behind what is
there, the bytes of a text add theirs one after the other. -/
theorem collect_of_readPostfix {α : Type} {f : Regex → List α} {g : UInt8 → List α}
    (hstep : ∀ {c stack stack'}, StackStep c stack stack' →
      stack'.reverse.flatMap f = stack.reverse.flatMap f ++ g c)
    (h : readPostfix stack ts position = .ok r) :
    f r = stack.reverse.flatMap f ++ ts.flatMap g := by
  induction ts generalizing stack position with
  | nil =>
    match stack, h with
    | [r], h =>
      obtain rfl := Except.ok.inj h
      simp
  | cons c ts ih =>
    obtain ⟨next, hpush, hread⟩ := bind_eq_ok_iff.mp h
    rw [ih hread, hstep (stackStep_of_pushToken hpush), List.append_assoc, List.flatMap_cons]

/-- A symbol is put behind those that are there, and an operator changes none of them. -/
theorem StackStep.symbols_eq (h : StackStep c stack stack') :
    stack'.reverse.flatMap symbols = stack.reverse.flatMap symbols ++ Postfix.symbols [c] := by
  cases h with
  | symbol stack hc => simp [symbols, Postfix.symbols, hc]
  | concat first second stack =>
    have hdot : Postfix.symbols [dot] = [] := rfl
    simp [symbols, hdot]
  | union first second stack =>
    have hbar : Postfix.symbols [bar] = [] := rfl
    simp [symbols, hbar]
  | repeated q operand stack =>
    have hmark : Postfix.symbols [q.byte] = [] := by cases q <;> rfl
    simp [symbols, hmark]

/-- Each byte is put behind the texts of the operands that are there. -/
theorem StackStep.postfixText_eq (h : StackStep c stack stack') :
    stack'.reverse.flatMap postfixText = stack.reverse.flatMap postfixText ++ [c] := by
  cases h <;> simp [postfixText]

end Collect

/-- The symbols of what a text spells are its bytes that are no operators. -/
theorem symbols_of_ofPostfix (h : ofPostfix ts = .ok r) : r.symbols = Postfix.symbols ts := by
  simpa [Postfix.flatMap_symbols] using collect_of_readPostfix StackStep.symbols_eq h

theorem writable_of_ofPostfix (h : ofPostfix ts = .ok r) : r.Writable := by
  intro c hc
  rw [symbols_of_ofPostfix h] at hc
  exact Postfix.ofByte_of_mem_symbols hc

/-- What a text spells has that text as its postfix text. -/
theorem postfixText_of_ofPostfix (h : ofPostfix ts = .ok r) : r.postfixText = ts := by
  simpa using collect_of_readPostfix StackStep.postfixText_eq h

/-! ## Symbols that cannot be written -/

def unwritable? (r : Regex) : Option UInt8 :=
  r.symbols.find? fun c => Token.ofByte c ≠ .symbol c

theorem unwritable?_eq_none_iff : r.unwritable? = none ↔ r.Writable := by
  simp [unwritable?, Writable]

/-- The postfix text of a regular expression after what has been written, latest byte first, or the
first symbol that would read as an operator. -/
def spelled (r : Regex) (written : Bytes) : Except RegexError Bytes :=
  match r.unwritable? with
  | none => .ok (r.postfixText.reverse ++ written)
  | some c => .error (.unwritable c)

theorem spelled_eq_ok_iff {written out : Bytes} :
    r.spelled written = .ok out ↔ r.Writable ∧ out = r.postfixText.reverse ++ written := by
  rw [← unwritable?_eq_none_iff, spelled]
  cases r.unwritable? <;> simp [eq_comm]

/-- Two operands are spelled one after the other, and then the operator. -/
theorem spelled_two {join : Regex → Regex → Regex} {c : UInt8}
    (htext : (join r s).postfixText = r.postfixText ++ s.postfixText ++ [c])
    (hsymbols : (join r s).symbols = r.symbols ++ s.symbols) (written : Bytes) :
    (join r s).spelled written = do
      let written ← r.spelled written
      let written ← s.spelled written
      return c :: written := by
  have hfirst : (join r s).unwritable? = r.unwritable?.or s.unwritable? := by
    rw [unwritable?, hsymbols, List.find?_append]
    rfl
  simp only [spelled, hfirst]
  cases r.unwritable? with
  | some d => rfl
  | none =>
    cases s.unwritable? with
    | some d => rfl
    | none => simp [htext, bind, Except.bind, pure, Except.pure]

theorem spelled_repeated (q : Quantifier) (written : Bytes) :
    (repeated q r).spelled written = do
      let written ← r.spelled written
      return q.byte :: written := by
  have hfirst : (repeated q r).unwritable? = r.unwritable? := rfl
  simp only [spelled, hfirst]
  cases r.unwritable? with
  | some d => rfl
  | none => simp [postfixText, bind, Except.bind, pure, Except.pure]

theorem spelled_symbol (c : UInt8) (written : Bytes) :
    (symbol c).spelled written =
      if Token.ofByte c = .symbol c then .ok (c :: written) else .error (.unwritable c) := by
  by_cases hc : Token.ofByte c = .symbol c <;>
    simp [spelled, unwritable?, symbols, postfixText, hc]

end Regex

namespace Tree

/-- The postfix text of a tree is that of the regular expression that it means. -/
theorem Means.spell_eq (h : Means t r) (checked : Bool) (written : Bytes) :
    t.spell checked written = r.spelled written := by
  -- Both with and without a check of the links: those of a tree that means something pass it.
  induction h generalizing checked written with
  | bare c | escaped c => exact (Regex.spelled_symbol c written).symm
  | @only rule t r hrule h ih =>
    rw [spell]
    cases rule with
    | char => exact absurd rfl hrule
    | _ => simp [ih]
  | @concat t u r s ht hu iht ihu =>
    have hchain := (Means.concat ht hu).checkChain_eq (.inl rfl)
    refine Eq.trans ?_ (Regex.spelled_two rfl rfl written).symm
    cases checked <;> simp [spell, hchain, iht, ihu, bind, Except.bind] <;> rfl
  | @union t m u r s hm ht hu iht ihu =>
    have hchain := (Means.union hm ht hu).checkChain_eq (.inr rfl)
    refine Eq.trans ?_ (Regex.spelled_two rfl rfl written).symm
    cases checked <;> simp [spell, hchain, iht, ihu, bind, Except.bind] <;> rfl
  | @repeated t m r q hm ht ih =>
    simp [spell, ih, Quantifier.ofLabel?_eq_some_iff.mpr hm, Regex.spelled_repeated]
  | group ha hz ht ih => simp [spell, ih]

end Tree

theorem postfixText_eq_ok_iff (h : t.Means r) :
    t.postfixText = .ok ts ↔ r.Writable ∧ ts = r.postfixText := by
  have hspell := h.spell_eq false []
  rw [Tree.postfixText, hspell, bind_eq_ok_iff]
  simp only [Regex.spelled_eq_ok_iff, List.append_nil]
  constructor
  · rintro ⟨out, ⟨hr, rfl⟩, hts⟩
    refine ⟨hr, ?_⟩
    simpa using (Except.ok.inj hts).symm
  · rintro ⟨hr, rfl⟩
    exact ⟨_, ⟨hr, rfl⟩, by simp; rfl⟩

end RegexLab
