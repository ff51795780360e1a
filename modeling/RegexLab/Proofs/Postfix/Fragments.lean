import RegexLab.Proofs.Pattern
import RegexLab.Proofs.Postfix.Spelling

/-!
# Reading a postfix text on a stack of fragments

The operators of an arena can be read off a postfix text: a symbol makes a fragment, and an operator
puts the latest fragments together. The text of a tree has them in the order in which compiling the
tree applies them. So the text settles the automaton, down to the numbers of its states.

## Main definitions

* `Postfix.push` — what an operator makes, put on a stack of fragments.
* `Postfix.build` — a byte, on a stack of fragments and their arena.
* `Postfix.buildAll` — a whole text.
-/

namespace RegexLab

variable {c : UInt8} {r : Regex} {A : Arena}

namespace Postfix

/-! ## The stack of fragments -/

def push (stack : List Fragment) (A : Arena) (op : Operation) : Option (List Fragment × Arena) := do
  let (f, A) ← (A.apply op).toOption
  return (f :: stack, A)

/-- A byte of a postfix text applied to a stack of fragments, the latest on top, and their arena. -/
def build (stack : List Fragment) (A : Arena) (c : UInt8) : Option (List Fragment × Arena) :=
  if c = '*'.toUInt8 then one (.repeated .star)
  else if c = '+'.toUInt8 then one (.repeated .plus)
  else if c = '?'.toUInt8 then one (.repeated .opt)
  else if c = '.'.toUInt8 then two .concat
  else if c = '|'.toUInt8 then two .union
  else push stack A (.symbol c)
where
  /-- Replace the fragment on top. -/
  one (op : Fragment → Operation) : Option (List Fragment × Arena) :=
    match stack with
    | f :: rest => push rest A (op f)
    | [] => none
  /-- Replace the two fragments on top, of which the upper is the second operand. -/
  two (op : Fragment → Fragment → Operation) : Option (List Fragment × Arena) :=
    match stack with
    | g :: f :: rest => push rest A (op f g)
    | _ => none

def buildAll (stack : List Fragment) (A : Arena) : Bytes → Option (List Fragment × Arena)
  | [] => some (stack, A)
  | c :: rest => (build stack A c).bind fun (stack, A) => buildAll stack A rest

theorem push_of_le (op : Operation) (h : (A.perform op).2.size ≤ Arena.limit)
    (stack : List Fragment) :
    push stack A op = some ((A.perform op).1 :: stack, (A.perform op).2) := by
  rw [push, Arena.apply, Arena.bounded_of_le h]
  rfl

theorem build_of_notMem (h : c ∉ ascii ".|*+?") (stack : List Fragment) (A : Arena) :
    build stack A c = push stack A (.symbol c) := by
  simp_all [build, ascii]

theorem build_byte (q : Quantifier) (f : Fragment) (stack : List Fragment) (A : Arena) :
    build (f :: stack) A q.byte = push stack A (.repeated q f) := by
  cases q <;> rfl

theorem build_dot (f g : Fragment) (stack : List Fragment) (A : Arena) :
    build (g :: f :: stack) A dot = push stack A (.concat f g) :=
  rfl

theorem build_bar (f g : Fragment) (stack : List Fragment) (A : Arena) :
    build (g :: f :: stack) A bar = push stack A (.union f g) :=
  rfl

/-- The text of a regular expression makes its fragment, whatever is on the stack and in the arena
before, and whatever follows the text, as long as there is room for the states. -/
theorem buildAll_postfixText (hr : r.Writable) (stack : List Fragment)
    (hroom : (r.assemble A).2.size ≤ Arena.limit) (rest : Bytes) :
    buildAll stack A (r.postfixText ++ rest) =
      buildAll ((r.assemble A).1 :: stack) (r.assemble A).2 rest := by
  induction r generalizing stack A rest with
  | symbol c =>
    have hc := Token.ofByte_spec c
    rw [hr c (by simp [Regex.symbols])] at hc
    have hpush := push_of_le (.symbol c) hroom stack
    simp [Regex.postfixText, buildAll, build_of_notMem hc.2, hpush]
    rfl
  | concat first second ihfirst ihsecond =>
    obtain ⟨hfirst, hsecond⟩ := List.forall_mem_append.mp hr
    have hboth : ((second.assemble (first.assemble A).2).2).size ≤ Arena.limit :=
      (Arena.size_le_perform _ (.concat _ _)).trans hroom
    have hone : (first.assemble A).2.size ≤ Arena.limit :=
      (second.size_le_assemble _).trans hboth
    rw [Regex.postfixText, List.append_assoc, List.append_assoc, ihfirst hfirst _ hone,
      ihsecond hsecond _ hboth, List.singleton_append, buildAll, build_dot,
      push_of_le (.concat _ _) hroom]
    rfl
  | union first second ihfirst ihsecond =>
    obtain ⟨hfirst, hsecond⟩ := List.forall_mem_append.mp hr
    have hboth : ((second.assemble (first.assemble A).2).2).size ≤ Arena.limit :=
      (Arena.size_le_perform _ (.union _ _)).trans hroom
    have hone : (first.assemble A).2.size ≤ Arena.limit :=
      (second.size_le_assemble _).trans hboth
    rw [Regex.postfixText, List.append_assoc, List.append_assoc, ihfirst hfirst _ hone,
      ihsecond hsecond _ hboth, List.singleton_append, buildAll, build_bar,
      push_of_le (.union _ _) hroom]
    rfl
  | repeated q operand ih =>
    have hone : (operand.assemble A).2.size ≤ Arena.limit :=
      (Arena.size_le_perform _ (.repeated q _)).trans hroom
    rw [Regex.postfixText, List.append_assoc, ih hr _ hone, List.singleton_append, buildAll,
      build_byte, push_of_le (.repeated q _) hroom]
    rfl

end Postfix

/-! ## Trees with a postfix text -/

/-- A tree with a postfix text compiles to what the text says: read from left to right on a stack of
fragments, it leaves one fragment, which is the automaton of the tree. Trees with the same postfix
text have the same automaton. -/
theorem extract_buildAll_postfixText :
    (∀ t b ts, buildTree t = .ok b → t.postfixText = .ok ts →
      ∃ f A, Postfix.buildAll [] {} ts = some ([f], A) ∧ A.extract f = .ok (b.automaton, {})) ∧
    ∀ t u b c ts, buildTree t = .ok b → buildTree u = .ok c → t.postfixText = .ok ts →
      u.postfixText = .ok ts → b.automaton = c.automaton := by
  have hread : ∀ t b ts, buildTree t = .ok b → t.postfixText = .ok ts →
      ∃ f A, Postfix.buildAll [] {} ts = some ([f], A) ∧ A.extract f = .ok (b.automaton, {}) := by
    intro t b ts hb hts
    obtain ⟨r, hr⟩ := means_of_buildTree hb
    obtain ⟨hwritable, rfl⟩ := (postfixText_eq_ok_iff hr).mp hts
    refine ⟨(r.assemble {}).1, (r.assemble {}).2, ?_, hr.extract_assemble hb⟩
    have hroom := r.size_assemble_empty.trans_le (hr.stateCount_le hb)
    simpa [Postfix.buildAll] using Postfix.buildAll_postfixText hwritable [] hroom []
  refine ⟨hread, fun t u b c ts hb hc ht hu => ?_⟩
  obtain ⟨f, A, hf, hfirst⟩ := hread t b ts hb ht
  obtain ⟨g, B, hg, hsecond⟩ := hread u c ts hc hu
  obtain ⟨hfg, rfl⟩ := Prod.mk.inj (Option.some.inj (hf.symm.trans hg))
  obtain rfl := (List.cons.inj hfg).1
  exact (Prod.mk.inj (Except.ok.inj (hfirst.symm.trans hsecond))).1

/-- A group that is not needed, and one less. -/
theorem extract_buildAll_postfixText_groups :
    ∃ t u b c, parse (ascii "\\((a|bc)*") = .ok t ∧ parse (ascii "(\\()((a|(bc))*)") = .ok u ∧
      t ≠ u ∧ buildTree t = .ok b ∧ buildTree u = .ok c ∧
      t.postfixText = .ok (ascii "(abc.|*.") ∧ u.postfixText = .ok (ascii "(abc.|*.") ∧
      (∃ f A, Postfix.buildAll [] {} (ascii "(abc.|*.") = some ([f], A) ∧
        A.extract f = .ok (b.automaton, {})) ∧ b.automaton = c.automaton := by
  obtain ⟨t, ht, hroom⟩ : ∃ t, parse (ascii "\\((a|bc)*") = .ok t ∧
      t.stateCount ≤ Arena.limit := ⟨_, rfl, by decide +kernel⟩
  obtain ⟨u, hu, hroom'⟩ : ∃ u, parse (ascii "(\\()((a|(bc))*)") = .ok u ∧
      u.stateCount ≤ Arena.limit := ⟨_, rfl, by decide +kernel⟩
  obtain ⟨b, hb⟩ := exists_buildTree_of_parse ht hroom
  obtain ⟨c, hc⟩ := exists_buildTree_of_parse hu hroom'
  have hne : t ≠ u := by
    rintro rfl
    have htext := (derives_of_parse ht).2.symm.trans (derives_of_parse hu).2
    exact absurd htext (by decide)
  have htext : t.postfixText = .ok (ascii "(abc.|*.") := by
    obtain rfl := Except.ok.inj ht
    rfl
  have hutext : u.postfixText = .ok (ascii "(abc.|*.") := by
    obtain rfl := Except.ok.inj hu
    rfl
  exact ⟨t, u, b, c, ht, hu, hne, hb, hc, htext, hutext,
    extract_buildAll_postfixText.1 t b _ hb htext,
    extract_buildAll_postfixText.2 t u b c _ hb hc htext hutext⟩

end RegexLab
