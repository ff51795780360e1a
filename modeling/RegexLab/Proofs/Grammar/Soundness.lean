import RegexLab.Grammar.Parser
import RegexLab.Proofs.Grammar.Derivation

/-!
# What has been read is derived

Between two bytes a reading has a text: that of its finished parts, with the bars and the opening
parentheses between them. Each byte that is accepted is put behind that text, and every finished
part is a derivation tree.

## Main definitions

* `Level.text`, `Reading.text` — the bytes that have been read.
* `Reading.Derived` — the invariant: the parts are derivation trees.
-/

namespace RegexLab

variable {level : Level} {r r' : Reading} {t : Tree} {c : UInt8} {position n : Nat} {w : Bytes}

/-! ## The text of a reading -/

namespace Level

/-- The bytes of an expression that have been read, but for an operand that is not finished. -/
def text (level : Level) : Bytes :=
  level.terms.reverse.flatMap (fun t => t.text ++ [bar]) ++ level.factors.reverse.flatMap Tree.text

@[simp] theorem text_empty : text {} = [] := rfl

@[simp] theorem text_addFactor (level : Level) (f : Tree) :
    (level.addFactor f).text = level.text ++ f.text := by
  simp [text, addFactor]

@[simp] theorem text_nextTerm (h : level.factors ≠ []) :
    level.nextTerm.text = level.text ++ [bar] := by
  simp [text, nextTerm, term, Tree.text_term, h]

@[simp] theorem text_expr (h : level.factors ≠ []) : level.expr.text = level.text := by
  simp [text, expr, term, Tree.text_expr, Tree.text_term, h]

structure Derived (level : Level) : Prop where
  terms : ∀ t ∈ level.terms, Derives .term t
  factors : ∀ f ∈ level.factors, Derives .factor f

namespace Derived

theorem empty : Derived {} where
  terms := by simp
  factors := by simp

theorem addFactor (h : level.Derived) (hf : Derives .factor t) : (level.addFactor t).Derived where
  terms := h.terms
  factors := by
    intro f hmem
    obtain rfl | hmem := List.mem_cons.mp hmem
    · exact hf
    · exact h.factors f hmem

theorem term (h : level.Derived) (hne : level.factors ≠ []) : Derives .term level.term :=
  .term_run (by simpa using hne) (by simpa using h.factors)

theorem nextTerm (h : level.Derived) (hne : level.factors ≠ []) : level.nextTerm.Derived where
  terms := by
    intro t hmem
    obtain rfl | hmem := List.mem_cons.mp hmem
    · exact h.term hne
    · exact h.terms t hmem
  factors := by simp [Level.nextTerm]

theorem expr (h : level.Derived) (hne : level.factors ≠ []) : Derives .expr level.expr := by
  refine .expr_run (by simp) fun t hmem => ?_
  obtain rfl | hmem := List.mem_cons.mp (List.mem_reverse.mp hmem)
  · exact h.term hne
  · exact h.terms t hmem

end Derived

end Level

namespace Cursor

def text : Cursor → Bytes
  | operandDue | factorRead => []
  | escapeDue => [backslash]
  | operandRead atom => atom.text

@[simp] theorem text_operandDue : operandDue.text = [] := rfl

@[simp] theorem text_factorRead : factorRead.text = [] := rfl

@[simp] theorem text_escapeDue : escapeDue.text = [backslash] := rfl

@[simp] theorem text_operandRead (atom : Tree) : (operandRead atom).text = atom.text := rfl

/-- The operand that was read is derived, and a factor that was read is there. -/
def Derived (level : Level) : Cursor → Prop
  | operandDue | escapeDue => True
  | operandRead atom => Derives .atom atom
  | factorRead => level.factors ≠ []

end Cursor

namespace Reading

def text (r : Reading) : Bytes :=
  r.outer.reverse.flatMap (fun level => level.text ++ [opening]) ++ r.level.text ++ r.cursor.text

structure Derived (r : Reading) : Prop where
  level : r.level.Derived
  outer : ∀ level ∈ r.outer, level.Derived
  cursor : r.cursor.Derived r.level

namespace Derived

theorem init : Derived {} where
  level := .empty
  outer := by simp
  cursor := trivial

/-! ## One byte -/

theorem startOperand (h : r.Derived) (hcursor : r.cursor.text = [])
    (hstep : r.startOperand c position = .ok r') : r'.Derived ∧ r'.text = r.text ++ [c] := by
  have hc := Mark.ofByte_spec c
  unfold Reading.startOperand at hstep
  cases hm : Mark.ofByte c with
  | quantifier q | bar | closing => simp [hm] at hstep
  | opening =>
    rw [hm] at hc hstep
    obtain rfl := Except.ok.inj hstep
    refine ⟨⟨.empty, ?_, trivial⟩, by simp [text, hcursor, hc]⟩
    intro level hlevel
    obtain rfl | hlevel := List.mem_cons.mp hlevel
    · exact h.level
    · exact h.outer level hlevel
  | escape =>
    rw [hm] at hc hstep
    obtain rfl := Except.ok.inj hstep
    exact ⟨⟨h.level, h.outer, trivial⟩, by simp [text, hcursor, hc]⟩
  | literal =>
    rw [hm] at hc hstep
    obtain rfl := Except.ok.inj hstep
    exact ⟨⟨h.level, h.outer, .atom (.bare hc)⟩,
      by simp [text, hcursor, Tree.atom, Tree.bare]⟩

theorem continueTerm (h : r.Derived) (hcursor : r.cursor = .factorRead)
    (hstep : r.continueTerm c position = .ok r') : r'.Derived ∧ r'.text = r.text ++ [c] := by
  have hc := Mark.ofByte_spec c
  have hne : r.level.factors ≠ [] := by simpa [hcursor, Cursor.Derived] using h.cursor
  obtain ⟨level, outer, cursor⟩ := r
  obtain rfl : cursor = .factorRead := hcursor
  unfold Reading.continueTerm at hstep
  split at hstep
  next hm =>
    rw [hm] at hc
    obtain rfl := Except.ok.inj hstep
    exact ⟨⟨h.level.nextTerm hne, h.outer, trivial⟩, by
      simp [text, Level.text_nextTerm hne, hc]⟩
  next level' outer' hm houter =>
    rw [hm] at hc
    obtain rfl : outer = level' :: outer' := houter
    obtain rfl := Except.ok.inj hstep
    refine ⟨⟨h.outer _ (by simp), fun l hl => h.outer l (by simp [hl]),
      .group (h.level.expr hne)⟩, ?_⟩
    simp [text, Tree.group, Level.text_expr hne, hc]
  next => exact h.startOperand rfl hstep

theorem closeFactor (h : r.Derived) : r.closeFactor.Derived ∧ r.closeFactor.text = r.text := by
  obtain ⟨level, outer, cursor⟩ := r
  cases cursor with
  | operandDue | escapeDue | factorRead => exact ⟨h, rfl⟩
  | operandRead a =>
    have ha : Derives .atom a := h.cursor
    have hne : (level.addFactor (.factor a)).factors ≠ [] := List.cons_ne_nil _ _
    exact ⟨⟨h.level.addFactor (.factor ha), h.outer, hne⟩,
      by simp [Reading.closeFactor, text, Tree.factor]⟩

/-- A byte that is accepted is put behind the text, and all parts stay derived. -/
theorem step (h : r.Derived) (hstep : r.step c position = .ok r') :
    r'.Derived ∧ r'.text = r.text ++ [c] := by
  unfold Reading.step at hstep
  split at hstep
  next hcursor => exact h.startOperand (by rw [hcursor, Cursor.text_operandDue]) hstep
  next hcursor =>
    obtain rfl := Except.ok.inj hstep
    exact ⟨⟨h.level, h.outer, .atom (.escaped c)⟩,
      by simp [text, hcursor, Tree.atom, Tree.escaped]⟩
  next hcursor => exact h.continueTerm hcursor hstep
  next a hcursor =>
    have ha : Derives .atom a := by simpa [hcursor, Cursor.Derived] using h.cursor
    split at hstep
    next q hq =>
      obtain rfl := Quantifier.ofByte?_eq_some_iff.mp hq
      obtain rfl := Except.ok.inj hstep
      have hne : (r.level.addFactor (.quantified a q)).factors ≠ [] := List.cons_ne_nil _ _
      exact ⟨⟨h.level.addFactor (.quantified q ha), h.outer, hne⟩,
        by simp [text, hcursor, Tree.quantified]⟩
    next =>
      have hclose : r.closeFactor.cursor = .factorRead := by simp [Reading.closeFactor, hcursor]
      obtain ⟨hderived, htext⟩ := h.closeFactor.1.continueTerm hclose hstep
      exact ⟨hderived, htext.trans (by rw [h.closeFactor.2])⟩

/-! ## The whole pattern -/

theorem conclude (h : r.Derived) (hend : r.conclude position = .ok t) :
    Derives .expr t ∧ t.text = r.text := by
  obtain ⟨hclose, htext⟩ := h.closeFactor
  unfold Reading.conclude at hend
  split at hend
  next level hr =>
    obtain rfl := Except.ok.inj hend
    rw [hr] at hclose htext
    have hne : level.factors ≠ [] := hclose.cursor
    exact ⟨hclose.level.expr hne, by simpa [text, hne] using htext⟩
  next => cases hend

theorem run (h : r.Derived) (hrun : r.run w position = (.ok t, n)) :
    Derives .expr t ∧ t.text = r.text ++ w := by
  induction w generalizing r position with
  | nil =>
    obtain ⟨hderives, htext⟩ := h.conclude (congrArg Prod.fst hrun)
    exact ⟨hderives, by simpa using htext⟩
  | cons c w ih =>
    unfold Reading.run at hrun
    split at hrun
    next r' hstep =>
      obtain ⟨hderived, htext⟩ := h.step hstep
      obtain ⟨hderives, ht⟩ := ih hderived hrun
      exact ⟨hderives, by rw [ht, htext, List.append_assoc, List.singleton_append]⟩
    next => cases congrArg Prod.fst hrun

end Derived

end Reading

/-- The tree of a pattern is derived from the grammar and spells the pattern. -/
theorem derives_of_parse {p : Bytes} (h : parse p = .ok t) : Derives .expr t ∧ t.text = p :=
  Reading.Derived.init.run (n := (Reading.run {} p 0).2) (Prod.ext h rfl)

end RegexLab
