import RegexLab.Proofs.Grammar.Soundness

/-!
# What is derived can be read

The text of a derivation tree may be read wherever an operand may start, and leaves the parts of
the tree behind. Nothing has to be known about what follows: an operand without a quantifier is
closed by the next byte, so readings are compared as if that had been done already.

## Main definitions

* `Reading.Takes` — reading a text leads from one reading to another.
* `Reading.Awaits`, `Reading.Ended` — an operand may start, or a factor has ended.
* `Tree.ReadAs` — what reading the text of a tree leaves behind.
-/

namespace RegexLab

variable {level level' : Level} {outer : List Level} {r r' r'' : Reading} {t a : Tree} {c : UInt8}
  {u v w : Bytes}

namespace Reading

/-- Reading the bytes `w` leads from one reading to another, wherever they stand. -/
inductive Takes : Reading → Bytes → Reading → Prop
  | nil (r : Reading) : Takes r [] r
  | cons {r r' r'' : Reading} {c : UInt8} {w : Bytes} :
      (∀ position, r.step c position = .ok r') → Takes r' w r'' → Takes r (c :: w) r''

theorem Takes.byte (h : ∀ position, r.step c position = .ok r') : r.Takes [c] r' :=
  .cons h (.nil r')

theorem Takes.append (h : r.Takes u r') (h' : r'.Takes v r'') : r.Takes (u ++ v) r'' := by
  induction h with
  | nil r => exact h'
  | cons hstep _ ih => exact .cons hstep (ih h')

theorem Takes.run (h : r.Takes u r') (rest : Bytes) (position : Nat) :
    r.run (u ++ rest) position = r'.run rest (position + u.length) := by
  induction h generalizing position with
  | nil r => rfl
  | cons hstep _ ih =>
    simp only [List.cons_append, Reading.run, hstep, ih, List.length_cons]
    congr 1
    omega

/-! ## Between two operands -/

/-- A factor has ended: `level` is what was read inside `outer`. -/
def Ended (r : Reading) (level : Level) (outer : List Level) : Prop :=
  r.closeFactor = ⟨level, outer, .factorRead⟩

/-- An operand may start: `level` is what was read inside `outer`. -/
def Awaits (r : Reading) (level : Level) (outer : List Level) : Prop :=
  r = ⟨level, outer, .operandDue⟩ ∨ r.Ended level outer

theorem Ended.awaits (h : r.Ended level outer) : r.Awaits level outer :=
  .inr h

/-- A byte that is no quantifier closes the operand before it. -/
theorem step_closeFactor (hc : Quantifier.ofByte? c = none) (position : Nat) :
    r.closeFactor.step c position = r.step c position := by
  obtain ⟨level, outer, cursor⟩ := r
  cases cursor with
  | operandDue | escapeDue | factorRead => rfl
  | operandRead atom => simp [closeFactor, step, hc]

theorem Ended.step_eq (h : r.Ended level outer) (hc : Quantifier.ofByte? c = none)
    (position : Nat) : r.step c position = continueTerm ⟨level, outer, .factorRead⟩ c position := by
  rw [← step_closeFactor hc, h]
  rfl

theorem Ended.bar (h : r.Ended level outer) (position : Nat) :
    r.step bar position = .ok ⟨level.nextTerm, outer, .operandDue⟩ :=
  h.step_eq (by decide) position

theorem Ended.close (h : r.Ended level (level' :: outer)) (position : Nat) :
    r.step closing position = .ok ⟨level', outer, .operandRead (.group level.expr)⟩ :=
  h.step_eq (by decide) position

/-- Where an operand may start, a byte that starts one is read as such. -/
theorem Awaits.step_eq (h : r.Awaits level outer)
    (hc : Mark.ofByte c = .opening ∨ Mark.ofByte c = .escape ∨ Mark.ofByte c = .literal)
    (position : Nat) :
    ∃ cursor, r.step c position = startOperand ⟨level, outer, cursor⟩ c position := by
  obtain rfl | h := h
  · exact ⟨.operandDue, rfl⟩
  · have hq : Quantifier.ofByte? c = none :=
      Quantifier.ofByte?_eq_none fun q hm => by simp [hm] at hc
    refine ⟨.factorRead, (h.step_eq hq position).trans ?_⟩
    unfold continueTerm
    split
    next hm => simp [hm] at hc
    next hm _ => simp [hm] at hc
    next => rfl

theorem Awaits.open (h : r.Awaits level outer) (position : Nat) :
    r.step opening position = .ok ⟨{}, level :: outer, .operandDue⟩ := by
  obtain ⟨cursor, hstep⟩ := h.step_eq (c := opening) (by decide) position
  exact hstep

theorem Awaits.escape (h : r.Awaits level outer) (position : Nat) :
    r.step backslash position = .ok ⟨level, outer, .escapeDue⟩ := by
  obtain ⟨cursor, hstep⟩ := h.step_eq (c := backslash) (by decide) position
  exact hstep

theorem Awaits.literal (h : r.Awaits level outer) (hc : Mark.ofByte c = .literal)
    (position : Nat) :
    r.step c position = .ok ⟨level, outer, .operandRead (.atom (.bare c))⟩ := by
  obtain ⟨cursor, hstep⟩ := h.step_eq (.inr (.inr hc)) position
  rw [hstep, startOperand, hc]

/-- The pattern may end where a factor has ended, if no group is open. -/
theorem Ended.conclude (h : r.Ended level []) (position : Nat) :
    r.conclude position = .ok level.expr := by
  unfold Ended at h
  rw [Reading.conclude, h]

end Reading

/-! ## Trees -/

/-- What is left behind when the text of a tree is read where an operand may start. -/
def Tree.ReadAs (t : Tree) : Rule → Prop
  | .char => ∀ (r : Reading) (level : Level) (outer : List Level), r.Awaits level outer →
      r.Takes t.text ⟨level, outer, .operandRead (.atom t)⟩
  | .atom => ∀ (r : Reading) (level : Level) (outer : List Level), r.Awaits level outer →
      r.Takes t.text ⟨level, outer, .operandRead t⟩
  | .factor => ∀ (r : Reading) (level : Level) (outer : List Level), r.Awaits level outer →
      ∃ r', r.Takes t.text r' ∧ r'.Ended (level.addFactor t) outer
  | .term => ∃ fs ≠ [], t = .term fs ∧
      ∀ (r : Reading) (level : Level) (outer : List Level), r.Awaits level outer →
      ∃ r', r.Takes t.text r' ∧
        r'.Ended { level with factors := fs.reverse ++ level.factors } outer
  | .expr => ∃ ts ≠ [], t = .expr ts ∧
      ∀ (r : Reading) (terms : List Tree) (outer : List Level), r.Awaits { terms } outer →
      ∃ (r' : Reading) (level : Level), r.Takes t.text r' ∧ r'.Ended level outer ∧
        level.expr = .expr (terms.reverse ++ ts)

namespace Tree.ReadAs

variable {f e : Tree}

theorem bare (hc : c ∉ ascii "*+?()|\\") : (Tree.bare c).ReadAs .char := by
  intro r level outer h
  have htext : (Tree.bare c).text = [c] := by simp [Tree.bare]
  rw [htext]
  exact .byte (h.literal (Mark.ofByte_eq_literal hc))

theorem escaped (c : UInt8) : (Tree.escaped c).ReadAs .char := by
  intro r level outer h
  have htext : (Tree.escaped c).text = [backslash, c] := by simp [Tree.escaped]
  rw [htext]
  exact .cons h.escape (.byte fun _ => rfl)

theorem atom (ht : t.ReadAs .char) : (Tree.atom t).ReadAs .atom := by
  intro r level outer h
  have htext : (Tree.atom t).text = t.text := by simp [Tree.atom]
  rw [htext]
  exact ht r level outer h

theorem group (he : e.ReadAs .expr) : (Tree.group e).ReadAs .atom := by
  obtain ⟨ts, -, rfl, he⟩ := he
  intro r level outer h
  have htext : (Tree.group (.expr ts)).text = [opening] ++ ((Tree.expr ts).text ++ [closing]) := by
    simp [Tree.group]
  obtain ⟨r', inner, htakes, hended, hexpr⟩ := he _ [] (level :: outer) (.inl rfl)
  rw [htext]
  refine (Reading.Takes.byte h.open).append (htakes.append (.byte fun position => ?_))
  rw [hended.close, hexpr]
  rfl

theorem factor (ha : a.ReadAs .atom) : (Tree.factor a).ReadAs .factor := by
  intro r level outer h
  have htext : (Tree.factor a).text = a.text := by simp [Tree.factor]
  rw [htext]
  exact ⟨_, ha r level outer h, rfl⟩

theorem quantified (q : Quantifier) (ha : a.ReadAs .atom) :
    (Tree.quantified a q).ReadAs .factor := by
  intro r level outer h
  have htext : (Tree.quantified a q).text = a.text ++ [q.byte] := by simp [Tree.quantified]
  rw [htext]
  have hstep : ∀ position, Reading.step ⟨level, outer, .operandRead a⟩ q.byte position =
      .ok ⟨level.addFactor (.quantified a q), outer, .factorRead⟩ := by
    simp [Reading.step]
  exact ⟨_, (ha r level outer h).append (.byte hstep), rfl⟩

theorem term (hf : f.ReadAs .factor) : (Tree.term [f]).ReadAs .term := by
  refine ⟨[f], by simp, rfl, fun r level outer h => ?_⟩
  have htext : (Tree.term [f]).text = f.text := by simp [Tree.term]
  rw [htext]
  exact hf r level outer h

theorem termMore (hf : f.ReadAs .factor) (ht : t.ReadAs .term) :
    (Tree.node Rule.term.label [f, t]).ReadAs .term := by
  obtain ⟨fs, hfs, rfl, ht⟩ := ht
  refine ⟨f :: fs, by simp, (Tree.term_cons f hfs).symm, fun r level outer h => ?_⟩
  have htext : (Tree.node Rule.term.label [f, .term fs]).text = f.text ++ (Tree.term fs).text := by
    simp
  obtain ⟨r', htakes, hended⟩ := hf r level outer h
  obtain ⟨r'', htakes', hended'⟩ := ht r' _ outer hended.awaits
  rw [htext]
  refine ⟨r'', htakes.append htakes', ?_⟩
  simpa [Level.addFactor] using hended'

theorem expr (ht : t.ReadAs .term) : (Tree.expr [t]).ReadAs .expr := by
  obtain ⟨fs, hfs, rfl, ht⟩ := ht
  refine ⟨[.term fs], by simp, rfl, fun r terms outer h => ?_⟩
  have htext : (Tree.expr [.term fs]).text = (Tree.term fs).text := by simp [Tree.expr]
  obtain ⟨r', htakes, hended⟩ := ht r _ outer h
  rw [htext]
  exact ⟨r', _, htakes, hended, by simp [Level.expr, Level.term]⟩

theorem exprMore (ht : t.ReadAs .term) (he : e.ReadAs .expr) :
    (Tree.node Rule.expr.label [t, .leaf bar, e]).ReadAs .expr := by
  obtain ⟨fs, hfs, rfl, ht⟩ := ht
  obtain ⟨ts, hts, rfl, he⟩ := he
  refine ⟨.term fs :: ts, by simp, (Tree.expr_cons _ hts).symm, fun r terms outer h => ?_⟩
  have htext : (Tree.node Rule.expr.label [.term fs, .leaf bar, .expr ts]).text =
      (Tree.term fs).text ++ ([bar] ++ (Tree.expr ts).text) := by simp
  obtain ⟨r', htakes, hended⟩ := ht r _ outer h
  obtain ⟨r'', level, htakes', hended', hexpr⟩ := he _ (.term fs :: terms) outer (.inl rfl)
  rw [htext]
  refine ⟨r'', level, htakes.append (.append (.byte fun position => ?_) htakes'), hended', ?_⟩
  · simp [hended.bar, Level.nextTerm, Level.term]
  · simp [hexpr]

end Tree.ReadAs

/-- Reading the text of a derivation tree leaves the parts of the tree behind. -/
theorem Derives.readAs {rule : Rule} (h : Derives rule t) : t.ReadAs rule := by
  induction h with
  | expr _ ih => exact ih.expr
  | exprMore _ _ iht ihe => exact iht.exprMore ihe
  | term _ ih => exact ih.term
  | termMore _ _ ihf iht => exact ihf.termMore iht
  | factor _ ih => exact ih.factor
  | quantified q _ ih => exact ih.quantified q
  | atom _ ih => exact ih.atom
  | group _ ih => exact ih.group
  | bare hc => exact .bare hc
  | escaped c => exact .escaped c

/-- The text of a derivation tree is a pattern with that tree. -/
theorem Derives.parse_text (h : Derives .expr t) : parse t.text = .ok t := by
  obtain ⟨ts, -, rfl, hread⟩ := h.readAs
  obtain ⟨r', level, htakes, hended, hexpr⟩ := hread {} [] [] (.inl rfl)
  have hrun := htakes.run [] 0
  rw [List.append_nil, Reading.run, hended.conclude] at hrun
  simp [parse, Parser.parse, hrun, hexpr]

/-- The patterns are the texts of the derivation trees, each of one tree only, which is what they
are read as. -/
theorem parse_eq_ok_iff_derives :
    (∀ p t, parse p = .ok t ↔ Derives .expr t ∧ t.text = p) ∧
    (∀ p t, parse p = .ok t → t.text = p) ∧
    (∀ t, Derives .expr t → parse t.text = .ok t) ∧
    ∀ t u, Derives .expr t → Derives .expr u → t.text = u.text → t = u := by
  refine ⟨fun p t => ⟨derives_of_parse, ?_⟩, fun p t h => (derives_of_parse h).2,
    fun t h => h.parse_text, fun t u ht hu h => ?_⟩
  · rintro ⟨h, rfl⟩
    exact h.parse_text
  · have hparse : parse u.text = .ok t := h ▸ ht.parse_text
    exact Except.ok.inj (hparse.symm.trans hu.parse_text)

def starOrGroup : Tree :=
  .expr [.term [.factor (.atom (.escaped 0x2a))],
    .term [.quantified (.group (.expr [.term [.factor (.atom (.bare 0x61))]])) .opt]]

theorem parse_eq_ok_iff_derives_starOrGroup :
    parse (ascii "\\*|(a)?") = .ok starOrGroup ∧ Derives .expr starOrGroup ∧
      starOrGroup.text = ascii "\\*|(a)?" ∧ parse starOrGroup.text = .ok starOrGroup ∧
      ∀ t, Derives .expr t → t.text = starOrGroup.text → t = starOrGroup := by
  have hparse : parse (ascii "\\*|(a)?") = .ok starOrGroup := rfl
  obtain ⟨hiff, htext, hread, hunique⟩ := parse_eq_ok_iff_derives
  have hderives := ((hiff _ _).mp hparse).1
  exact ⟨hparse, hderives, htext _ _ hparse, hread _ hderives,
    fun t ht h => hunique t _ ht hderives h⟩

end RegexLab
