import RegexLab.Proofs.Grammar.Soundness
import RegexLab.Proofs.Postfix.Joining
import RegexLab.Proofs.Regex.Groups

/-!
# The normal form of a postfix text

The postfix text of a tree joins its runs from the right. Reading it gives the tree again, so it is
a normal form of all the postfix texts that spell the tree. The tree is spare, too: if one of its
groups is taken out, the text that is left has another normal form, or is no pattern.

## Main definitions

* `Postfix.normalForm` — the postfix text of the tree that a postfix text spells.
-/

namespace RegexLab

variable {r s : Regex} {t : Tree} {ts : Bytes}

/-- Regrouping a regular expression leaves its symbols in order. -/
theorem Regex.Regrouped.symbols_eq (h : Regrouped r s) : r.symbols = s.symbols := by
  induction h with
  | refl r => rfl
  | trans _ _ ih ih' => exact ih.trans ih'
  | concat _ _ iha ihb | union _ _ iha ihb => simp only [symbols, iha, ihb]
  | repeated q _ ih => exact ih
  | concat_assoc a b c | union_assoc a b c => exact List.append_assoc _ _ _

/-! ## Normal forms -/

def Postfix.normalForm (ts : Bytes) : Except RegexError Bytes := do
  (← Tree.ofPostfix ts).postfixText

/-- The tree of a postfix text is that of the regular expression it means, which has the symbols of
the text. -/
theorem exists_means_of_ofPostfix (h : Tree.ofPostfix ts = .ok t) :
    ∃ s, t.Means s ∧ s.toTree = t ∧ s.symbols = Postfix.symbols ts ∧ s.Writable := by
  obtain ⟨r, hr, rfl⟩ := Tree.ofPostfix_eq_ok_iff.mp h
  -- The tree means what the text spells, with its runs nested to the right.
  obtain ⟨s, hs, hgroup⟩ := r.exists_means_toTree
  have hsymbols : s.symbols = Postfix.symbols ts :=
    hgroup.symbols_eq.symm.trans (Regex.symbols_of_ofPostfix hr)
  refine ⟨s, hs, hgroup.toTree_eq.symm, hsymbols, fun c hc => ?_⟩
  rw [hsymbols] at hc
  exact Postfix.ofByte_of_mem_symbols hc

/-- The tree of a postfix text has the symbols of the text as its literals, and a postfix text of
its own, which spells the same tree. So it is in normal form already. -/
theorem normalForm_of_ofPostfix (h : Tree.ofPostfix ts = .ok t) :
    ∃ us, t.postfixText = .ok us ∧ t.literals = Postfix.symbols ts ∧
      Tree.ofPostfix us = .ok t ∧
      Postfix.normalForm ts = .ok us ∧ Postfix.normalForm us = .ok us := by
  obtain ⟨s, hs, rfl, hsymbols, hwritable⟩ := exists_means_of_ofPostfix h
  have hliterals := s.derives_toTree.symbols_eq_literals hs
  have hwrite : s.toTree.postfixText = .ok s.postfixText :=
    (postfixText_eq_ok_iff hs).mpr ⟨hwritable, rfl⟩
  have hread : Tree.ofPostfix s.postfixText = .ok s.toTree :=
    Tree.ofPostfix_eq_ok_iff.mpr ⟨s, Regex.ofPostfix_postfixText hwritable, rfl⟩
  exact ⟨s.postfixText, hwrite, hliterals.symm.trans hsymbols, hread,
    bind_eq_ok_iff.mpr ⟨_, h, hwrite⟩, bind_eq_ok_iff.mpr ⟨_, hread, hwrite⟩⟩

/-- Runs that are joined from the left, in a loop. -/
theorem normalForm_of_ofPostfix_leftRuns :
    ∃ t, Tree.ofPostfix (ascii "ab.c.(|d|*") = .ok t ∧
      t.postfixText = .ok (ascii "abc..(d||*") ∧ t.literals = ascii "abc(d" ∧
      Tree.ofPostfix (ascii "abc..(d||*") = .ok t ∧
      Postfix.normalForm (ascii "abc..(d||*") = .ok (ascii "abc..(d||*") := by
  obtain ⟨t, ht, hwritten⟩ : ∃ t, Tree.ofPostfix (ascii "ab.c.(|d|*") = .ok t ∧
      t.postfixText = .ok (ascii "abc..(d||*") := ⟨_, rfl, rfl⟩
  obtain ⟨us, hus, hliterals, hread, -, hnormal⟩ := normalForm_of_ofPostfix ht
  obtain rfl := Except.ok.inj (hwritten.symm.trans hus)
  exact ⟨t, ht, hwritten, hliterals, hread, hnormal⟩

/-! ## Needed groups -/

/-- The tree of a postfix text has groups only where the grammar needs them. If the parentheses of
one of its groups are taken out of its text, what is left is no pattern, or is one whose tree has
another postfix text. -/
theorem parse_stripped_of_ofPostfix (h : Tree.ofPostfix ts = .ok t) :
    ∀ g ∈ t.groups, t.text = g.whole ∧
      ((∃ e, parse g.stripped = .error e) ∨
        ∃ u us vs, parse g.stripped = .ok u ∧ t.postfixText = .ok us ∧
          u.postfixText = .ok vs ∧ us ≠ vs) := by
  obtain ⟨s, hs, rfl, -, hwritable⟩ := exists_means_of_ofPostfix h
  have ht := s.derives_toTree
  intro g hg
  refine ⟨(ht.standsIn g hg).whole_eq.symm, ?_⟩
  cases hparse : parse g.stripped with
  | error e => exact .inl ⟨e, rfl⟩
  | ok u =>
    right
    obtain ⟨hu, htext⟩ := derives_of_parse hparse
    obtain ⟨r, hr⟩ := hu.exists_means
    -- The same literals are left, so what is left can be written, too.
    have hsymbols : r.symbols = s.symbols := by
      rw [hu.symbols_eq_literals hr, ht.literals_of_stripped hg hu htext,
        ht.symbols_eq_literals hs]
    have hrwritable : r.Writable := by
      rw [Regex.Writable, hsymbols]
      exact hwritable
    refine ⟨u, s.postfixText, r.postfixText, rfl, (postfixText_eq_ok_iff hs).mpr ⟨hwritable, rfl⟩,
      (postfixText_eq_ok_iff hr).mpr ⟨hrwritable, rfl⟩, fun heq => ?_⟩
    obtain rfl := Regex.eq_of_postfixText_eq hwritable hrwritable heq
    exact hu.not_means_of_stripped hg htext hr

/-- A loop over a loop, and one over a run of alternatives and a symbol. -/
theorem parse_stripped_of_ofPostfix_loops :
    ∃ t, Tree.ofPostfix (ascii "a*+ab|c.*.") = .ok t ∧ t.text = ascii "(a*)+((a|b)c)*" ∧
      t.groups.map Tree.Group.stripped =
        [ascii "a*+((a|b)c)*", ascii "(a*)+(a|b)c*", ascii "(a*)+(a|bc)*"] ∧
      ∀ g ∈ t.groups, t.text = g.whole ∧
        ((∃ e, parse g.stripped = .error e) ∨
          ∃ u us vs, parse g.stripped = .ok u ∧ t.postfixText = .ok us ∧
            u.postfixText = .ok vs ∧ us ≠ vs) := by
  obtain ⟨t, ht, htext, hgroups⟩ : ∃ t, Tree.ofPostfix (ascii "a*+ab|c.*.") = .ok t ∧
      t.text = ascii "(a*)+((a|b)c)*" ∧ t.groups.map Tree.Group.stripped =
        [ascii "a*+((a|b)c)*", ascii "(a*)+(a|b)c*", ascii "(a*)+(a|bc)*"] :=
    ⟨_, rfl, by decide +kernel, by decide +kernel⟩
  exact ⟨t, ht, htext, hgroups, parse_stripped_of_ofPostfix ht⟩

end RegexLab
