import RegexLab.Proofs.Postfix.Compile
import RegexLab.Proofs.Regex.Trim

/-!
# The automaton of a pattern, counted

The tree of a pattern tells how many states and edges its automaton has, if there is room for them.
As no state is made in vain, every one of the states counted lies on a way from the entry to the
exit.
-/

namespace RegexLab

variable {t : Tree} {p : Bytes}

/-- The states of the automaton of a tree all lie on a way from its entry to its exit. -/
theorem Tree.Means.leads_of_buildTree {r : Regex} {b : Build} (h : t.Means r)
    (hb : buildTree t = .ok b) : ∀ i < b.automaton.size,
      Leads b.automaton.states b.automaton.entry i ∧
        Leads b.automaton.states i b.automaton.exit := by
  obtain ⟨-, hautomaton, -⟩ := Arena.extract_eq_ok_iff.mp (h.extract_assemble hb)
  have htrim := r.trim_assemble {}
  rw [hautomaton]
  intro i hi
  have hmem : i ∈ Set.Ico (Arena.size {}) (r.assemble {}).2.size := ⟨Nat.zero_le i, hi⟩
  exact ⟨htrim.reached i hmem, htrim.left i hmem⟩

open RegexLab.Tree in
/-- A pattern that has a tree compiles, if there is room for the states, to an automaton without
useless ones: each state can be reached from the entry, and the exit can be reached from it. The
nodes of the tree tell how many states and edges there are. -/
theorem trim_and_size_buildInfix (h : parse p = .ok t) :
    (t.stateCount ≤ Arena.limit → ∃ b, buildInfix p = .ok b ∧
      (∀ i < b.automaton.size, Leads b.automaton.states b.automaton.entry i ∧
        Leads b.automaton.states i b.automaton.exit) ∧
      b.automaton.size = 2 * (t.count isLiteral + t.count isBarLink +
        t.count (isRepetition .star) + t.count (isRepetition .plus) +
        t.count (isRepetition .opt)) ∧
      b.automaton.edgeCount = t.count isLiteral + t.count isFactorLink + 4 * t.count isBarLink +
        4 * t.count (isRepetition .star) + 3 * t.count (isRepetition .plus) +
        3 * t.count (isRepetition .opt)) ∧
    (Arena.limit < t.stateCount → buildInfix p = .error .tooManyStates) := by
  refine ⟨fun hroom => ?_, buildInfix_of_lt h⟩
  obtain ⟨r, hr, hstates, hedges⟩ := (derives_of_parse h).1.exists_means_counted
  obtain ⟨b, hb, -⟩ := hr.exists_buildTree (hstates ▸ hroom)
  have hfits := hr.fits_of_buildTree hb
  exact ⟨b, (buildInfix_of_parse h).trans hb, hr.leads_of_buildTree hb,
    hfits.size_eq.trans hstates, hfits.edgeCount_eq.trans hedges⟩

open RegexLab.Tree in
/-- One link between alternatives, two between factors, and each of the quantifiers once. -/
theorem trim_and_size_buildInfix_eachOperator :
    ∃ t b, parse (ascii "(ab|c*)+d?") = .ok t ∧ t.stateCount ≤ Arena.limit ∧
      buildInfix (ascii "(ab|c*)+d?") = .ok b ∧
      (∀ i < b.automaton.size, Leads b.automaton.states b.automaton.entry i ∧
        Leads b.automaton.states i b.automaton.exit) ∧
      b.automaton.size = 16 ∧ b.automaton.edgeCount = 20 := by
  obtain ⟨t, ht, hroom, hsymbols, hlinks, hquantifiers⟩ :
      ∃ t, parse (ascii "(ab|c*)+d?") = .ok t ∧ t.stateCount ≤ Arena.limit ∧
        t.count isLiteral = 4 ∧ (t.count isBarLink = 1 ∧ t.count isFactorLink = 2) ∧
        ∀ q ∈ [Quantifier.star, .plus, .opt], t.count (isRepetition q) = 1 :=
    ⟨_, rfl, by decide +kernel⟩
  obtain ⟨b, hb, hleads, hsize, hedges⟩ := (trim_and_size_buildInfix ht).1 hroom
  refine ⟨t, b, ht, hroom, hb, hleads, ?_, ?_⟩
  · simp [hsize, hsymbols, hlinks, hquantifiers]
  · simp [hedges, hsymbols, hlinks, hquantifiers]

/-- A pattern of so many literals that there is no room for all the states. -/
theorem trim_and_size_buildInfix_tooManyLiterals :
    ∃ t, parse (List.replicate (2 ^ 31) 0x61) = .ok t ∧
      buildInfix (List.replicate (2 ^ 31) 0x61) = .error .tooManyStates := by
  obtain ⟨t, ht, hcount⟩ := exists_parse_replicate (c := 0x61) (by decide +kernel)
    (show 0 < 2 ^ 31 by decide)
  refine ⟨t, ht, buildInfix_of_lt ht ?_⟩
  rw [hcount]
  decide

end RegexLab
