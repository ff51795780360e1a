import RegexLab.Proofs.Automaton.OfTree
import RegexLab.Proofs.Grammar.Completeness
import RegexLab.Proofs.Regex.Count
import RegexLab.Proofs.Regex.Literals

/-!
# Compiled patterns match the language of their tree

A tree compiles exactly if it means a regular expression, and then its automaton accepts the words
of the tree. The trees of patterns are derivation trees, which all mean something.
-/

namespace RegexLab

variable {t : Tree} {r : Regex} {b : Build}

/-- A tree that means something compiles if there is room for its states, and what it means is
accepted. -/
theorem Tree.Means.exists_buildTree (h : t.Means r) (hfits : r.stateCount ≤ Arena.limit) :
    ∃ b, buildTree t = .ok b ∧ ∀ w, b.automaton.accepts w = true ↔ w ∈ r.language := by
  obtain ⟨a, hextract, haccepts⟩ := r.extract_assemble
  refine ⟨{ automaton := a, notes := [Build.note t a] }, ?_, haccepts⟩
  exact bind_eq_ok_iff.mpr ⟨_, h.assemble_of_le hfits, bind_eq_ok_iff.mpr ⟨_, hextract, rfl⟩⟩

theorem accepts_buildTree_iff (h : buildTree t = .ok b) (w : Bytes) :
    b.automaton.accepts w = true ↔ w ∈ t.language := by
  obtain ⟨r, hr⟩ := means_of_buildTree h
  obtain ⟨b', hb', haccepts⟩ := hr.exists_buildTree (hr.stateCount_le h)
  obtain rfl := Except.ok.inj (h.symm.trans hb')
  rw [haccepts, hr.language_eq]

/-- The empty pattern compiles, and only the empty word is accepted. -/
theorem exists_ofEmpty :
    ∃ b, Build.ofEmpty = .ok b ∧ ∀ w, b.automaton.accepts w = true ↔ w = [] := by
  have hocc := Arena.occupies_epsilon {}
  have hextract := Arena.extract_of_occupies hocc
  have hroom : Arena.apply {} .epsilon = .ok (Arena.epsilon {}) :=
    Arena.bounded_of_le (by decide)
  refine ⟨_, bind_eq_ok_iff.mpr ⟨_, hroom, bind_eq_ok_iff.mpr ⟨_, hextract, rfl⟩⟩, fun w => ?_⟩
  rw [Arena.accepts_iff_of_extract hocc hextract, Arena.language_epsilon, Language.mem_one]

variable {p : Bytes}

/-- A pattern that has a tree compiles to what the tree compiles to. -/
theorem buildInfix_of_parse (h : parse p = .ok t) : buildInfix p = buildTree t := by
  cases p with
  | nil => cases h
  | cons c p => rw [buildInfix, h]; rfl

/-- The tree of a pattern compiles if there is room for the states of its automaton. -/
theorem exists_buildTree_of_parse (h : parse p = .ok t) (hfits : t.stateCount ≤ Arena.limit) :
    ∃ b, buildTree t = .ok b := by
  obtain ⟨hderives, -⟩ := derives_of_parse h
  obtain ⟨r, hr⟩ := hderives.exists_means
  obtain ⟨b, hb, -⟩ := hr.exists_buildTree (hderives.stateCount_eq hr ▸ hfits)
  exact ⟨b, hb⟩

theorem exists_buildInfix (h : parse p = .ok t) (hfits : t.stateCount ≤ Arena.limit) :
    ∃ b, buildInfix p = .ok b :=
  (exists_buildTree_of_parse h hfits).imp fun _ => (buildInfix_of_parse h).trans

theorem buildInfix_of_lt (h : parse p = .ok t) (hmany : Arena.limit < t.stateCount) :
    buildInfix p = .error .tooManyStates := by
  obtain ⟨hderives, -⟩ := derives_of_parse h
  obtain ⟨r, hr⟩ := hderives.exists_means
  rw [buildInfix_of_parse h]
  exact hr.buildTree_of_lt (hderives.stateCount_eq hr ▸ hmany)

/-- Compiling is correct from end to end: whenever a tree compiles, its automaton accepts the words
of the tree; a pattern that has a tree compiles if there is room for its states, and then to an
automaton that accepts the words of that tree; and the empty pattern matches the empty word only. -/
theorem accepts_iff_mem_language :
    (∀ t b, buildTree t = .ok b → ∀ w, b.automaton.accepts w = true ↔ w ∈ t.language) ∧
    (∀ p t, parse p = .ok t →
      (t.stateCount ≤ Arena.limit → ∃ b, buildInfix p = .ok b) ∧
      ∀ b, buildInfix p = .ok b → ∀ w, b.automaton.accepts w = true ↔ w ∈ t.language) ∧
    ∃ b, buildInfix [] = .ok b ∧ ∀ w, b.automaton.accepts w = true ↔ w = [] := by
  refine ⟨fun t b h w => accepts_buildTree_iff h w, fun p t h => ?_, exists_ofEmpty⟩
  refine ⟨exists_buildInfix h, fun b hb => ?_⟩
  rw [buildInfix_of_parse h] at hb
  exact accepts_buildTree_iff hb

/-- A loop inside a loop inside an option. -/
theorem accepts_iff_mem_language_nested :
    ∃ t b, parse (ascii "((a*|b)+)?") = .ok t ∧ t.stateCount ≤ Arena.limit ∧
      buildTree t = .ok b ∧ buildInfix (ascii "((a*|b)+)?") = .ok b ∧
      ∀ w, b.automaton.accepts w = true ↔ w ∈ t.language := by
  obtain ⟨t, ht, hfits⟩ : ∃ t, parse (ascii "((a*|b)+)?") = .ok t ∧ t.stateCount ≤ Arena.limit :=
    ⟨_, rfl, by decide +kernel⟩
  obtain ⟨hfits', haccepts⟩ := accepts_iff_mem_language.2.1 _ t ht
  obtain ⟨b, hb⟩ := hfits' hfits
  have hbuild : buildTree t = .ok b := (buildInfix_of_parse ht).symm.trans hb
  exact ⟨t, b, ht, hfits, hbuild, hb, accepts_iff_mem_language.1 t b hbuild⟩

/-! ## Patterns with too many states -/

/-- A literal any number of times in a row is a pattern. -/
theorem exists_parse_replicate {c : UInt8} (hc : c ∉ ascii "*+?()|\\") {n : Nat} (hn : 0 < n) :
    ∃ t, parse (List.replicate n c) = .ok t ∧ t.stateCount = 2 * n := by
  have hfactor := Derives.factor (.atom (.bare hc))
  -- One factor after the other, each of which has two states.
  have hterm : ∀ m, ∃ t, Derives .term t ∧ t.text = List.replicate (m + 1) c ∧
      t.stateCount = 2 * (m + 1) := by
    intro m
    induction m with
    | zero => exact ⟨_, .term hfactor, by simp, by simp [Tree.stateCount, Tree.leaf]⟩
    | succ m ih =>
      obtain ⟨t, ht, htext, hcount⟩ := ih
      refine ⟨_, .termMore hfactor ht, by simp [htext, List.replicate_succ], ?_⟩
      simp only [Tree.stateCount] at hcount ⊢
      simp [Tree.leaf, Tree.label]
      omega
  obtain ⟨m, rfl⟩ := Nat.exists_eq_add_one.mpr hn
  obtain ⟨t, ht, htext, hcount⟩ := hterm m
  have hparse := (Derives.expr ht).parse_text
  refine ⟨.node Rule.expr.label [t], ?_, ?_⟩
  · simpa [htext] using hparse
  · simpa [Tree.stateCount] using hcount

end RegexLab
