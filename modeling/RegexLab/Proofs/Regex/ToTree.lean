import RegexLab.Proofs.Regex.OfTree
import RegexLab.Regex.ToTree

/-!
# The tree of a regular expression follows the grammar and means the same

Groups are put where an operand binds more loosely than its place allows, and literals that the
grammar would read otherwise stand behind a backslash, so the tree is a derivation tree. A tree has
no left-nested runs: what it means is the regular expression with its runs nested to the right.

## Main definitions

* `Regex.Regrouped` — a regular expression with some runs nested further to the right.
* `Regex.SamePieces` — regular expressions that cannot be told apart in a tree.
* `Tree.RunMeans` — what a run of trees means, joined from the right.
-/

namespace RegexLab

variable {a a' b b' r s : Regex} {c : UInt8} {t : Tree} {ts us : List Tree}

/-! ## Derivation trees -/

theorem derives_ofByte (c : UInt8) : Derives .atom (Tree.ofByte c) := by
  refine .atom ?_
  split_ifs with h
  · have hc := Mark.ofByte_spec c
    rw [h] at hc
    exact .bare hc
  · exact .escaped c

namespace Regex

/-- All pieces that a regular expression contributes to a tree are derived. -/
structure Derived (r : Regex) : Prop where
  factors_ne : r.factors [] ≠ []
  factors : ∀ f ∈ r.factors [], Derives .factor f
  terms_ne : r.terms [] ≠ []
  terms : ∀ t ∈ r.terms [], Derives .term t
  operand : Derives .atom r.operand

namespace Derived

/-- What is neither a concatenation nor a union is one factor. -/
theorem of_factor {f : Tree} (hf : Derives .factor f) (hfactors : r.factors [] = [f])
    (hterms : r.terms [] = [.term [f]]) (hoperand : Derives .atom r.operand) : r.Derived := by
  refine ⟨by simp [hfactors], by simpa [hfactors] using hf, by simp [hterms], ?_, hoperand⟩
  rw [hterms]
  exact List.forall_mem_singleton.mpr (.term hf)

theorem concat (ha : a.Derived) (hb : b.Derived) : (a.concat b).Derived := by
  have hfactors : (a.concat b).factors [] = a.factors [] ++ b.factors [] := a.factors_eq_append _
  have hne : (a.concat b).factors [] ≠ [] := by simp [hfactors, ha.factors_ne]
  have hall : ∀ f ∈ (a.concat b).factors [], Derives .factor f := by
    rw [hfactors]
    exact List.forall_mem_append.mpr ⟨ha.factors, hb.factors⟩
  have hterm : ∀ t ∈ (a.concat b).terms [], Derives .term t :=
    List.forall_mem_singleton.mpr (.term_run hne hall)
  exact ⟨hne, hall, by simp [Regex.terms], hterm, .group (.expr_run (by simp) hterm)⟩

theorem union (ha : a.Derived) (hb : b.Derived) : (a.union b).Derived := by
  have hterms : (a.union b).terms [] = a.terms [] ++ b.terms [] := a.terms_eq_append _
  have hne : (a.union b).terms [] ≠ [] := by simp [hterms, ha.terms_ne]
  have hall : ∀ t ∈ (a.union b).terms [], Derives .term t := by
    rw [hterms]
    exact List.forall_mem_append.mpr ⟨ha.terms, hb.terms⟩
  have hgroup : Derives .atom (a.union b).operand := .group (.expr_run hne hall)
  exact ⟨by simp [Regex.factors], List.forall_mem_singleton.mpr (.factor hgroup), hne, hall, hgroup⟩

theorem repeated (q : Quantifier) (ha : a.Derived) : (a.repeated q).Derived := by
  have hf : Derives .factor (.quantified a.operand q) := .quantified q ha.operand
  exact .of_factor hf rfl rfl (.group (.expr (.term hf)))

end Derived

theorem derived (r : Regex) : r.Derived := by
  induction r with
  | symbol c => exact .of_factor (.factor (derives_ofByte c)) rfl rfl (derives_ofByte c)
  | concat a b iha ihb => exact iha.concat ihb
  | union a b iha ihb => exact iha.union ihb
  | repeated q a ih => exact ih.repeated q

/-- The tree of a regular expression is a derivation tree. -/
theorem derives_toTree (r : Regex) : Derives .expr r.toTree :=
  .expr_run r.derived.terms_ne r.derived.terms

/-! ## Regrouping -/

/-- The second regular expression is the first with some runs nested further to the right. -/
inductive Regrouped : Regex → Regex → Prop
  | refl (r : Regex) : Regrouped r r
  | trans {r s t : Regex} : Regrouped r s → Regrouped s t → Regrouped r t
  | concat {a a' b b' : Regex} : Regrouped a a' → Regrouped b b' →
      Regrouped (a.concat b) (a'.concat b')
  | union {a a' b b' : Regex} : Regrouped a a' → Regrouped b b' →
      Regrouped (a.union b) (a'.union b')
  | repeated {a a' : Regex} (q : Quantifier) : Regrouped a a' →
      Regrouped (a.repeated q) (a'.repeated q)
  | concat_assoc (a b c : Regex) : Regrouped ((a.concat b).concat c) (a.concat (b.concat c))
  | union_assoc (a b c : Regex) : Regrouped ((a.union b).union c) (a.union (b.union c))

/-- How a run is nested does not matter to the words. -/
theorem Regrouped.language_eq (h : Regrouped r s) : r.language = s.language := by
  induction h with
  | refl r => rfl
  | trans _ _ ih ih' => exact ih.trans ih'
  | concat _ _ iha ihb => rw [language, language, iha, ihb]
  | union _ _ iha ihb => rw [language, language, iha, ihb]
  | repeated q _ ih => rw [language, language, ih]
  | concat_assoc a b c => exact mul_assoc _ _ _
  | union_assoc a b c => exact add_assoc _ _ _

end Regex

/-! ## One tree for all groupings -/

namespace Regex

/-- Two regular expressions contribute the same pieces to every tree that they are a part of. -/
structure SamePieces (r s : Regex) : Prop where
  factors : ∀ rest, r.factors rest = s.factors rest
  terms : ∀ rest, r.terms rest = s.terms rest
  operand : r.operand = s.operand

namespace SamePieces

theorem refl (r : Regex) : r.SamePieces r :=
  ⟨fun _ => rfl, fun _ => rfl, rfl⟩

theorem trans {t : Regex} (h : r.SamePieces s) (h' : s.SamePieces t) : r.SamePieces t where
  factors rest := (h.factors rest).trans (h'.factors rest)
  terms rest := (h.terms rest).trans (h'.terms rest)
  operand := h.operand.trans h'.operand

theorem concat (ha : a.SamePieces a') (hb : b.SamePieces b') :
    (a.concat b).SamePieces (a'.concat b') := by
  have hfactors : ∀ rest, a.factors (b.factors rest) = a'.factors (b'.factors rest) :=
    fun rest => by rw [ha.factors, hb.factors]
  refine ⟨hfactors, fun rest => ?_, ?_⟩
  · rw [Regex.terms, hfactors, Regex.terms]
  · rw [Regex.operand, hfactors, Regex.operand]

theorem union (ha : a.SamePieces a') (hb : b.SamePieces b') :
    (a.union b).SamePieces (a'.union b') := by
  have hterms : ∀ rest, a.terms (b.terms rest) = a'.terms (b'.terms rest) :=
    fun rest => by rw [ha.terms, hb.terms]
  refine ⟨fun rest => ?_, hterms, ?_⟩
  · rw [Regex.factors, hterms, Regex.factors]
  · rw [Regex.operand, hterms, Regex.operand]

theorem repeated (q : Quantifier) (ha : a.SamePieces a') :
    (a.repeated q).SamePieces (a'.repeated q) := by
  refine ⟨fun rest => ?_, fun rest => ?_, ?_⟩
  · rw [Regex.factors, ha.operand, Regex.factors]
  · rw [Regex.terms, ha.operand, Regex.terms]
  · rw [Regex.operand, ha.operand, Regex.operand]

end SamePieces

theorem Regrouped.samePieces (h : Regrouped r s) : r.SamePieces s := by
  induction h with
  | refl r => exact .refl r
  | trans _ _ ih ih' => exact ih.trans ih'
  | concat _ _ iha ihb => exact iha.concat ihb
  | union _ _ iha ihb => exact iha.union ihb
  | repeated q _ ih => exact ih.repeated q
  | concat_assoc a b c => exact ⟨factors_concat_assoc a b c, fun _ => rfl, rfl⟩
  | union_assoc a b c => exact ⟨fun _ => rfl, terms_union_assoc a b c, rfl⟩

/-- A regular expression keeps its tree when its runs are nested another way. -/
theorem Regrouped.toTree_eq (h : Regrouped r s) : r.toTree = s.toTree := by
  rw [toTree, h.samePieces.terms, toTree]

end Regex

/-! ## The meaning of a run -/

namespace Tree

/-- What a run of trees means, given how two of them are joined. -/
inductive RunMeans (join : Regex → Regex → Regex) : List Tree → Regex → Prop
  | last {t : Tree} {r : Regex} : Means t r → RunMeans join [t] r
  | cons {t : Tree} {ts : List Tree} {r s : Regex} : Means t r → RunMeans join ts s →
      RunMeans join (t :: ts) (join r s)

namespace RunMeans

variable {join : Regex → Regex → Regex}

theorem ne_nil (h : RunMeans join ts r) : ts ≠ [] := by
  cases h <;> simp

theorem means_term (h : RunMeans .concat ts r) : (term ts).Means r := by
  induction h with
  | last ht => exact .only (by decide) ht
  | cons ht hts ih =>
    rw [term_cons _ hts.ne_nil]
    exact .concat ht ih

theorem means_expr (h : RunMeans .union ts r) : (expr ts).Means r := by
  induction h with
  | last ht => exact .only (by decide) ht
  | cons ht hts ih =>
    rw [expr_cons _ hts.ne_nil]
    exact .union rfl ht ih

/-- Runs in a row are one run, nested to the right. -/
theorem append (hassoc : ∀ a b c, Regex.Regrouped (join (join a b) c) (join a (join b c)))
    (hcongr : ∀ a b c, Regex.Regrouped b c → Regex.Regrouped (join a b) (join a c))
    (h : RunMeans join ts r) (h' : RunMeans join us s) :
    ∃ x, RunMeans join (ts ++ us) x ∧ Regex.Regrouped (join r s) x := by
  -- Along the first run: its last tree is followed by the second run, which stays as it is.
  induction h with
  | last ht => exact ⟨_, .cons ht h', .refl _⟩
  | cons ht _ ih =>
    obtain ⟨x, hx, hgroup⟩ := ih
    exact ⟨_, .cons ht hx, (hassoc _ _ _).trans (hcongr _ _ _ hgroup)⟩

end RunMeans

theorem means_ofByte (c : UInt8) : (ofByte c).Means (.symbol c) := by
  refine .only (by decide) ?_
  split_ifs
  · exact .bare c
  · exact .escaped c

theorem means_factor (h : t.Means r) : (factor t).Means r :=
  .only (by decide) h

theorem means_group (h : RunMeans .union ts r) : (group (expr ts)).Means r :=
  .group rfl rfl h.means_expr

end Tree

namespace Regex

open RegexLab.Tree (RunMeans)

/-- All pieces that a regular expression contributes to a tree mean that regular expression, but
for the nesting of runs. -/
structure ReadsBack (r : Regex) : Prop where
  factors : ∃ s, RunMeans .concat (r.factors []) s ∧ Regrouped r s
  terms : ∃ s, RunMeans .union (r.terms []) s ∧ Regrouped r s
  operand : ∃ s, r.operand.Means s ∧ Regrouped r s

namespace ReadsBack

theorem of_factor {f : Tree} (hf : f.Means s) (hs : Regrouped r s) (hfactors : r.factors [] = [f])
    (hterms : r.terms [] = [.term [f]]) (hoperand : ∃ s, r.operand.Means s ∧ Regrouped r s) :
    r.ReadsBack where
  factors := ⟨s, hfactors ▸ .last hf, hs⟩
  terms := ⟨s, hterms ▸ .last (RunMeans.last hf).means_term, hs⟩
  operand := hoperand

theorem symbol (c : UInt8) : (symbol c).ReadsBack := by
  have hoperand := Tree.means_ofByte c
  exact .of_factor (Tree.means_factor hoperand) (.refl _) rfl rfl ⟨_, hoperand, .refl _⟩

theorem concat (ha : a.ReadsBack) (hb : b.ReadsBack) : (a.concat b).ReadsBack := by
  obtain ⟨a', ha', hga⟩ := ha.factors
  obtain ⟨b', hb', hgb⟩ := hb.factors
  obtain ⟨x, hx, hgx⟩ := ha'.append .concat_assoc (fun a _ _ h => .concat (.refl a) h) hb'
  have hgroup : Regrouped (a.concat b) x := (Regrouped.concat hga hgb).trans hgx
  have hfactors : RunMeans .concat ((a.concat b).factors []) x := by
    rw [← factors_eq_append] at hx
    exact hx
  have hterms : RunMeans .union ((a.concat b).terms []) x := .last hfactors.means_term
  exact ⟨⟨x, hfactors, hgroup⟩, ⟨x, hterms, hgroup⟩, ⟨x, Tree.means_group hterms, hgroup⟩⟩

theorem union (ha : a.ReadsBack) (hb : b.ReadsBack) : (a.union b).ReadsBack := by
  obtain ⟨a', ha', hga⟩ := ha.terms
  obtain ⟨b', hb', hgb⟩ := hb.terms
  obtain ⟨x, hx, hgx⟩ := ha'.append .union_assoc (fun a _ _ h => .union (.refl a) h) hb'
  have hgroup : Regrouped (a.union b) x := (Regrouped.union hga hgb).trans hgx
  have hterms : RunMeans .union ((a.union b).terms []) x := by
    rw [← terms_eq_append] at hx
    exact hx
  have hfactors : RunMeans .concat ((a.union b).factors []) x :=
    .last (Tree.means_factor (Tree.means_group hterms))
  exact ⟨⟨x, hfactors, hgroup⟩, ⟨x, hterms, hgroup⟩, ⟨x, Tree.means_group hterms, hgroup⟩⟩

theorem repeated (q : Quantifier) (ha : a.ReadsBack) : (a.repeated q).ReadsBack := by
  obtain ⟨a', ha', hga⟩ := ha.operand
  have hf : (Tree.quantified a.operand q).Means (a'.repeated q) := .repeated q rfl ha'
  have hterms : RunMeans .union ((a.repeated q).terms []) (a'.repeated q) :=
    .last (RunMeans.last hf).means_term
  exact .of_factor hf (.repeated q hga) rfl rfl ⟨_, Tree.means_group hterms, .repeated q hga⟩

end ReadsBack

theorem readsBack (r : Regex) : r.ReadsBack := by
  induction r with
  | symbol c => exact .symbol c
  | concat a b iha ihb => exact iha.concat ihb
  | union a b iha ihb => exact iha.union ihb
  | repeated q a ih => exact ih.repeated q

/-- The tree of a regular expression means that regular expression, its runs nested to the
right. -/
theorem exists_means_toTree (r : Regex) : ∃ s, r.toTree.Means s ∧ Regrouped r s := by
  obtain ⟨s, hs, hgroup⟩ := r.readsBack.terms
  exact ⟨s, hs.means_expr, hgroup⟩

end Regex

end RegexLab
