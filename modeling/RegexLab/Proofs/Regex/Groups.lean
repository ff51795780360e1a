import RegexLab.Proofs.Regex.Literals
import RegexLab.Proofs.Regex.ToTree

/-!
# The groups of a tree

Each group puts one pair of parentheses into the text of a tree, and no literal. How many groups a
regular expression needs depends on the place where it is written: one more if it binds more loosely
than the place allows. No derivation tree with that meaning has fewer, and the tree of a regular
expression has no more.

## Main definitions

* `Tree.Group` — a group, with the text before it and the text behind it.
* `Tree.groups` — the groups of a tree.
* `Regex.groupCount` — the number of groups that a regular expression needs.
-/

namespace RegexLab

variable {a b r : Regex} {t u : Tree} {ts : List Tree} {rule rule' : Rule} {before : Bytes}

namespace Tree

/-- A group in a tree: what stands between its parentheses, and the text before and behind them. -/
structure Group where
  before : Bytes
  inner : Tree
  after : Bytes

namespace Group

def whole (g : Group) : Bytes :=
  g.before ++ [opening] ++ g.inner.text ++ [closing] ++ g.after

def stripped (g : Group) : Bytes :=
  g.before ++ g.inner.text ++ g.after

/-- Taking the parentheses out takes one away that opens. -/
theorem count_whole (g : Group) : g.whole.count opening = g.stripped.count opening + 1 := by
  have hclosing : closing ≠ opening := by decide
  simp [whole, stripped, hclosing]
  omega

def within (before after : Bytes) (g : Group) : Group :=
  { g with before := before ++ g.before, after := g.after ++ after }

@[simp] theorem whole_within (before after : Bytes) (g : Group) :
    (g.within before after).whole = before ++ g.whole ++ after := by
  simp [whole, within]

@[simp] theorem stripped_within (before after : Bytes) (g : Group) :
    (g.within before after).stripped = before ++ g.stripped ++ after := by
  simp [stripped, within]

end Group

/-- The group that a node is, if it is one: an atom with three children. -/
def ownGroup : Tree → List Group
  | node label [_, inner, _] => if label = Rule.atom.label then [⟨[], inner, []⟩] else []
  | _ => []

mutual

def groups : Tree → List Group
  | node label children => (node label children).ownGroup ++ groupsAll children

def groupsAll : List Tree → List Group
  | [] => []
  | t :: ts => t.groups.map (.within [] (ts.flatMap text)) ++ (groupsAll ts).map (.within t.text [])

end

@[simp] theorem groups_leaf (c : UInt8) : (leaf c).groups = [] := rfl

@[simp] theorem groups_node (hrule : rule ≠ .atom) (children : List Tree) :
    (node rule.label children).groups = groupsAll children := by
  have hlabel : rule.label ≠ Rule.atom.label := hrule ∘ Rule.label_injective
  match children with
  | [] | [_] | [_, _] | _ :: _ :: _ :: _ :: _ => rfl
  | [first, inner, last] => rw [groups, ownGroup, if_neg hlabel, List.nil_append]

@[simp] theorem groups_atom (c : Tree) : (node Rule.atom.label [c]).groups = groupsAll [c] := rfl

@[simp] theorem groups_group (first inner last : Tree) :
    (node Rule.atom.label [first, inner, last]).groups =
      ⟨[], inner, []⟩ :: groupsAll [first, inner, last] := rfl

@[simp] theorem groupsAll_nil : groupsAll [] = [] := rfl

@[simp] theorem length_groupsAll_cons (t : Tree) (ts : List Tree) :
    (groupsAll (t :: ts)).length = t.groups.length + (groupsAll ts).length := by
  simp [groupsAll]

@[simp] theorem length_groupsAll_append (ts us : List Tree) :
    (groupsAll (ts ++ us)).length = (groupsAll ts).length + (groupsAll us).length := by
  induction ts with
  | nil => simp
  | cons t ts ih => simp [ih, Nat.add_assoc]

end Tree

/-! ## The text around a group -/

/-- No escape is left open at the end of the text, so that what follows is read for itself. -/
def Closed (u : Bytes) : Prop :=
  ∃ ls, ∀ rest, literals (u ++ rest) = ls ++ literals rest

theorem closed_nil : Closed [] :=
  ⟨[], fun _ => rfl⟩

theorem closed_mark {c : UInt8} (hc : c ∈ ascii "*+?()|") : Closed [c] :=
  ⟨[], literals_mark hc⟩

theorem Derives.closed (h : Derives rule t) : Closed t.text :=
  ⟨t.literals, h.literals_text⟩

namespace Tree

/-- The group stands in the text, and its parentheses hide no literal. -/
structure Group.StandsIn (g : Group) (w : Bytes) : Prop where
  whole_eq : g.whole = w
  literals_stripped : ∀ rest,
    RegexLab.literals (g.stripped ++ rest) = RegexLab.literals (w ++ rest)

theorem Group.StandsIn.within {g : Group} {w : Bytes} (h : g.StandsIn w) (hbefore : Closed before)
    (after : Bytes) : (g.within before after).StandsIn (before ++ w ++ after) := by
  obtain ⟨ls, hls⟩ := hbefore
  refine ⟨by rw [whole_within, h.whole_eq], fun rest => ?_⟩
  simp only [stripped_within, List.append_assoc, hls, h.literals_stripped]

/-- Groups stand in the text of trees in a row as they do in that of their own tree. -/
theorem standsIn_of_mem_groupsAll
    (h : ∀ t ∈ ts, Closed t.text ∧ ∀ g ∈ t.groups, g.StandsIn t.text) :
    ∀ g ∈ groupsAll ts, g.StandsIn (ts.flatMap text) := by
  induction ts with
  | nil => simp
  | cons t ts ih =>
    obtain ⟨⟨hclosed, hgroups⟩, hrest⟩ := List.forall_mem_cons.mp h
    rw [groupsAll]
    refine List.forall_mem_append.mpr ⟨List.forall_mem_map.mpr fun g hg => ?_,
      List.forall_mem_map.mpr fun g hg => ?_⟩
    · simpa using (hgroups g hg).within closed_nil (ts.flatMap text)
    · simpa using (ih hrest g hg).within hclosed []

end Tree

/-- Every group of a derivation tree stands in its text. -/
theorem Derives.standsIn (h : Derives rule t) : ∀ g ∈ t.groups, g.StandsIn t.text := by
  induction h with
  | expr ht ih | term ht ih | factor ht ih =>
    rw [Tree.groups_node (by decide), Tree.text_node_cons]
    exact Tree.standsIn_of_mem_groupsAll (by simpa using ⟨ht.closed, ih⟩)
  | atom ht ih =>
    rw [Tree.groups_atom, Tree.text_node_cons]
    exact Tree.standsIn_of_mem_groupsAll (by simpa using ⟨ht.closed, ih⟩)
  | exprMore ht he iht ihe =>
    have hbar := closed_mark (c := bar) (by decide)
    rw [Tree.groups_node (by decide), Tree.text_node_cons]
    exact Tree.standsIn_of_mem_groupsAll
      (by simpa using ⟨⟨ht.closed, iht⟩, hbar, he.closed, ihe⟩)
  | termMore hf ht ihf iht =>
    rw [Tree.groups_node (by decide), Tree.text_node_cons]
    exact Tree.standsIn_of_mem_groupsAll (by simpa using ⟨⟨hf.closed, ihf⟩, ht.closed, iht⟩)
  | quantified q ha ih =>
    have hmark := closed_mark (c := q.byte) (by cases q <;> decide)
    rw [Tree.groups_node (by decide), Tree.text_node_cons]
    exact Tree.standsIn_of_mem_groupsAll (by simpa using ⟨⟨ha.closed, ih⟩, hmark⟩)
  | group he ih =>
    have hopening := literals_mark (c := opening) (by decide)
    have hclosing := literals_mark (c := closing) (by decide)
    rw [Tree.groups_group, Tree.text_node_cons]
    refine List.forall_mem_cons.mpr ⟨⟨by simp [Tree.Group.whole], fun rest => ?_⟩, ?_⟩
    · simp [Tree.Group.stripped, hopening, he.literals_text, hclosing]
    · exact Tree.standsIn_of_mem_groupsAll
        (by simpa using ⟨⟨[], hopening⟩, ⟨he.closed, ih⟩, ⟨[], hclosing⟩⟩)
  | bare _ | escaped c => simp [Tree.groupsAll]

/-- Each parenthesis that opens a group is in the text, and the others are literals. -/
theorem Derives.count_opening (h : Derives rule t) :
    t.text.count opening = t.groups.length + t.literals.count opening := by
  induction h with
  | expr _ ih | term _ ih | factor _ ih | atom _ ih => simp [Tree.literalsAll, ih]
  | exprMore _ _ iht ihe =>
    have hbar : bar ≠ opening := by decide
    simp [Tree.literalsAll, iht, ihe, hbar]
    omega
  | termMore _ _ ihf iht =>
    simp [Tree.literalsAll, ihf, iht]
    omega
  | quantified q _ ih =>
    have hmark : q.byte ≠ opening := by cases q <;> decide
    simp [Tree.literalsAll, ih, hmark]
  | group _ ih =>
    have hclosing : closing ≠ opening := by decide
    simp [Tree.literalsAll, ih, hclosing]
    omega
  | bare _ => simp
  | escaped c =>
    have hescape : backslash ≠ opening := by decide
    simp [hescape]

/-! ## The fewest groups -/

def Rule.rank : Rule → Nat
  | expr => 0
  | term => 1
  | factor => 2
  | atom => 3
  | char => 4

namespace Regex

/-- The number of groups that a regular expression needs where a rule is asked for: one for each
operand that binds more loosely than its place allows, the whole being an operand, too. -/
def groupCount : Regex → Rule → Nat
  | symbol _, _ => 0
  | concat first second, place =>
    first.groupCount .term + second.groupCount .term + if Rule.term.rank < place.rank then 1 else 0
  | union first second, place =>
    first.groupCount .expr + second.groupCount .expr + if Rule.expr.rank < place.rank then 1 else 0
  | repeated _ operand, place =>
    operand.groupCount .atom + if Rule.factor.rank < place.rank then 1 else 0

theorem groupCount_mono (h : rule.rank ≤ rule'.rank) (r : Regex) :
    r.groupCount rule ≤ r.groupCount rule' := by
  cases r with
  | symbol c => exact Nat.zero_le _
  | concat | union | repeated =>
    simp only [groupCount]
    split_ifs <;> omega

/-- A group is enough for any place. -/
theorem groupCount_le_succ (r : Regex) (rule : Rule) :
    r.groupCount rule ≤ r.groupCount .expr + 1 := by
  cases r with
  | symbol c => exact Nat.zero_le _
  | concat | union | repeated =>
    simp only [groupCount]
    split_ifs <;> omega

end Regex

/-- A derivation tree has the groups that the regular expression it means needs. -/
theorem Derives.exists_means_groupCount_le (h : Derives rule t) :
    ∃ r, t.Means r ∧ r.groupCount rule ≤ t.groups.length := by
  induction h with
  | expr _ ih | term _ ih | factor _ ih | atom _ ih =>
    obtain ⟨r, hr, hle⟩ := ih
    exact ⟨r, .only (by decide) hr, by simpa using (r.groupCount_mono (by decide)).trans hle⟩
  | exprMore _ _ iht ihe =>
    obtain ⟨r, hr, hfirst⟩ := iht
    obtain ⟨s, hs, hsecond⟩ := ihe
    have hmono : r.groupCount .expr ≤ r.groupCount .term := r.groupCount_mono (by decide)
    exact ⟨_, .union rfl hr hs, by simp [Regex.groupCount]; omega⟩
  | termMore _ _ ihf iht =>
    obtain ⟨r, hr, hfirst⟩ := ihf
    obtain ⟨s, hs, hsecond⟩ := iht
    have hmono : r.groupCount .term ≤ r.groupCount .factor := r.groupCount_mono (by decide)
    exact ⟨_, .concat hr hs, by simp [Regex.groupCount]; omega⟩
  | quantified q _ ih =>
    obtain ⟨r, hr, hle⟩ := ih
    exact ⟨_, .repeated q rfl hr, by simpa [Regex.groupCount] using hle⟩
  | group _ ih =>
    obtain ⟨r, hr, hle⟩ := ih
    have hsucc := r.groupCount_le_succ .atom
    exact ⟨r, .group rfl rfl hr, by simp; omega⟩
  | bare _ => exact ⟨_, .bare _, Nat.zero_le _⟩
  | escaped c => exact ⟨_, .escaped c, Nat.zero_le _⟩

namespace Tree

@[simp] theorem length_groups_term (ts : List Tree) :
    (term ts).groups.length = (groupsAll ts).length := by
  induction ts with
  | nil => rfl
  | cons t ts ih =>
    by_cases hts : ts = []
    · simp [hts, term]
    · simp [term_cons t hts, ih]

@[simp] theorem length_groups_expr (ts : List Tree) :
    (expr ts).groups.length = (groupsAll ts).length := by
  induction ts with
  | nil => rfl
  | cons t ts ih =>
    by_cases hts : ts = []
    · simp [hts, expr]
    · simp [expr_cons t hts, ih]

@[simp] theorem length_groups_group (e : Tree) :
    (group e).groups.length = e.groups.length + 1 := by
  simp [group]

@[simp] theorem length_groups_factor (t : Tree) : (factor t).groups.length = t.groups.length := by
  simp [factor]

@[simp] theorem length_groups_quantified (t : Tree) (q : Quantifier) :
    (quantified t q).groups.length = t.groups.length := by
  simp [quantified]

@[simp] theorem length_groups_ofByte (c : UInt8) : (ofByte c).groups.length = 0 := by
  rw [ofByte, atom, groups_atom]
  split_ifs <;> rfl

end Tree

namespace Regex

open RegexLab.Tree (groupsAll)

/-- The pieces that a regular expression contributes to a tree have the groups that it needs, and no
others. -/
structure Sparing (r : Regex) : Prop where
  factors : (groupsAll (r.factors [])).length = r.groupCount .term
  terms : (groupsAll (r.terms [])).length = r.groupCount .expr
  operand : r.operand.groups.length = r.groupCount .atom

namespace Sparing

theorem symbol (c : UInt8) : (symbol c).Sparing := by
  refine ⟨?_, ?_, ?_⟩ <;> simp [Regex.factors, Regex.terms, Regex.operand, groupCount]

theorem concat (ha : a.Sparing) (hb : b.Sparing) : (a.concat b).Sparing := by
  have hfactors : (groupsAll (a.factors (b.factors []))).length =
      a.groupCount .term + b.groupCount .term := by
    rw [factors_eq_append, Tree.length_groupsAll_append, ha.factors, hb.factors]
  refine ⟨?_, ?_, ?_⟩ <;>
    simp [Regex.factors, Regex.terms, Regex.operand, groupCount, Rule.rank, hfactors]

theorem union (ha : a.Sparing) (hb : b.Sparing) : (a.union b).Sparing := by
  have hterms : (groupsAll (a.terms (b.terms []))).length =
      a.groupCount .expr + b.groupCount .expr := by
    rw [terms_eq_append, Tree.length_groupsAll_append, ha.terms, hb.terms]
  refine ⟨?_, ?_, ?_⟩ <;>
    simp [Regex.factors, Regex.terms, Regex.operand, groupCount, Rule.rank, hterms]

theorem repeated (q : Quantifier) (ha : a.Sparing) : (a.repeated q).Sparing := by
  refine ⟨?_, ?_, ?_⟩ <;>
    simp [Regex.factors, Regex.terms, Regex.operand, groupCount, Rule.rank, ha.operand]

end Sparing

theorem sparing (r : Regex) : r.Sparing := by
  induction r with
  | symbol c => exact .symbol c
  | concat a b iha ihb => exact iha.concat ihb
  | union a b iha ihb => exact iha.union ihb
  | repeated q a ih => exact ih.repeated q

/-- The tree of a regular expression has the groups that this needs. -/
theorem length_groups_toTree (r : Regex) : r.toTree.groups.length = r.groupCount .expr := by
  rw [toTree, Tree.length_groups_expr, r.sparing.terms]

end Regex

/-- No derivation tree that means a regular expression has fewer groups than the tree of that. -/
theorem Derives.length_groups_toTree_le (h : Derives .expr t) (hr : t.Means r) :
    r.toTree.groups.length ≤ t.groups.length := by
  obtain ⟨s, hs, hle⟩ := h.exists_means_groupCount_le
  obtain rfl := hr.unique hs
  rwa [r.length_groups_toTree]

/-! ## Taking parentheses out -/

section Stripped

variable {g : Tree.Group}

/-- If the text of a tree is that of another without the parentheses of a group, the trees have the
same literals. -/
theorem Derives.literals_of_stripped (ht : Derives rule t) (hg : g ∈ t.groups)
    (hu : Derives rule' u) (htext : u.text = g.stripped) : u.literals = t.literals := by
  have hliterals : literals (g.stripped ++ []) = literals (t.text ++ []) :=
    (ht.standsIn g hg).literals_stripped []
  rw [← htext, hu.literals_text, ht.literals_text] at hliterals
  exact List.append_cancel_right hliterals

/-- The tree without the parentheses has one group less. -/
theorem Derives.length_groups_of_stripped (ht : Derives rule t) (hg : g ∈ t.groups)
    (hu : Derives rule' u) (htext : u.text = g.stripped) :
    t.groups.length = u.groups.length + 1 := by
  have hliterals := ht.literals_of_stripped hg hu htext
  have hwhole := g.count_whole
  have htcount := ht.count_opening
  have hucount := hu.count_opening
  rw [htext, hliterals] at hucount
  rw [← (ht.standsIn g hg).whole_eq] at htcount
  omega

/-- Without the parentheses of one of its groups, the tree of a regular expression does not mean
that any more: too few are left. -/
theorem Derives.not_means_of_stripped (hg : g ∈ r.toTree.groups) (hu : Derives .expr u)
    (htext : u.text = g.stripped) : ¬ u.Means r := by
  intro hr
  have hlost := r.derives_toTree.length_groups_of_stripped hg hu htext
  have hle := hu.length_groups_toTree_le hr
  omega

end Stripped

end RegexLab
