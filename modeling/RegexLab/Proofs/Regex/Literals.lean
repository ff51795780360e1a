import RegexLab.Proofs.Regex.OfTree

/-!
# The literals of a pattern

A pattern spells its literals in order: a byte stands for itself if it means nothing to the grammar,
or if a backslash is before it. They are the literals in the tree of the pattern, and the symbols of
the regular expression that the tree means.

## Main definitions

* `Regex.symbols` — the symbols of a regular expression.
* `literals` — the literals of a pattern.
* `Tree.literals` — the literals of a tree.
-/

namespace RegexLab

variable {t : Tree} {c : UInt8}

def Regex.symbols : Regex → Bytes
  | symbol c => [c]
  | concat first second => first.symbols ++ second.symbols
  | union first second => first.symbols ++ second.symbols
  | repeated _ operand => operand.symbols

/-- The bytes of a pattern that stand for themselves: those behind a backslash, and those that mean
nothing to the grammar. -/
def literals : Bytes → Bytes
  | [] => []
  | [c] => if c ∈ ascii "*+?()|\\" then [] else [c]
  | c :: d :: rest =>
    if c = backslash then d :: literals rest
    else if c ∈ ascii "*+?()|\\" then literals (d :: rest)
    else c :: literals (d :: rest)

theorem literals_escaped (c : UInt8) (rest : Bytes) :
    literals (backslash :: c :: rest) = c :: literals rest := by
  rw [literals, if_pos rfl]

theorem literals_bare (hc : c ∉ ascii "*+?()|\\") (rest : Bytes) :
    literals (c :: rest) = c :: literals rest := by
  have hne : c ≠ backslash := by
    rintro rfl
    exact hc (by decide)
  cases rest <;> simp [literals, hc, hne]

theorem literals_mark (hc : c ∈ ascii "*+?()|") (rest : Bytes) :
    literals (c :: rest) = literals rest := by
  have hmem : c ∈ ascii "*+?()|\\" := List.mem_append_left _ hc
  have hne : c ≠ backslash := by
    rintro rfl
    exact absurd hc (by decide)
  cases rest <;> simp [literals, hmem, hne]

/-! ## The literals of a tree -/

namespace Tree

mutual

def literals : Tree → Bytes
  | node label children =>
    match Rule.ofLabel? label with
    | some .char => (node label children).literal?.toList
    | _ => literalsAll children

def literalsAll : List Tree → Bytes
  | [] => []
  | t :: ts => t.literals ++ literalsAll ts

end

@[simp] theorem literals_leaf (c : UInt8) : (leaf c).literals = [] := by
  unfold leaf literals
  split <;> rfl

@[simp] theorem literals_node {rule : Rule} (hrule : rule ≠ .char) (children : List Tree) :
    (node rule.label children).literals = literalsAll children := by
  rw [literals, Rule.ofLabel?_label]
  split
  next h => exact absurd (Option.some.inj h) hrule
  next => rfl

@[simp] theorem literals_node_bare (c : UInt8) :
    (node Rule.char.label [leaf c]).literals = [c] := rfl

@[simp] theorem literals_node_escaped (c : UInt8) :
    (node Rule.char.label [leaf backslash, leaf c]).literals = [c] := rfl

end Tree

/-- The literals of a derivation tree are those of its text, whatever follows. -/
theorem Derives.literals_text {rule : Rule} (h : Derives rule t) (rest : Bytes) :
    literals (t.text ++ rest) = t.literals ++ literals rest := by
  induction h generalizing rest with
  | expr _ ih | term _ ih | factor _ ih | atom _ ih => simp [Tree.literalsAll, ih]
  | exprMore _ _ iht ihe =>
    have hbar := literals_mark (c := bar) (by decide)
    simp [Tree.literalsAll, iht, hbar, ihe]
  | termMore _ _ ihf iht => simp [Tree.literalsAll, ihf, iht]
  | quantified q _ ih =>
    have hmark := literals_mark (c := q.byte) (by cases q <;> decide)
    simp [Tree.literalsAll, ih, hmark]
  | group _ ih =>
    have hopening := literals_mark (c := opening) (by decide)
    have hclosing := literals_mark (c := closing) (by decide)
    simp [Tree.literalsAll, hopening, ih, hclosing]
  | bare hc => simpa using literals_bare hc rest
  | escaped c => simpa using literals_escaped c rest

/-- Every derivation tree means a regular expression, which has the literals of the tree as its
symbols. -/
theorem Derives.exists_means_literals {rule : Rule} (h : Derives rule t) :
    ∃ r, t.Means r ∧ r.symbols = t.literals := by
  induction h with
  | expr _ ih | term _ ih | factor _ ih | atom _ ih =>
    obtain ⟨r, hr, hsymbols⟩ := ih
    exact ⟨r, .only (by decide) hr, by simp [Tree.literalsAll, hsymbols]⟩
  | exprMore _ _ iht ihe =>
    obtain ⟨r, hr, hfirst⟩ := iht
    obtain ⟨s, hs, hsecond⟩ := ihe
    exact ⟨_, .union rfl hr hs, by simp [Regex.symbols, Tree.literalsAll, hfirst, hsecond]⟩
  | termMore _ _ ihf iht =>
    obtain ⟨r, hr, hfirst⟩ := ihf
    obtain ⟨s, hs, hsecond⟩ := iht
    exact ⟨_, .concat hr hs, by simp [Regex.symbols, Tree.literalsAll, hfirst, hsecond]⟩
  | quantified q _ ih =>
    obtain ⟨r, hr, hsymbols⟩ := ih
    exact ⟨_, .repeated q rfl hr, by simp [Regex.symbols, Tree.literalsAll, hsymbols]⟩
  | group _ ih =>
    obtain ⟨r, hr, hsymbols⟩ := ih
    exact ⟨r, .group rfl rfl hr, by simp [Tree.literalsAll, hsymbols]⟩
  | bare _ => exact ⟨_, .bare _, rfl⟩
  | escaped c => exact ⟨_, .escaped c, rfl⟩

/-- What a derivation tree means has the literals of the tree as its symbols. -/
theorem Derives.symbols_eq_literals {rule : Rule} {r : Regex} (h : Derives rule t)
    (hr : t.Means r) : r.symbols = t.literals := by
  obtain ⟨s, hs, hsymbols⟩ := h.exists_means_literals
  obtain rfl := hr.unique hs
  exact hsymbols

/-- Every derivation tree means a regular expression, and its text has the symbols of that as its
literals, whatever follows. -/
theorem Derives.exists_means_symbols {rule : Rule} (h : Derives rule t) :
    ∃ r, t.Means r ∧ ∀ rest, literals (t.text ++ rest) =
      r.symbols ++ literals rest := by
  obtain ⟨r, hr, hsymbols⟩ := h.exists_means_literals
  exact ⟨r, hr, fun rest => by rw [h.literals_text, hsymbols]⟩

/-- Every derivation tree means something. -/
theorem Derives.exists_means {rule : Rule} (h : Derives rule t) : ∃ r, t.Means r := by
  obtain ⟨r, hr, -⟩ := h.exists_means_literals
  exact ⟨r, hr⟩

end RegexLab
