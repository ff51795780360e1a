import RegexLab.Proofs.Grammar.Soundness
import RegexLab.Text.Lines

/-!
# Listings of trees

A listing is written by a loop over the trees that are still to be visited. It is the outline of the
tree: a line for the root, and then the outlines of the children, one level deeper. The leaves of a
parse tree can be read back from its listing, whatever bytes they are and however deep they stand,
so different patterns have different listings.

## Main definitions

* `Tree.height` — how many levels there are below the root.
* `Tree.outline` — the lines of a tree, by recursion on the tree.
* `Margin`, `leavesFrom` — reading the leaves back from a listing.
-/

namespace RegexLab

variable {indent indent' : Nat → Bytes} {t u : Tree} {ts : List Tree} {k level : Nat}
  {label rest : Bytes} {c : UInt8} {r : Rule}

namespace Tree

/-! ## Outlines -/

mutual

def height : Tree → Nat
  | node _ [] => 0
  | node _ (t :: ts) => max t.height (heightAll ts) + 1

def heightAll : List Tree → Nat
  | [] => 0
  | t :: ts => max t.height (heightAll ts)

end

def spaces (level : Nat) : Bytes :=
  List.replicate (2 * level) 0x20

mutual

/-- The line of the root, a leaf being in quotes, and then the outlines of the children from left to
right, one level deeper. Each line starts with the indentation of its level. -/
def outline (indent : Nat → Bytes) (level : Nat) : Tree → Bytes
  | node label [] => indent level ++ ([singleQuote] ++ label ++ [singleQuote, lineFeed])
  | node label (t :: ts) => indent level ++ (label ++ [lineFeed]) ++
      (t.outline indent (level + 1) ++ outlineAll indent (level + 1) ts)

def outlineAll (indent : Nat → Bytes) (level : Nat) : List Tree → Bytes
  | [] => []
  | t :: ts => t.outline indent level ++ outlineAll indent level ts

end

theorem outlineAll_eq_flatMap (ts : List Tree) :
    outlineAll indent level ts = ts.flatMap (outline indent level) := by
  induction ts with
  | nil => rfl
  | cons t ts ih => rw [outlineAll, ih, List.flatMap_cons]

theorem outline_node_cons (label : Bytes) (t : Tree) (ts : List Tree) :
    (node label (t :: ts)).outline indent level =
      indent level ++ (label ++ [lineFeed]) ++ (t :: ts).flatMap (outline indent (level + 1)) := by
  rw [outline, outlineAll_eq_flatMap, List.flatMap_cons]

theorem flatten_leafLine (level : Nat) (label : Bytes) : (leafLine level label).flatten =
    (node label []).outline indentation level := by
  have hend : ascii "'\n" = [singleQuote, lineFeed] := rfl
  simp [leafLine, outline, hend]

theorem flatten_innerLine (level : Nat) (label : Bytes) :
    (innerLine level label).flatten = indentation level ++ (label ++ [lineFeed]) := by
  have hend : ascii "\n" = [lineFeed] := rfl
  simp [innerLine, hend]

/-- The trees that are still to be visited add their outlines to what has been written. -/
theorem flatten_writeListing (pending : List (Nat × Tree)) (written : List Bytes) :
    (writeListing pending written).flatten = written.reverse.flatten ++
      pending.flatMap fun p => p.2.outline indentation p.1 := by
  fun_induction writeListing pending written with
  | case1 written => simp
  | case2 level label pending written ih =>
    rw [ih, List.flatMap_cons, ← flatten_leafLine]
    simp
  | case3 level label t ts pending written ih =>
    rw [ih, List.flatMap_cons, outline_node_cons, ← flatten_innerLine]
    simp [List.flatMap_map]

/-- The loop over pending trees writes what the recursion outlines. -/
theorem flatten_listing (t : Tree) (level : Nat) :
    (t.listing level).flatten = t.outline indentation level := by
  simp [listing, flatten_writeListing]

mutual

/-- Two indentations that agree on the levels of a tree give it the same outline. -/
theorem outline_congr : (t : Tree) → (level : Nat) →
    (∀ k, level ≤ k → k ≤ level + t.height → indent k = indent' k) →
    t.outline indent level = t.outline indent' level
  | node label [], level, h => by
    rw [outline, outline, h level (Nat.le_refl _) (Nat.le_add_right _ _)]
  | node label (t :: ts), level, h => by
    have hroot := h level (Nat.le_refl _) (Nat.le_add_right _ _)
    have hchildren := outlineAll_congr (t :: ts) (level + 1) fun k hk hk' => by
      refine h k (by omega) ?_
      simp only [height, heightAll] at hk' ⊢
      omega
    rw [outline_node_cons, outline_node_cons, hroot, ← outlineAll_eq_flatMap, hchildren,
      outlineAll_eq_flatMap]

/-- Two indentations that agree on the levels of several trees give them the same outlines. -/
theorem outlineAll_congr : (ts : List Tree) → (level : Nat) →
    (∀ k, level ≤ k → k ≤ level + heightAll ts → indent k = indent' k) →
    outlineAll indent level ts = outlineAll indent' level ts
  | [], _, _ => rfl
  | t :: ts, level, h => by
    rw [outlineAll, outlineAll, outline_congr t level fun k hk hk' => h k hk ?_,
      outlineAll_congr ts level fun k hk hk' => h k hk ?_]
    · simp only [heightAll]
      omega
    · simp only [heightAll]
      omega

end

/-- As long as the width of no line is too large, each level adds two spaces. -/
theorem flatten_listing_eq_outline (h : 2 * (level + t.height) < UInt32.size) :
    (t.listing level).flatten = t.outline spaces level := by
  rw [flatten_listing]
  refine outline_congr t level fun k _ hk => ?_
  rw [indentation, spaces, Nat.mod_eq_of_lt (by omega)]

end Tree

/-! ## Reading back -/

/-- Where a reader of a listing stands in a line. -/
inductive Margin where
  /-- Before the first byte that is no space. -/
  | blank
  /-- Behind the quote that opens a leaf. -/
  | quoted
  /-- Where all that is left is to find the end of the line. -/
  | done

/-- The leaves that are read from a listing. A leaf is the byte behind the first quote of its line,
whatever byte that is, and a line without a quote at its start has none. -/
def leavesFrom : Margin → Bytes → Bytes
  | _, [] => []
  | .blank, c :: s =>
    if c = 0x20 then leavesFrom .blank s
    else if c = singleQuote then leavesFrom .quoted s
    else leavesFrom .done s
  | .quoted, c :: s => c :: leavesFrom .done s
  | .done, c :: s => if c = lineFeed then leavesFrom .blank s else leavesFrom .done s

theorem leavesFrom_indentation (level : Nat) (rest : Bytes) :
    leavesFrom .blank (Tree.indentation level ++ rest) = leavesFrom .blank rest := by
  rw [Tree.indentation]
  induction 2 * level % UInt32.size with
  | zero => rfl
  | succ n ih => simpa [List.replicate_succ, leavesFrom] using ih

theorem leavesFrom_done (h : lineFeed ∉ label) (rest : Bytes) :
    leavesFrom .done (label ++ lineFeed :: rest) = leavesFrom .blank rest := by
  induction label with
  | nil => simp [leavesFrom]
  | cons c label ih =>
    obtain ⟨hc, hlabel⟩ := List.ne_and_not_mem_of_not_mem_cons h
    simpa [leavesFrom, Ne.symm hc] using ih hlabel

/-- A line with the label of a rule has no leaf. -/
theorem leavesFrom_label (r : Rule) (rest : Bytes) :
    leavesFrom .blank (r.label ++ lineFeed :: rest) = leavesFrom .blank rest := by
  obtain ⟨c, w, hlabel, hspace, hquote, hfeed⟩ :
      ∃ c w, r.label = c :: w ∧ c ≠ 0x20 ∧ c ≠ singleQuote ∧ lineFeed ∉ w := by
    cases r <;> exact ⟨_, _, rfl, by decide, by decide, by decide⟩
  rw [hlabel, List.cons_append, leavesFrom, if_neg hspace, if_neg hquote, leavesFrom_done hfeed]

namespace Tree

theorem leavesFrom_leaf (c : UInt8) (level : Nat) (rest : Bytes) :
    leavesFrom .blank ((leaf c).outline indentation level ++ rest) =
      c :: leavesFrom .blank rest := by
  have hend : leavesFrom .done ([singleQuote] ++ lineFeed :: rest) = leavesFrom .blank rest :=
    leavesFrom_done (by decide) rest
  have hquote : singleQuote ≠ 0x20 := by decide
  rw [leaf, outline, List.append_assoc, leavesFrom_indentation, ← hend]
  simp [leavesFrom, hquote]

/-- The line of a node with the label of a rule has no leaf. -/
theorem leavesFrom_node (r : Rule) (t : Tree) (ts : List Tree) (level : Nat) (rest : Bytes) :
    leavesFrom .blank ((node r.label (t :: ts)).outline indentation level ++ rest) =
      leavesFrom .blank ((t :: ts).flatMap (outline indentation (level + 1)) ++ rest) := by
  rw [outline_node_cons, List.append_assoc, List.append_assoc, List.append_assoc,
    leavesFrom_indentation, List.singleton_append, leavesFrom_label]

end Tree

/-- The leaves of a parse tree are read back from its outline, whatever stands behind that. -/
theorem Derives.leavesFrom_outline (h : Derives r t) (level : Nat) (rest : Bytes) :
    leavesFrom .blank (t.outline Tree.indentation level ++ rest) =
      t.text ++ leavesFrom .blank rest := by
  induction h generalizing level rest with
  | expr _ ih | term _ ih | factor _ ih | atom _ ih => simp [Tree.leavesFrom_node, ih]
  | exprMore _ _ iht ihe => simp [Tree.leavesFrom_node, Tree.leavesFrom_leaf, iht, ihe]
  | termMore _ _ ihf iht => simp [Tree.leavesFrom_node, ihf, iht]
  | quantified q _ ih => simp [Tree.leavesFrom_node, Tree.leavesFrom_leaf, ih]
  | group _ ih => simp [Tree.leavesFrom_node, Tree.leavesFrom_leaf, ih]
  | bare _ | escaped => simp [Tree.leavesFrom_node, Tree.leavesFrom_leaf]

namespace Tree

/-- The text of a tree is what the recursion over its leaves yields, and its listing, at every level
at which the width of no line is too large, is what the recursion over its nodes outlines. Two
patterns whose trees have the same listing are the same, whatever their literals are and however
deep their trees go. -/
theorem listing_tells_patterns_apart :
    (∀ t : Tree, t.text = t.yield) ∧
    (∀ (t : Tree) level, 2 * (level + t.height) < UInt32.size →
      (t.listing level).flatten = t.outline spaces level) ∧
    ∀ p q t u k level, parse p = .ok t → parse q = .ok u → p ≠ q →
      (t.listing k).flatten ≠ (u.listing level).flatten := by
  refine ⟨text_eq_yield, fun t level h => flatten_listing_eq_outline h, ?_⟩
  intro p q t u k level hp hq hne heq
  obtain ⟨ht, rfl⟩ := derives_of_parse hp
  obtain ⟨hu, rfl⟩ := derives_of_parse hq
  rw [flatten_listing, flatten_listing] at heq
  have htext := ht.leavesFrom_outline k []
  rw [heq, hu.leavesFrom_outline level []] at htext
  exact hne (List.append_cancel_right htext).symm

/-- A line feed, a space and a quote as literals, once as they are and once behind backslashes. -/
theorem listing_tells_patterns_apart_blankLiterals :
    ∃ t u, parse (ascii "\n '") = .ok t ∧ parse (ascii "\\\n\\ \\'") = .ok u ∧
      t.text = t.yield ∧ (t.listing 1).flatten = t.outline spaces 1 ∧
      (t.listing 0).flatten ≠ (u.listing 0).flatten := by
  obtain ⟨htext, houtline, hapart⟩ := listing_tells_patterns_apart
  obtain ⟨t, ht⟩ : ∃ t, parse (ascii "\n '") = .ok t := ⟨_, rfl⟩
  obtain ⟨u, hu⟩ : ∃ u, parse (ascii "\\\n\\ \\'") = .ok u := ⟨_, rfl⟩
  refine ⟨t, u, ht, hu, htext t, houtline t 1 ?_, hapart _ _ t u 0 0 ht hu (by decide)⟩
  cases ht
  decide +kernel

end Tree

end RegexLab
