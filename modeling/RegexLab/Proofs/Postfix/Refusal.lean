import RegexLab.Proofs.Postfix.Compile
import RegexLab.Proofs.Postfix.NormalForm

/-!
# The trees that compile, and those that have a postfix text

Compiling a tree and writing its postfix text visit the same nodes and refuse the same shapes, but
each refuses something that the other does not look at. Only the compiler looks at the brackets of
a group, and only the writer refuses literals that would read as operators.

## Main definitions

* `Automaton.symbols` — the bytes that the states of an automaton read.
* `Tree.symbolNodes` — the literals of a tree that become states.
* `Tree.nodes`, `Tree.Bracketed` — the nodes of a tree, and whether its groups have their brackets.
-/

namespace RegexLab

variable {t u : Tree} {r : Regex} {label : Bytes} {children : List Tree} {A : Arena}

/-! ## The symbols of an automaton -/

def State.symbol? (s : State) : Option UInt8 :=
  s.edge.map (·.1)

namespace Arena

def symbols (A : Arena) : Bytes :=
  A.states.toList.filterMap State.symbol?

/-- What a state reads stays as it is. -/
@[simp] theorem symbols_redirect (A : Arena) (i : Nat) (targets : List Nat) :
    (A.redirect i targets).symbols = A.symbols := by
  unfold symbols redirect
  rw [Array.toList_modify]
  generalize A.states.toList = states
  induction states generalizing i with
  | nil => simp
  | cons s states ih =>
    cases i with
    | zero => rfl
    | succ i => simp only [List.modify_succ_cons, List.filterMap_cons, ih]

@[simp] theorem symbols_pushPair (A : Arena) (entry : Fragment → State) :
    (A.pushPair entry).2.symbols =
      A.symbols ++ (entry ⟨A.size, A.size + 1⟩).symbol?.toList := by
  have hexit : State.symbol? { accept := true } = none := rfl
  cases h : (entry ⟨A.size, A.size + 1⟩).symbol? <;> simp [pushPair, push, symbols, h, hexit]

end Arena

def Automaton.symbols (a : Automaton) : Bytes :=
  Arena.symbols { states := a.states }

/-- The symbols of a regular expression become states from left to right. -/
theorem Regex.symbols_assemble (r : Regex) (A : Arena) :
    (r.assemble A).2.symbols = A.symbols ++ r.symbols := by
  induction r generalizing A with
  | symbol c => exact A.symbols_pushPair _
  | concat first second ih₁ ih₂ => simp [assemble, Arena.concat, symbols, ih₁, ih₂]
  | union first second ih₁ ih₂ =>
    simp [assemble, Arena.union_eq, symbols, ih₁, ih₂, State.symbol?]
  | repeated q operand ih =>
    simp [assemble, Arena.repeated_eq, symbols, ih, State.symbol?]

namespace Tree

/-- The automaton of a tree reads the symbols of what the tree means. -/
theorem Means.symbols_buildTree {b : Build} (h : t.Means r) (hb : buildTree t = .ok b) :
    b.automaton.symbols = r.symbols := by
  obtain ⟨-, hautomaton, -⟩ := Arena.extract_eq_ok_iff.mp (h.extract_assemble hb)
  rw [hautomaton]
  exact r.symbols_assemble {}

/-! ## The literals that become states -/

/-- The literals' nodes that compiling a tree comes to. What stands in the place of a bracket, of a
bar or of a quantifier is not visited. -/
def symbolNodes : Tree → List Tree
  | node label children =>
    match Rule.ofLabel? label, children with
    | some .char, children => [node label children]
    | some _, [only] => only.symbolNodes
    | some .term, [first, second] => first.symbolNodes ++ second.symbolNodes
    | some .expr, [first, _, last] => first.symbolNodes ++ last.symbolNodes
    | some .factor, [operand, _] => operand.symbolNodes
    | some .atom, [_, inner, _] => inner.symbolNodes
    | _, _ => []

/-- The literals that are visited are the symbols of what the tree means. -/
theorem Means.literals_symbolNodes (h : t.Means r) :
    t.symbolNodes.filterMap literal? = r.symbols := by
  induction h with
  | bare c | escaped c => rfl
  | @only rule t r hrule _ ih =>
    cases rule with
    | char => exact absurd rfl hrule
    | _ => exact ih
  | concat _ _ iht ihu => simp [symbolNodes, Regex.symbols, iht, ihu]
  | union _ _ _ iht ihu => simp [symbolNodes, Regex.symbols, iht, ihu]
  | repeated q _ _ ih => exact ih
  | group _ _ _ ih => exact ih

/-! ## Groups with their brackets -/

mutual

def nodes : Tree → List Tree
  | node label children => node label children :: nodesAll children

def nodesAll : List Tree → List Tree
  | [] => []
  | t :: ts => t.nodes ++ nodesAll ts

end

theorem mem_nodesAll_iff {ts : List Tree} : u ∈ nodesAll ts ↔ ∃ t ∈ ts, u ∈ t.nodes := by
  induction ts with
  | nil => simp [nodesAll]
  | cons t ts ih => simp [nodesAll, ih]

/-- Every atom of three children has an opening parenthesis before its expression and a closing one
behind it. -/
def Bracketed (t : Tree) : Prop :=
  ∀ first inner last, node Rule.atom.label [first, inner, last] ∈ t.nodes →
    first.label = [opening] ∧ last.label = [closing]

namespace Bracketed

theorem child (h : (node label children).Bracketed) (hu : u ∈ children) : u.Bracketed :=
  fun first inner last hmem =>
    h first inner last (List.mem_cons_of_mem _ (mem_nodesAll_iff.mpr ⟨u, hu, hmem⟩))

theorem of_children (hchildren : ∀ u ∈ children, u.Bracketed)
    (hgroup : ∀ first inner last, label = Rule.atom.label → children = [first, inner, last] →
      first.label = [opening] ∧ last.label = [closing]) : (node label children).Bracketed := by
  intro first inner last hmem
  obtain heq | hmem := List.mem_cons.mp hmem
  · obtain ⟨hlabel, hlist⟩ := node.inj heq
    exact hgroup first inner last hlabel.symm hlist.symm
  · obtain ⟨u, hu, hmem⟩ := mem_nodesAll_iff.mp hmem
    exact hchildren u hu first inner last hmem

theorem of_leaf (c : UInt8) : (leaf c).Bracketed :=
  of_children (by simp) (by simp)

theorem brackets {first inner last : Tree}
    (h : (node Rule.atom.label [first, inner, last]).Bracketed) :
    first.label = [opening] ∧ last.label = [closing] :=
  h first inner last List.mem_cons_self

end Bracketed

/-! ## From the postfix text back to the automaton -/

theorem exists_literal_of_spellLiteral {written out : Bytes}
    (h : spell.spellLiteral t written = .ok out) : ∃ c, t.literal? = some c := by
  unfold spell.spellLiteral at h
  split at h
  next c hc => exact ⟨c, hc⟩
  next => cases h

/-- A link is written only if both of its operands are, and these mean something then. -/
theorem exists_means_of_bind {x : Except RegexError Bytes} {y : Bytes → Except RegexError Bytes}
    {c : UInt8} {out : Bytes} (hx : ∀ {v}, x = .ok v → ∃ r, t.Means r)
    (hy : ∀ {v w}, y v = .ok w → ∃ s, u.Means s)
    (h : (do let written ← x; let written ← y written; return c :: written) = .ok out) :
    ∃ r s, t.Means r ∧ u.Means s := by
  obtain ⟨v, hv, h⟩ := bind_eq_ok_iff.mp h
  obtain ⟨w, hw, -⟩ := bind_eq_ok_iff.mp h
  obtain ⟨r, hr⟩ := hx hv
  obtain ⟨s, hs⟩ := hy hw
  exact ⟨r, s, hr, hs⟩

/-- Writing a tree whose groups have their brackets succeeds only if the tree means something. The
links of the chain that the root belongs to may have been checked already. -/
theorem exists_means_of_spell {checked : Bool} {written out : Bytes}
    (h : t.spell checked written = .ok out) (hchecked : checked = true → t.checkChain = .ok ())
    (hbrackets : t.Bracketed) : ∃ r, t.Means r := by
  have hfalse : ∀ u : Tree, false = true → u.checkChain = .ok () := by simp
  fun_induction spell checked t written generalizing out
  case case2 hrule | case8 hrule =>
    obtain rfl := Rule.ofLabel?_eq_some_iff.mp hrule
    obtain ⟨c, hc⟩ := exists_literal_of_spellLiteral h
    exact ⟨_, .literal hc⟩
  case case3 hne hrule ih =>
    obtain rfl := Rule.ofLabel?_eq_some_iff.mp hrule
    obtain ⟨r, hr⟩ := ih h (hfalse _) (hbrackets.child (by simp))
    exact ⟨r, .only hne hr⟩
  case case5 hrule _ ihfirst ihlink =>
    obtain rfl := Rule.ofLabel?_eq_some_iff.mp hrule
    have hlinks := checkChain_term.mp (hchecked rfl)
    obtain ⟨r, s, hr, hs⟩ := exists_means_of_bind
      (ihfirst · (hfalse _) (hbrackets.child (by simp)))
      (ihlink _ · (by simpa using hlinks) (hbrackets.child (by simp))) h
    exact ⟨_, .concat hr hs⟩
  case case6 hrule _ _ ihfirst ihlink =>
    obtain rfl := Rule.ofLabel?_eq_some_iff.mp hrule
    obtain ⟨_, hcheck, h⟩ := bind_eq_ok_iff.mp h
    have hlinks := checkChain_term.mp hcheck
    obtain ⟨r, s, hr, hs⟩ := exists_means_of_bind
      (ihfirst · (hfalse _) (hbrackets.child (by simp)))
      (ihlink _ · (by simpa using hlinks) (hbrackets.child (by simp))) h
    exact ⟨_, .concat hr hs⟩
  case case7 hrule ih =>
    obtain rfl := Rule.ofLabel?_eq_some_iff.mp hrule
    obtain ⟨u, hu, h⟩ := bind_eq_ok_iff.mp h
    obtain ⟨r, hr⟩ := ih hu (hfalse _) (hbrackets.child (by simp))
    split at h
    next q hq => exact ⟨_, .repeated q (Quantifier.ofLabel?_eq_some_iff.mp hq) hr⟩
    next => cases h
  case case10 hrule _ ihfirst ihlast =>
    obtain rfl := Rule.ofLabel?_eq_some_iff.mp hrule
    obtain ⟨hbar, hlinks⟩ := checkChain_expr.mp (hchecked rfl)
    obtain ⟨r, s, hr, hs⟩ := exists_means_of_bind
      (ihfirst · (hfalse _) (hbrackets.child (by simp)))
      (ihlast _ · (by simpa using hlinks) (hbrackets.child (by simp))) h
    exact ⟨_, .union hbar hr hs⟩
  case case11 hrule _ _ ihfirst ihlast =>
    obtain rfl := Rule.ofLabel?_eq_some_iff.mp hrule
    obtain ⟨_, hcheck, h⟩ := bind_eq_ok_iff.mp h
    obtain ⟨hbar, hlinks⟩ := checkChain_expr.mp hcheck
    obtain ⟨r, s, hr, hs⟩ := exists_means_of_bind
      (ihfirst · (hfalse _) (hbrackets.child (by simp)))
      (ihlast _ · (by simpa using hlinks) (hbrackets.child (by simp))) h
    exact ⟨_, .union hbar hr hs⟩
  case case12 hrule ih =>
    obtain rfl := Rule.ofLabel?_eq_some_iff.mp hrule
    obtain ⟨r, hr⟩ := ih h (hfalse _) (hbrackets.child (by simp))
    exact ⟨r, .group hbrackets.brackets.1 hbrackets.brackets.2 hr⟩
  all_goals cases h

/-! ## The two walks -/

/-- What means something has a postfix text, unless a symbol would read as an operator. -/
theorem Means.postfixText_eq (h : t.Means r) : t.postfixText =
    match r.unwritable? with
    | none => .ok r.postfixText
    | some c => .error (.unwritable c) := by
  rw [postfixText, h.spell_eq, Regex.spelled]
  cases r.unwritable? with
  | none => simp [bind, Except.bind, pure, Except.pure]
  | some c => rfl

/-- What means something has no postfix text exactly if one of the literals that become states is
an operator. -/
theorem Means.postfixText_eq_error_iff (h : t.Means r) :
    (∃ c, t.postfixText = .error (.unwritable c)) ↔
      ∃ u ∈ t.symbolNodes, ∃ c ∈ ascii ".|*+?", u.literal? = some c := by
  have hsymbols : ∀ c, c ∈ r.symbols ↔ ∃ u ∈ t.symbolNodes, u.literal? = some c := by
    intro c
    rw [← h.literals_symbolNodes, List.mem_filterMap]
  have hwritable : (∃ c, t.postfixText = .error (.unwritable c)) ↔ ¬ r.Writable := by
    rw [← Regex.unwritable?_eq_none_iff, h.postfixText_eq]
    cases r.unwritable? <;> simp
  simp only [hwritable, Regex.Writable, hsymbols, Token.ofByte_eq_symbol_iff, not_forall,
    not_not]
  grind

end Tree

/-- The groups of a derivation tree have their brackets. -/
theorem Derives.bracketed {rule : Rule} (h : Derives rule t) : t.Bracketed := by
  induction h with
  | expr _ ih | term _ ih | factor _ ih | atom _ ih => exact .of_children (by simp [ih]) (by simp)
  | exprMore _ _ iht ihe =>
    refine .of_children (by simp [iht, ihe, Tree.Bracketed.of_leaf]) ?_
    intro first inner last hlabel
    exact absurd hlabel (by decide)
  | termMore _ _ ihf iht => exact .of_children (by simp [ihf, iht]) (by simp)
  | quantified q _ ih => exact .of_children (by simp [ih, Tree.Bracketed.of_leaf]) (by simp)
  | group _ ih =>
    refine .of_children (by simp [ih, Tree.Bracketed.of_leaf]) ?_
    rintro first inner last - hchildren
    obtain ⟨rfl, -, rfl⟩ : .leaf opening = first ∧ _ = inner ∧ .leaf closing = last := by
      simpa using hchildren
    exact ⟨rfl, rfl⟩
  | bare _ | escaped _ => exact .of_children (by simp [Tree.Bracketed.of_leaf]) (by simp)

/-- What means something and has a postfix text is as large as that says. -/
theorem Tree.Means.stateCount_eq {ts : Bytes} (h : t.Means r) (hts : t.postfixText = .ok ts) :
    r.stateCount = Postfix.stateCount ts := by
  obtain ⟨hr, rfl⟩ := (postfixText_eq_ok_iff h).mp hts
  exact (Regex.stateCount_postfixText hr).symm

/-- A tree that has a postfix text means something if its groups have their brackets. -/
theorem Tree.Bracketed.exists_means {ts : Bytes} (h : t.Bracketed) (hts : t.postfixText = .ok ts) :
    ∃ r, t.Means r := by
  obtain ⟨out, hout, -⟩ := bind_eq_ok_iff.mp hts
  exact Tree.exists_means_of_spell hout (by simp) h

/-- A tree that compiles has a postfix text, unless one of the literals that become states of the
automaton is an operator: no node is refused as unknown then. And a tree that has a postfix text
compiles if every atom of three children has its brackets, and if there is room for as many states
as the text has. -/
theorem buildTree_agrees_with_postfixText (t : Tree) :
    (∀ b, buildTree t = .ok b →
      b.automaton.symbols = t.symbolNodes.filterMap Tree.literal? ∧
      (∀ e, t.postfixText = .error e → ∃ c, e = .unwritable c) ∧
      ((∃ c, t.postfixText = .error (.unwritable c)) ↔
        ∃ u ∈ t.symbolNodes, ∃ c ∈ ascii ".|*+?", u.literal? = some c)) ∧
    ∀ ts, t.postfixText = .ok ts → t.Bracketed →
      (Postfix.stateCount ts ≤ Arena.limit → ∃ b, buildTree t = .ok b) ∧
      (Arena.limit < Postfix.stateCount ts → buildTree t = .error .tooManyStates) := by
  constructor
  · intro b hb
    obtain ⟨r, hr⟩ := means_of_buildTree hb
    refine ⟨?_, ?_, hr.postfixText_eq_error_iff⟩
    · rw [hr.symbols_buildTree hb, hr.literals_symbolNodes]
    · intro e he
      rw [hr.postfixText_eq] at he
      split at he
      next => cases he
      next c _ => exact ⟨c, (Except.error.inj he).symm⟩
  · intro ts hts hbrackets
    obtain ⟨r, hr⟩ := hbrackets.exists_means hts
    rw [← hr.stateCount_eq hts]
    refine ⟨fun hroom => ?_, hr.buildTree_of_lt⟩
    obtain ⟨b, hb, -⟩ := hr.exists_buildTree hroom
    exact ⟨b, hb⟩

/-- A dot below a quantifier is not visited and does no harm; one behind a backslash is visited, and
no postfix text is written. -/
theorem buildTree_agrees_with_postfixText_dots :
    (∃ t b, t = .node Rule.factor.label [.atom (.bare 0x61), .node (ascii "*") [.bare dot]] ∧
      t.postfixText = .ok (ascii "a*") ∧ t.Bracketed ∧
      Postfix.stateCount (ascii "a*") ≤ Arena.limit ∧ buildTree t = .ok b ∧
      b.automaton.symbols = ascii "a") ∧
    ∃ t b c, parse (ascii "a\\.") = .ok t ∧ buildTree t = .ok b ∧
      t.postfixText = .error (.unwritable c) := by
  constructor
  · obtain ⟨t, ht⟩ : ∃ t, t = Tree.node Rule.factor.label
        [.atom (.bare 0x61), .node (ascii "*") [.bare dot]] := ⟨_, rfl⟩
    have htext : t.postfixText = .ok (ascii "a*") := by rw [ht]; rfl
    have hbrackets : t.Bracketed := by
      intro first inner last hmem
      simp [ht, Tree.nodes, Tree.nodesAll, Tree.atom, Tree.bare, Tree.leaf] at hmem
    have hroom : Postfix.stateCount (ascii "a*") ≤ Arena.limit := by decide +kernel
    obtain ⟨hsame, hback⟩ := buildTree_agrees_with_postfixText t
    obtain ⟨b, hb⟩ := (hback _ htext hbrackets).1 hroom
    refine ⟨t, b, ht, htext, hbrackets, hroom, hb, ?_⟩
    rw [(hsame b hb).1, ht]
    rfl
  · obtain ⟨t, ht, hroom, c, hc⟩ : ∃ t, parse (ascii "a\\.") = .ok t ∧
        t.stateCount ≤ Arena.limit ∧
        ∃ u ∈ t.symbolNodes, ∃ c ∈ ascii ".|*+?", u.literal? = some c :=
      ⟨_, rfl, by decide +kernel, .escaped dot, by decide +kernel, dot, by decide, rfl⟩
    obtain ⟨b, hb⟩ := exists_buildTree_of_parse ht hroom
    obtain ⟨d, hd⟩ := ((buildTree_agrees_with_postfixText t).1 b hb).2.2.mpr ⟨c, hc⟩
    exact ⟨t, b, d, ht, hb, hd⟩

/-- The tree of a symbol in so many loops that there is no room for all the states: it has its
brackets and a postfix text, and still does not compile. -/
theorem buildTree_agrees_with_postfixText_tooManyLoops :
    ∃ t ts, Tree.ofPostfix (0x61 :: List.replicate (2 ^ 31 - 1) Quantifier.star.byte) = .ok t ∧
      t.postfixText = .ok ts ∧ t.Bracketed ∧ buildTree t = .error .tooManyStates := by
  obtain ⟨t, ht⟩ := Tree.exists_ofPostfix_loops .star (2 ^ 31 - 1)
  obtain ⟨s, hs, rfl, -, hwritable⟩ := exists_means_of_ofPostfix ht
  refine ⟨_, s.postfixText, ht, (postfixText_eq_ok_iff hs).mpr ⟨hwritable, rfl⟩,
    s.derives_toTree.bracketed, ?_⟩
  rw [← buildPostfix_of_tree ht]
  exact buildPostfix_of_count_of_lt (Postfix.count_loops .star _)
    (Postfix.limit_lt_stateCount_loops .star)

end RegexLab
