import RegexLab.Pattern
import RegexLab.Proofs.Regex.OfTree
import RegexLab.Proofs.Regex.Size

/-!
# Compiling a tree node by node

A run of alternatives, or of factors, is compiled in a loop over its links. It comes to the same as
going down the tree one node at a time: the operands are made in the same order, and the last two
are put together first either way. The check of the links beforehand refuses no tree that would not
be refused later.

## Main definitions

* `Arena.joined` — what becomes of the operands of a run.
* `Regex.assembleRun` — a regular expression that ends a run, and then the run.
* `Tree.assembleEach` — the fragment of a tree, one node at a time.
* `Tree.buildEach` — the automaton of that fragment.
-/

namespace RegexLab

variable {A : Arena} {label : Bytes} {earlier : List Fragment} {t u first link : Tree} {r s : Regex}
  {b : Build}

/-! ## Runs -/

namespace Arena

def joined (A : Arena) (label : Bytes) (earlier : List Fragment) (last : Fragment) :
    Fragment × Arena :=
  earlier.foldl (fun (g, A) f => A.perform (.join label f g)) (last, A)

theorem size_le_joined (A : Arena) (label : Bytes) (earlier : List Fragment) (last : Fragment) :
    A.size ≤ (A.joined label earlier last).2.size := by
  induction earlier generalizing A last with
  | nil => exact le_rfl
  | cons f earlier ih => exact (A.size_le_perform _).trans (ih _ _)

/-- There is room for each step of a run if there is room for the whole. -/
theorem joinRun_eq (h : A.size ≤ limit) (earlier : List Fragment) (last : Fragment) :
    A.joinRun label earlier last = bounded (A.joined label earlier last) := by
  induction earlier generalizing A last with
  | nil => exact (bounded_of_le h).symm
  | cons f earlier ih => exact bounded_bind (size_le_joined _ _ _ _) fun hsize => ih hsize _

end Arena

namespace Regex

/-- Make the fragment of a regular expression that ends a run, and then that of the run. -/
def assembleRun (r : Regex) (A : Arena) (label : Bytes) (earlier : List Fragment) :
    Fragment × Arena :=
  (r.assemble A).2.joined label earlier (r.assemble A).1

theorem size_le_assemble (r : Regex) (A : Arena) : A.size ≤ (r.assemble A).2.size :=
  (r.adds_assemble A).size_le

theorem size_le_assembleRun (r : Regex) (A : Arena) (label : Bytes) (earlier : List Fragment) :
    A.size ≤ (r.assembleRun A label earlier).2.size :=
  (r.size_le_assemble A).trans (Arena.size_le_joined _ _ _ _)

end Regex

namespace Tree

def Links (label : Bytes) : Prop :=
  label = Rule.term.label ∨ label = Rule.expr.label

/-- Only the links of a run come after an operand. -/
theorem eq_nil_of_not_links {rule : Rule} {children : List Tree}
    (h : earlier = [] ∨ Links (node rule.label children).label) (hterm : rule ≠ .term)
    (hexpr : rule ≠ .expr) : earlier = [] :=
  h.resolve_right fun hl =>
    hl.elim (fun hl => hterm (Rule.label_injective hl)) fun hl => hexpr (Rule.label_injective hl)

/-- The last operand of a run is made, and then the run. -/
theorem assemble_last (earlier : List Fragment)
    (hlast : t.assemble [] A = Arena.bounded (r.assemble A)) :
    (do
      let (last, A) ← t.assemble [] A
      A.joinRun label earlier last) = Arena.bounded (r.assembleRun A label earlier) := by
  rw [hlast]
  exact Arena.bounded_bind (Arena.size_le_joined _ _ _ _) fun h => Arena.joinRun_eq h _ _

/-- The operand of a link is made, and then the rest of the run. A rest with another label is the
last operand. -/
theorem assemble_operands
    (hfirst : first.assemble [] A = Arena.bounded (r.assemble A))
    (hlink : ∀ f B, link.label = label →
      link.assemble (f :: earlier) B = Arena.bounded (s.assembleRun B label (f :: earlier)))
    (hlast : ∀ B, link.assemble [] B = Arena.bounded (s.assemble B)) :
    (do
      let (f, A) ← first.assemble [] A
      if link.label = label then link.assemble (f :: earlier) A
      else
        let (last, A) ← link.assemble [] A
        A.joinRun label (f :: earlier) last) =
    Arena.bounded (s.assembleRun (r.assemble A).2 label ((r.assemble A).1 :: earlier)) := by
  rw [hfirst]
  refine Arena.bounded_bind (s.size_le_assembleRun _ _ _) fun _ => ?_
  by_cases h : link.label = label
  · simp only [h, if_true]
    exact hlink _ _ h
  · simp only [h, if_false]
    exact assemble_last _ (hlast _)

/-- Where a run starts its links are checked, and nowhere else. -/
theorem checkStart_eq (h : t.checkChain = .ok ()) (earlier : List Fragment) :
    checkStart earlier t = .ok () := by
  unfold checkStart
  split
  · exact h
  · rfl

/-- Compiling a tree makes the fragment of the regular expression that it means, and then that of
the run that it ends, if there is room for both. -/
theorem Means.assembleRun_eq (h : Means t r) (hearlier : earlier = [] ∨ Links t.label) (A : Arena) :
    t.assemble earlier A = Arena.bounded (r.assembleRun A t.label earlier) := by
  induction h generalizing earlier A with
  | bare c | escaped c =>
    obtain rfl := eq_nil_of_not_links hearlier (by decide) (by decide)
    rfl
  | @only rule t r hrule h ih =>
    rw [assemble]
    cases rule with
    | char => exact absurd rfl hrule
    | _ => exact assemble_last earlier (ih (.inl rfl) A)
  | @concat t u r s ht hu iht ihu =>
    rw [assemble, checkStart_eq ((Means.concat ht hu).checkChain_eq (.inl rfl))]
    exact assemble_operands (iht (.inl rfl) A)
      (fun f B hl => hl ▸ ihu (.inr (.inl hl)) B) fun B => ihu (.inl rfl) B
  | @union t m u r s hm ht hu iht ihu =>
    rw [assemble, checkStart_eq ((Means.union hm ht hu).checkChain_eq (.inr rfl))]
    exact assemble_operands (iht (.inl rfl) A)
      (fun f B hl => hl ▸ ihu (.inr (.inr hl)) B) fun B => ihu (.inl rfl) B
  | repeated q hm _ ih =>
    obtain rfl := eq_nil_of_not_links hearlier (by decide) (by decide)
    simp only [assemble, Rule.ofLabel?_label, Quantifier.ofLabel?_eq_some_iff.mpr hm]
    rw [ih (.inl rfl) A]
    exact Arena.bounded_bind ((Regex.assemble _ A).2.size_le_perform (.repeated q _)) fun _ => rfl
  | group ha hz _ ih =>
    obtain rfl := eq_nil_of_not_links hearlier (by decide) (by decide)
    simp only [assemble, ha, hz]
    exact ih (.inl rfl) A

/-- A tree on its own is no rest of a run. -/
theorem Means.assemble_eq (h : Means t r) (A : Arena) :
    t.assemble [] A = Arena.bounded (r.assemble A) :=
  h.assembleRun_eq (.inl rfl) A

/-- The operands of a link are made only if its run has been checked, and both mean something. -/
theorem exists_means_of_operands {x : Fragment × Arena}
    (hchecked : earlier ≠ [] → t.checkChain = .ok ())
    (hchain : t.checkChain = .ok () → link.label = label → link.checkChain = .ok ())
    (hfirst : ∀ {x}, first.assemble [] A = .ok x → ∃ r, Means first r)
    (hlink : ∀ f B {x}, link.assemble (f :: earlier) B = .ok x → link.checkChain = .ok () →
      ∃ s, Means link s)
    (hlast : ∀ B {x}, link.assemble [] B = .ok x → ∃ s, Means link s)
    (h : (do
      checkStart earlier t
      let (f, A) ← first.assemble [] A
      if link.label = label then link.assemble (f :: earlier) A
      else
        let (last, A) ← link.assemble [] A
        A.joinRun label (f :: earlier) last) = .ok x) :
    t.checkChain = .ok () ∧ (∃ r, Means first r) ∧ ∃ s, Means link s := by
  obtain ⟨⟨⟩, hstart, h⟩ := bind_eq_ok_iff.mp h
  have hcheck : t.checkChain = .ok () := by
    cases earlier with
    | nil => exact hstart
    | cons => exact hchecked (by simp)
  obtain ⟨⟨f, B⟩, hf, h⟩ := bind_eq_ok_iff.mp h
  refine ⟨hcheck, hfirst hf, ?_⟩
  split_ifs at h with hlabel
  · exact hlink f B h (hchain hcheck hlabel)
  · obtain ⟨_, hlast', -⟩ := bind_eq_ok_iff.mp h
    exact hlast B hlast'

/-- Fragments are made only of trees that mean something. The links of a run are checked before the
first of its operands is made. -/
theorem exists_means_of_assemble {x : Fragment × Arena} (h : t.assemble earlier A = .ok x)
    (hchecked : earlier ≠ [] → t.checkChain = .ok ()) : ∃ r, Means t r := by
  have halone : ∀ u : Tree, ([] : List Fragment) ≠ [] → u.checkChain = .ok () := by simp
  fun_induction assemble earlier t A generalizing x
  case case2 hrule _ hc | case9 hrule _ hc =>
    obtain rfl := Rule.ofLabel?_eq_some_iff.mp hrule
    exact ⟨_, .literal hc⟩
  case case4 hne hrule ih =>
    obtain rfl := Rule.ofLabel?_eq_some_iff.mp hrule
    obtain ⟨_, honly, -⟩ := bind_eq_ok_iff.mp h
    obtain ⟨r, hr⟩ := ih honly (halone _)
    exact ⟨r, .only hne hr⟩
  case case6 hrule ihfirst ihlink ihlast =>
    obtain rfl := Rule.ofLabel?_eq_some_iff.mp hrule
    obtain ⟨-, ⟨r, hr⟩, s, hs⟩ := exists_means_of_operands hchecked checkChain_term.mp
      (ihfirst · (halone _)) (fun f B _ hx hlinks => ihlink f B hx fun _ => hlinks)
      (fun B _ hx => ihlast B hx (halone _)) h
    exact ⟨_, .concat hr hs⟩
  case case7 hrule q hq ih =>
    obtain rfl := Rule.ofLabel?_eq_some_iff.mp hrule
    obtain ⟨_, hfirst, -⟩ := bind_eq_ok_iff.mp h
    obtain ⟨r, hr⟩ := ih hfirst (halone _)
    exact ⟨_, .repeated q (Quantifier.ofLabel?_eq_some_iff.mp hq) hr⟩
  case case12 hrule ihfirst ihlink ihlast =>
    obtain rfl := Rule.ofLabel?_eq_some_iff.mp hrule
    obtain ⟨hcheck, ⟨r, hr⟩, s, hs⟩ := exists_means_of_operands hchecked
      (fun hcheck => (checkChain_expr.mp hcheck).2)
      (ihfirst · (halone _)) (fun f B _ hx hlinks => ihlink f B hx fun _ => hlinks)
      (fun B _ hx => ihlast B hx (halone _)) h
    exact ⟨_, .union (checkChain_expr.mp hcheck).1 hr hs⟩
  case case13 hrule hbrackets ih =>
    obtain rfl := Rule.ofLabel?_eq_some_iff.mp hrule
    obtain ⟨r, hr⟩ := ih h (halone _)
    exact ⟨r, .group hbrackets.1 hbrackets.2 hr⟩
  all_goals cases h

end Tree

/-! ## The automaton of a tree -/

/-- Only trees that mean something compile. -/
theorem means_of_buildTree (h : buildTree t = .ok b) : ∃ r, t.Means r := by
  obtain ⟨_, hx, -⟩ := bind_eq_ok_iff.mp h
  exact Tree.exists_means_of_assemble hx (by simp)

namespace Tree.Means

/-- There is room for the automaton of a tree if its states can be numbered. -/
theorem assemble_of_le (h : t.Means r) (hfits : r.stateCount ≤ Arena.limit) :
    t.assemble [] {} = .ok (r.assemble {}) := by
  rw [h.assemble_eq]
  exact Arena.bounded_of_le (r.size_assemble_empty.trans_le hfits)

/-- A tree whose automaton has too many states does not compile, whatever it means. -/
theorem buildTree_of_lt (h : t.Means r) (hmany : Arena.limit < r.stateCount) :
    buildTree t = .error .tooManyStates := by
  have hassemble : t.assemble [] {} = .error .tooManyStates := by
    rw [h.assemble_eq]
    exact Arena.bounded_of_lt (hmany.trans_eq r.size_assemble_empty.symm)
  rw [buildTree, hassemble]
  rfl

theorem stateCount_le (h : t.Means r) (hb : buildTree t = .ok b) :
    r.stateCount ≤ Arena.limit := by
  by_contra hmany
  cases hb.symm.trans (h.buildTree_of_lt (Nat.lt_of_not_le hmany))

/-- What a tree compiles to is what its regular expression is made into. -/
theorem extract_assemble (h : t.Means r) (hb : buildTree t = .ok b) :
    (r.assemble {}).2.extract (r.assemble {}).1 = .ok (b.automaton, {}) := by
  rw [buildTree, h.assemble_of_le (h.stateCount_le hb)] at hb
  obtain ⟨⟨a, A⟩, hextract, hb⟩ := bind_eq_ok_iff (x := (r.assemble {}).2.extract _) |>.mp hb
  obtain ⟨-, -, rfl⟩ := Arena.extract_eq_ok_iff.mp hextract
  obtain rfl := Except.ok.inj hb
  exact hextract

end Tree.Means

/-! ## One node at a time -/

namespace Tree

/-- Make the fragment of a tree one node at a time, each node from those of its children. -/
def assembleEach : Tree → Arena → Option (Fragment × Arena)
  | node label children, A =>
    match Rule.ofLabel? label, children with
    | some .char, children => do
      let c ← literal? (node label children)
      (A.apply (.symbol c)).toOption
    | some _, [only] => only.assembleEach A
    | some .term, [first, second] => do
      let (f, A) ← first.assembleEach A
      let (g, A) ← second.assembleEach A
      (A.apply (.concat f g)).toOption
    | some .expr, [first, middle, last] =>
      if middle.label = [bar] then do
        let (f, A) ← first.assembleEach A
        let (g, A) ← last.assembleEach A
        (A.apply (.union f g)).toOption
      else none
    | some .factor, [operand, mark] => do
      let q ← Quantifier.ofLabel? mark.label
      let (f, A) ← operand.assembleEach A
      (A.apply (.repeated q f)).toOption
    | some .atom, [first, inner, last] =>
      if first.label = [opening] ∧ last.label = [closing] then inner.assembleEach A else none
    | _, _ => none

def buildEach (t : Tree) : Option Automaton := do
  let (f, A) ← t.assembleEach {}
  let (automaton, _) ← (A.extract f).toOption
  return automaton

/-- If there is room for all that two steps make, there is room for what the first makes. -/
theorem toOption_bounded_bind {x y : Fragment × Arena} {k : Fragment × Arena → Option _}
    (hsize : x.2.size ≤ y.2.size) (hk : k x = (Arena.bounded y).toOption) :
    (Arena.bounded x).toOption >>= k = (Arena.bounded y).toOption := by
  by_cases h : x.2.size ≤ Arena.limit
  · rw [Arena.bounded_of_le h]
    exact hk
  · rw [Arena.bounded_of_lt (x := x) (by omega), Arena.bounded_of_lt (by omega)]
    rfl

/-- Two operands are made in order, and then what they are put together to. -/
theorem assembleEach_operands (op : Fragment → Fragment → Operation)
    (hfirst : t.assembleEach A = (Arena.bounded (r.assemble A)).toOption)
    (hsecond : u.assembleEach (r.assemble A).2 =
      (Arena.bounded (s.assemble (r.assemble A).2)).toOption) :
    (do
      let (f, A) ← t.assembleEach A
      let (g, A) ← u.assembleEach A
      (A.apply (op f g)).toOption) =
    (Arena.bounded ((s.assemble (r.assemble A).2).2.perform
      (op (r.assemble A).1 (s.assemble (r.assemble A).2).1))).toOption := by
  have hs := s.size_le_assemble (r.assemble A).2
  have hlast := (s.assemble (r.assemble A).2).2.size_le_perform
    (op (r.assemble A).1 (s.assemble (r.assemble A).2).1)
  rw [hfirst]
  refine toOption_bounded_bind (hs.trans hlast) ?_
  change u.assembleEach (r.assemble A).2 >>= _ = _
  rw [hsecond]
  exact toOption_bounded_bind hlast rfl

theorem Means.assembleEach_eq (h : Means t r) (A : Arena) :
    t.assembleEach A = (Arena.bounded (r.assemble A)).toOption := by
  induction h generalizing A with
  | bare c | escaped c => rfl
  | @only rule t r hrule _ ih =>
    cases rule with
    | char => exact absurd rfl hrule
    | _ => exact ih A
  | concat _ _ iht ihu =>
    simp only [assembleEach, Rule.ofLabel?_label]
    exact assembleEach_operands .concat (iht A) (ihu _)
  | union hm _ _ iht ihu =>
    simp only [assembleEach, Rule.ofLabel?_label, hm, if_true]
    exact assembleEach_operands .union (iht A) (ihu _)
  | @repeated t m r q hm _ ih =>
    simp only [assembleEach, Rule.ofLabel?_label, Quantifier.ofLabel?_eq_some_iff.mpr hm, ih]
    exact toOption_bounded_bind ((r.assemble A).2.size_le_perform (.repeated q _)) rfl
  | group ha hz _ ih => simp [assembleEach, ha, hz, ih]

theorem exists_means_of_assembleEach {x : Fragment × Arena} (h : t.assembleEach A = some x) :
    ∃ r, Means t r := by
  fun_induction assembleEach t A generalizing x
  case case1 hrule =>
    obtain rfl := Rule.ofLabel?_eq_some_iff.mp hrule
    obtain ⟨c, hc, -⟩ := Option.bind_eq_some_iff.mp h
    exact ⟨_, .literal hc⟩
  case case2 hne hrule ih =>
    obtain rfl := Rule.ofLabel?_eq_some_iff.mp hrule
    obtain ⟨r, hr⟩ := ih h
    exact ⟨r, .only hne hr⟩
  case case3 hrule ihfirst ihsecond =>
    obtain rfl := Rule.ofLabel?_eq_some_iff.mp hrule
    obtain ⟨y, hy, h⟩ := Option.bind_eq_some_iff.mp h
    obtain ⟨z, hz, -⟩ := Option.bind_eq_some_iff.mp h
    obtain ⟨r, hr⟩ := ihfirst hy
    obtain ⟨s, hs⟩ := ihsecond _ hz
    exact ⟨_, .concat hr hs⟩
  case case4 hrule hm ihfirst ihlast =>
    obtain rfl := Rule.ofLabel?_eq_some_iff.mp hrule
    obtain ⟨y, hy, h⟩ := Option.bind_eq_some_iff.mp h
    obtain ⟨z, hz, -⟩ := Option.bind_eq_some_iff.mp h
    obtain ⟨r, hr⟩ := ihfirst hy
    obtain ⟨s, hs⟩ := ihlast _ hz
    exact ⟨_, .union hm hr hs⟩
  case case6 hrule ih =>
    obtain rfl := Rule.ofLabel?_eq_some_iff.mp hrule
    obtain ⟨q, hq, h⟩ := Option.bind_eq_some_iff.mp h
    obtain ⟨y, hy, -⟩ := Option.bind_eq_some_iff.mp h
    obtain ⟨r, hr⟩ := ih hy
    exact ⟨_, .repeated q (Quantifier.ofLabel?_eq_some_iff.mp hq) hr⟩
  case case7 hrule hbrackets ih =>
    obtain rfl := Rule.ofLabel?_eq_some_iff.mp hrule
    obtain ⟨r, hr⟩ := ih h
    exact ⟨r, .group hbrackets.1 hbrackets.2 hr⟩
  all_goals cases h

/-- Both ways of compiling a tree accept the trees that mean something, and make the same states,
as long as there is room for them. -/
theorem toOption_assemble (t : Tree) (A : Arena) :
    (t.assemble [] A).toOption = t.assembleEach A := by
  by_cases h : ∃ r, Means t r
  · obtain ⟨r, hr⟩ := h
    rw [hr.assemble_eq, hr.assembleEach_eq]
  · have hloop : (t.assemble [] A).toOption = none := by
      cases hx : t.assemble [] A with
      | error e => rfl
      | ok x => exact absurd (exists_means_of_assemble hx (by simp)) h
    have heach : t.assembleEach A = none := by
      cases hx : t.assembleEach A with
      | none => rfl
      | some x => exact absurd (exists_means_of_assembleEach hx) h
    rw [hloop, heach]

end Tree

/-- The loop over the links of a run agrees with the recursion that makes one node at a time: in
whatever arena a tree is compiled, either both fail or both make the same fragment out of the same
states. So a tree compiles exactly if it compiles one node at a time, and to the same automaton. -/
theorem toOption_buildTree (t : Tree) :
    (∀ A, (t.assemble [] A).toOption = t.assembleEach A) ∧
    ((∃ e, buildTree t = .error e) ↔ t.buildEach = none) ∧
    (buildTree t).toOption.map Build.automaton = t.buildEach := by
  have hbuild : (buildTree t).toOption.map Build.automaton = t.buildEach := by
    rw [buildTree, Tree.buildEach, ← t.toOption_assemble]
    cases t.assemble [] {} with
    | error e => rfl
    | ok x =>
      change (x.2.extract x.1 >>= _ : Except RegexError Build).toOption.map _ =
        (x.2.extract x.1).toOption >>= _
      cases x.2.extract x.1 <;> rfl
  refine ⟨t.toOption_assemble, ?_, hbuild⟩
  rw [← hbuild]
  cases buildTree t <;> simp [Except.toOption]

end RegexLab
