import RegexLab.Proofs.Regex.Assembly

/-!
# Every state is of use

A way leads to each state of a fragment from its entry, and from each state to its exit. Both have
to be kept together: an operand that is entered is left at its exit, and only through the exit of
the first operand of a concatenation is the second one entered.

## Main definitions

* `Leads` — a way leads from one state to another.
* `Fragment.Trim` — every state of a fragment lies on a way from its entry to its exit.
-/

namespace RegexLab

variable {S T : Array State} {P Q R : Set Nat} {X : List Nat} {A B C : Arena} {a b f g : Fragment}
  {L M : Language UInt8} {i j k n e : Nat}

def Leads (S : Array State) (i j : Nat) : Prop :=
  ∃ w, Path S i w j

namespace Leads

theorem refl (S : Array State) (i : Nat) : Leads S i i :=
  ⟨[], .refl i⟩

theorem trans (h : Leads S i j) (h' : Leads S j k) : Leads S i k := by
  obtain ⟨v, p⟩ := h
  obtain ⟨w, p'⟩ := h'
  exact ⟨v ++ w, p.trans p'⟩

theorem silent {s : State} (hs : S[i]? = some s) (hj : j ∈ s.epsilons) : Leads S i j :=
  ⟨[], .silent hs hj (.refl j)⟩

end Leads

/-- Every state in `P` lies on a way from the entry of the fragment to its exit. -/
structure Fragment.Trim (f : Fragment) (S : Array State) (P : Set Nat) : Prop where
  reached : ∀ i ∈ P, Leads S f.entry i
  left : ∀ i ∈ P, Leads S i f.exit

namespace Fragment

namespace Trim

/-- A fragment is trim as long as the ways within it remain. -/
theorem of_paths (h : f.Trim S P) (hentry : f.entry ∈ P)
    (hpath : ∀ i ∈ P, ∀ w j, Path S i w j → Path T i w j) : f.Trim T P where
  reached i hi := (h.reached i hi).imp fun w p => hpath _ hentry w i p
  left i hi := (h.left i hi).imp fun w p => hpath i hi w _ p

/-- What happens to other states is of no concern. -/
theorem of_agree (h : f.Trim S P) (hf : f.Occupies S P) (hT : ∀ i ∈ P, T[i]? = S[i]?) :
    f.Trim T P :=
  h.of_paths hf.entry_mem fun _ hi _ _ p => (Path.of_agree hf.closed hT hi).mpr p

/-- An operand is as trim as it was before its exit was redirected. -/
theorem of_continues (h : f.Trim S P) (hf : f.Continues S T P X) : f.Trim T P :=
  h.of_paths hf.occupies.entry_mem fun _ hi _ _ p => hf.path hi p

/-- A new entry and a new exit around states that lie between them. -/
theorem enclose (hreached : ∀ i ∈ R, Leads S n i) (hleft : ∀ i ∈ R, Leads S i e)
    (hends : Leads S n e) : (⟨n, e⟩ : Fragment).Trim S (insert n (insert e R)) := by
  constructor
  · rintro i (rfl | rfl | hi)
    · exact .refl S i
    · exact hends
    · exact hreached i hi
  · rintro i (rfl | rfl | hi)
    · exact hends
    · exact .refl S i
    · exact hleft i hi

end Trim

/-- Through its exit, an operand leads to where the exit goes on to. -/
theorem Continues.leads (h : f.Continues S T P X) (ht : f.Trim S P) (hi : i ∈ P) (hj : j ∈ X) :
    Leads T i j :=
  ((ht.of_continues h).left i hi).trans (.silent h.exit_state hj)

end Fragment

/-! ## The operators -/

namespace Arena

theorem trim_symbol (A : Arena) (c : UInt8) :
    (A.symbol c).1.Trim (A.symbol c).2.states (insert A.size (insert (A.size + 1) ∅)) := by
  have hentry := getElem?_pushPair_entry A fun f => { edge := some (c, f.exit) }
  exact .enclose (by simp) (by simp) ⟨[c], .read hentry rfl (.refl _)⟩

theorem trim_concat (ha : a.Occupies A.states P) (hb : b.Occupies A.states Q) (hd : Disjoint P Q)
    (hat : a.Trim A.states P) (hbt : b.Trim A.states Q) :
    (A.concat a b).1.Trim (A.concat a b).2.states (P ∪ Q) := by
  have hcont := continues_concat (b := b) ha
  have hfirst := hat.of_continues hcont
  have hsecond := hbt.of_agree hb (getElem?_concat (b := b) ha hd)
  -- The second operand is entered from every state of the first one.
  have hbetween : ∀ i ∈ P, Leads (A.concat a b).2.states i b.entry :=
    fun i hi => hcont.leads hat hi (List.mem_singleton_self _)
  constructor
  · rintro i (hi | hi)
    · exact hfirst.reached i hi
    · exact (hbetween _ ha.entry_mem).trans (hsecond.reached i hi)
  · rintro i (hi | hi)
    · exact (hbetween i hi).trans (hsecond.left _ hb.entry_mem)
    · exact hsecond.left i hi

theorem trim_union (ha : a.Occupies A.states P) (hb : b.Occupies A.states Q) (hd : Disjoint P Q)
    (hat : a.Trim A.states P) (hbt : b.Trim A.states Q) :
    (A.union a b).1.Trim (A.union a b).2.states
      (insert A.size (insert (A.size + 1) (P ∪ Q))) := by
  obtain ⟨hacont, hbcont⟩ := continues_union ha hb hd
  obtain ⟨hentry, -⟩ := getElem?_union_pair (ha.lt_size ha.exit_mem) (hb.lt_size hb.exit_mem)
  have hleft : ∀ i ∈ P ∪ Q, Leads (A.union a b).2.states i (A.size + 1) := by
    rintro i (hi | hi)
    · exact hacont.leads hat hi (List.mem_singleton_self _)
    · exact hbcont.leads hbt hi (List.mem_singleton_self _)
  have hstart : Leads (A.union a b).2.states A.size a.entry := .silent hentry (by simp)
  refine .enclose ?_ hleft (hstart.trans (hleft _ (.inl ha.entry_mem)))
  rintro i (hi | hi)
  · exact hstart.trans ((hat.of_continues hacont).reached i hi)
  · exact .trans (.silent hentry (by simp)) ((hbt.of_continues hbcont).reached i hi)

theorem trim_repeated (q : Quantifier) (ha : a.Occupies A.states P) (hat : a.Trim A.states P) :
    (A.repeated q a).1.Trim (A.repeated q a).2.states
      (insert A.size (insert (A.size + 1) P)) := by
  have hcont := continues_repeated q ha
  obtain ⟨hentry, -⟩ := getElem?_repeated_pair q (ha.lt_size ha.exit_mem)
  have hpair : (A.repeated q a).1 = ⟨A.size, A.size + 1⟩ := by rw [repeated_eq]
  have hstart : Leads (A.repeated q a).2.states A.size a.entry := .silent hentry (by simp)
  have hleft : ∀ i ∈ P, Leads (A.repeated q a).2.states i (A.size + 1) :=
    fun i hi => hcont.leads hat hi List.mem_cons_self
  rw [hpair]
  refine .enclose ?_ hleft (hstart.trans (hleft _ ha.entry_mem))
  exact fun i hi => hstart.trans ((hat.of_continues hcont).reached i hi)

end Arena

/-! ## Regular expressions -/

/-- The first of two fragments stays trim when the second is made. -/
theorem Arena.Adds.trim_first (h : A.Adds B f L) (h' : B.Adds C g M)
    (ht : f.Trim B.states (Set.Ico A.size B.size)) : f.Trim C.states (Set.Ico A.size B.size) :=
  ht.of_agree h.occupies fun i hi => h'.getElem?_old i hi.2

/-- The states that are made for a regular expression are all of use. -/
theorem Regex.trim_assemble (r : Regex) (A : Arena) :
    (r.assemble A).1.Trim (r.assemble A).2.states (Set.Ico A.size (r.assemble A).2.size) := by
  induction r generalizing A with
  | symbol c =>
    have h := A.trim_symbol c
    rwa [← Set.Ico_self A.size, Arena.insert_pair_Ico le_rfl, ← A.size_symbol c] at h
  | concat first second ih₁ ih₂ =>
    have hfirst := first.adds_assemble A
    have hsecond := second.adds_assemble (first.assemble A).2
    rw [assemble, Arena.size_concat, ← Set.Ico_union_Ico_eq_Ico hfirst.size_le hsecond.size_le]
    exact Arena.trim_concat (hfirst.occupies_first hsecond) hsecond.occupies
      Set.Ico_disjoint_Ico_same (hfirst.trim_first hsecond (ih₁ A)) (ih₂ _)
  | union first second ih₁ ih₂ =>
    have hfirst := first.adds_assemble A
    have hsecond := second.adds_assemble (first.assemble A).2
    rw [assemble, Arena.size_union, ← Arena.insert_pair_Ico (hfirst.size_le_trans hsecond),
      ← Set.Ico_union_Ico_eq_Ico hfirst.size_le hsecond.size_le]
    exact Arena.trim_union (hfirst.occupies_first hsecond) hsecond.occupies
      Set.Ico_disjoint_Ico_same (hfirst.trim_first hsecond (ih₁ A)) (ih₂ _)
  | repeated q operand ih =>
    have h := operand.adds_assemble A
    rw [assemble, Arena.size_repeated, ← Arena.insert_pair_Ico h.size_le]
    exact Arena.trim_repeated q h.occupies (ih A)

end RegexLab
