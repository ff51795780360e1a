import RegexLab.Proofs.Automaton.Piece

/-!
# The languages of fragments

A way through a fragment ends at its exit for the first time. What follows depends on where the
exit goes on to, so the language of the fragment that an operation makes is that of its operands
put together as the operator says. A loop is cut each time it passes the exit.

## Main definitions

* `Arena.language` — the words read on the way through a fragment.
* `Quantifier.language` — the language of a repetition.
-/

namespace RegexLab

open Computability

variable {S T : Array State} {P Q : Set Nat} {X : List Nat} {A : Arena} {a b f : Fragment}
  {K : Language UInt8} {i j e : Nat} {u v w : Bytes}

/-- The words that can be read on the way through a fragment. -/
def Arena.language (A : Arena) (f : Fragment) : Language UInt8 :=
  wordsBetween A.states f.entry f.exit

def Quantifier.language (q : Quantifier) (L : Language UInt8) : Language UInt8 :=
  match q with
  | star => L∗
  | plus => L * L∗
  | opt => 1 + L

/-- The words that may follow the first pass through an operand. -/
def Quantifier.rest (q : Quantifier) (L : Language UInt8) : Language UInt8 :=
  if q.loops then L∗ else 1

theorem Quantifier.language_eq (q : Quantifier) (L : Language UInt8) :
    q.language L = (if q.skips then 1 else 0) + L * q.rest L := by
  cases q with
  | star => exact (Language.one_add_self_mul_kstar_eq_kstar L).symm
  | plus => exact (zero_add _).symm
  | opt => simp [language, skips, rest, loops]

/-! ## Ways through an operand -/

theorem Path.leave (hs : S[i]? = some { epsilons := X }) (hne : i ≠ e) :
    Path S i w e ↔ ∃ j ∈ X, Path S j w e := by
  constructor
  · intro p
    cases p with
    | refl => exact absurd rfl hne
    | silent ht hj p =>
      obtain rfl := Option.some.inj (hs.symm.trans ht)
      exact ⟨_, hj, p⟩
    | read ht he _ =>
      obtain rfl := Option.some.inj (hs.symm.trans ht)
      simp at he
  · rintro ⟨j, hj, p⟩
    exact .silent hs hj p

theorem Path.leave_reading {c : UInt8} (hs : S[i]? = some { edge := some (c, j) }) (hne : i ≠ e) :
    Path S i w e ↔ ∃ v, w = c :: v ∧ Path S j v e := by
  constructor
  · intro p
    cases p with
    | refl => exact absurd rfl hne
    | silent ht hk _ =>
      obtain rfl := Option.some.inj (hs.symm.trans ht)
      simp at hk
    | read ht he p =>
      obtain rfl := Option.some.inj (hs.symm.trans ht)
      obtain ⟨rfl, rfl⟩ := Prod.mk.inj (Option.some.inj he)
      exact ⟨_, rfl, p⟩
  · rintro ⟨v, rfl, p⟩
    exact .read hs rfl p

namespace Fragment

theorem Occupies.language_of_agree {B : Arena} (h : f.Occupies A.states P)
    (hB : ∀ i ∈ P, B.states[i]? = A.states[i]?) : B.language f = A.language f := by
  ext w
  exact Path.of_agree h.closed hB h.entry_mem

/-- Nothing but the exit itself is reached from an exit. -/
theorem Occupies.path_exit_iff (h : f.Occupies S P) : Path S f.exit w j ↔ j = f.exit ∧ w = [] := by
  constructor
  · exact Path.eq_of_final fun _ => h.exit_final
  · rintro ⟨rfl, rfl⟩
    exact .refl _

theorem Occupies.wordsBetween_exit (h : f.Occupies S P) : wordsBetween S f.exit f.exit = 1 := by
  ext w
  exact h.path_exit_iff.trans (and_iff_right rfl)

namespace Continues

/-- Ways within the fragment are what they were, for they do not go on from the exit. -/
theorem path (h : f.Continues S T P X) (hi : i ∈ P) (p : Path S i w j) : Path T i w j := by
  induction p with
  | refl => exact .refl _
  | @silent i j k w s hs hj _ ih =>
    have hij : Edge S i j := .silent hs hj
    have hne : i ≠ f.exit := fun heq => h.occupies.exit_final (heq ▸ hij)
    exact .silent ((h.rest i hi hne).trans hs) hj (ih (h.occupies.closed i hi j hij))
  | @read i j k c w s hs hedge _ ih =>
    have hij : Edge S i j := .read hs hedge
    have hne : i ≠ f.exit := fun heq => h.occupies.exit_final (heq ▸ hij)
    exact .read ((h.rest i hi hne).trans hs) hedge (ih (h.occupies.closed i hi j hij))

/-- A way out passes the exit. What is read after that is in `K`, if `K` has what is read where
the exit leads out and if going back to the entry leads to nothing new. -/
theorem mem_mul (h : f.Continues S T P X) (he : e ∉ P)
    (hout : ∀ j ∈ X, j ∉ P → ∀ v, Path T j v e → v ∈ K)
    (hback : ∀ j ∈ X, j ∈ P → j = f.entry ∧ wordsBetween S f.entry f.exit * K ≤ K)
    (hi : i ∈ P) (p : Path T i w e) : w ∈ wordsBetween S i f.exit * K := by
  induction p with
  | refl => exact absurd hi he
  | @silent i j k w t ht hj p ih =>
    obtain rfl | hne := eq_or_ne i f.exit
    · obtain rfl := Option.some.inj (h.exit_state.symm.trans ht)
      refine Language.mem_mul.mpr ⟨[], .refl _, w, ?_, rfl⟩
      by_cases hjP : j ∈ P
      · obtain ⟨rfl, hle⟩ := hback j hj hjP
        exact hle (ih he hout hjP)
      · exact hout j hj hjP w p
    · have hs := (h.rest i hi hne).symm.trans ht
      have hjP := h.occupies.closed i hi j (.silent hs hj)
      obtain ⟨u, hu, v, hv, rfl⟩ := Language.mem_mul.mp (ih he hout hjP)
      exact Language.mem_mul.mpr ⟨u, .silent hs hj hu, v, hv, rfl⟩
  | @read i j k c w t ht hedge p ih =>
    obtain rfl | hne := eq_or_ne i f.exit
    · obtain rfl := Option.some.inj (h.exit_state.symm.trans ht)
      simp at hedge
    · have hs := (h.rest i hi hne).symm.trans ht
      have hjP := h.occupies.closed i hi j (.read hs hedge)
      obtain ⟨u, hu, v, hv, rfl⟩ := Language.mem_mul.mp (ih he hout hjP)
      exact Language.mem_mul.mpr ⟨c :: u, .read hs hedge hu, v, hv, rfl⟩

/-- The words read from the entry to a place outside are those of the fragment followed by what
is read from its exit. -/
theorem wordsBetween_entry (h : f.Continues S T P X) (he : e ∉ P)
    (hout : ∀ j ∈ X, j ∉ P → ∀ v, Path T j v e → v ∈ K)
    (hback : ∀ j ∈ X, j ∈ P → j = f.entry ∧ wordsBetween S f.entry f.exit * K ≤ K)
    (hK : ∀ v ∈ K, Path T f.exit v e) :
    wordsBetween T f.entry e = wordsBetween S f.entry f.exit * K := by
  ext w
  constructor
  · exact h.mem_mul he hout hback h.occupies.entry_mem
  · intro hw
    obtain ⟨u, hu, v, hv, rfl⟩ := Language.mem_mul.mp hw
    exact (h.path h.occupies.entry_mem hu).trans (hK v hv)

/-- The exit leads to one place outside, from where nothing is read twice. -/
theorem wordsBetween_of_forward {n : Nat} (h : f.Continues S T P [n]) (hn : n ∉ P) (he : e ∉ P) :
    wordsBetween T f.entry e = wordsBetween S f.entry f.exit * wordsBetween T n e := by
  refine h.wordsBetween_entry he ?_ ?_ ?_
  · intro j hj _ v p
    obtain rfl := List.mem_singleton.mp hj
    exact p
  · intro j hj hjP
    obtain rfl := List.mem_singleton.mp hj
    exact absurd hjP hn
  · intro v p
    exact .silent h.exit_state (List.mem_singleton_self n) p

/-- The exit leads to the end, and back to the entry. -/
theorem wordsBetween_of_loop (h : f.Continues S T P [e, f.entry]) (he : e ∉ P)
    (hfinal : wordsBetween T e e = 1) :
    wordsBetween T f.entry e =
      wordsBetween S f.entry f.exit * (wordsBetween S f.entry f.exit)∗ := by
  refine h.wordsBetween_entry he ?_ ?_ ?_
  · intro j hj hjP v p
    obtain rfl | rfl : j = e ∨ j = f.entry := by simpa using hj
    · have hv : v ∈ wordsBetween T j j := p
      obtain rfl := (Language.mem_one v).mp (hfinal ▸ hv)
      exact Language.nil_mem_kstar _
    · exact absurd h.occupies.entry_mem hjP
  · intro j hj hjP
    obtain rfl | rfl : j = e ∨ j = f.entry := by simpa using hj
    · exact absurd hjP he
    · exact ⟨rfl, mul_kstar_le_kstar⟩
  · intro v hv
    obtain ⟨passes, rfl, hpasses⟩ := Language.mem_kstar.mp hv
    clear hv
    induction passes with
    | nil => exact .silent h.exit_state (by simp) (.refl e)
    | cons u passes ih =>
      have hu : Path T f.entry u f.exit :=
        h.path h.occupies.entry_mem (hpasses u List.mem_cons_self)
      have hrest := ih fun y hy => hpasses y (List.mem_cons_of_mem u hy)
      exact .silent h.exit_state (by simp) (hu.trans hrest)

end Continues

end Fragment

/-! ## The operators -/

namespace Arena

theorem language_epsilon (A : Arena) : A.epsilon.2.language A.epsilon.1 = 1 := by
  have hentry := getElem?_pushPair_entry A fun f => { epsilons := [f.exit] }
  ext w
  refine (Path.leave hentry A.size.ne_add_one).trans ?_
  simp only [List.mem_singleton, exists_eq_left]
  exact A.occupies_epsilon.path_exit_iff.trans (and_iff_right rfl)

theorem language_symbol (A : Arena) (c : UInt8) :
    (A.symbol c).2.language (A.symbol c).1 = {[c]} := by
  have hentry := getElem?_pushPair_entry A fun f => { edge := some (c, f.exit) }
  have hexit : ∀ v, Path (A.symbol c).2.states (A.size + 1) v (A.size + 1) ↔ v = [] :=
    fun v => (A.occupies_symbol c).path_exit_iff.trans (and_iff_right rfl)
  ext w
  refine (Path.leave_reading hentry A.size.ne_add_one).trans ?_
  constructor
  · rintro ⟨v, rfl, p⟩
    obtain rfl := (hexit v).mp p
    rfl
  · rintro rfl
    exact ⟨[], rfl, .refl _⟩

theorem language_concat (ha : a.Occupies A.states P) (hb : b.Occupies A.states Q)
    (hd : Disjoint P Q) :
    (A.concat a b).2.language (A.concat a b).1 = A.language a * A.language b := by
  have hcont := continues_concat (b := b) ha
  have hsecond := hb.language_of_agree (getElem?_concat (b := b) ha hd)
  rw [← hsecond]
  exact hcont.wordsBetween_of_forward (Set.disjoint_right.mp hd hb.entry_mem)
    (Set.disjoint_right.mp hd hb.exit_mem)

theorem language_union (ha : a.Occupies A.states P) (hb : b.Occupies A.states Q)
    (hd : Disjoint P Q) :
    (A.union a b).2.language (A.union a b).1 = A.language a + A.language b := by
  obtain ⟨hacont, hbcont⟩ := continues_union ha hb hd
  obtain ⟨hentry, -⟩ := getElem?_union_pair (ha.lt_size ha.exit_mem) (hb.lt_size hb.exit_mem)
  have hP : A.size + 1 ∉ P := fun h => absurd (ha.lt_size h) (by simp [size])
  have hQ : A.size + 1 ∉ Q := fun h => absurd (hb.lt_size h) (by simp [size])
  have hexit : wordsBetween (A.union a b).2.states (A.size + 1) (A.size + 1) = 1 :=
    (occupies_union ha hb hd).wordsBetween_exit
  have hfirst := hacont.wordsBetween_of_forward hP hP
  have hsecond := hbcont.wordsBetween_of_forward hQ hQ
  rw [hexit, mul_one] at hfirst hsecond
  ext w
  refine (Path.leave hentry A.size.ne_add_one).trans ?_
  simp only [List.mem_cons, List.not_mem_nil, or_false, exists_eq_or_imp, exists_eq_left,
    ← mem_wordsBetween, hfirst, hsecond]
  rfl

theorem language_repeated (q : Quantifier) (ha : a.Occupies A.states P) :
    (A.repeated q a).2.language (A.repeated q a).1 = q.language (A.language a) := by
  have hcont := continues_repeated q ha
  obtain ⟨hentry, -⟩ := getElem?_repeated_pair q (ha.lt_size ha.exit_mem)
  have hpair : (A.repeated q a).1 = ⟨A.size, A.size + 1⟩ := by rw [repeated_eq]
  have hP : A.size + 1 ∉ P := fun h => absurd (ha.lt_size h) (by simp [size])
  have hexit : wordsBetween (A.repeated q a).2.states (A.size + 1) (A.size + 1) = 1 := by
    have h := (occupies_repeated q ha).wordsBetween_exit
    rwa [hpair] at h
  have hbody : wordsBetween (A.repeated q a).2.states a.entry (A.size + 1) =
      A.language a * q.rest (A.language a) := by
    unfold Quantifier.rest
    cases hq : q.loops with
    | true =>
      rw [hq] at hcont
      exact hcont.wordsBetween_of_loop hP hexit
    | false =>
      rw [hq] at hcont
      have hforward := hcont.wordsBetween_of_forward hP hP
      rwa [hexit] at hforward
  rw [Quantifier.language_eq, hpair]
  ext w
  refine (Path.leave hentry A.size.ne_add_one).trans ?_
  rw [← hbody]
  cases q.skips with
  | true =>
    simp only [if_true, List.singleton_append, List.mem_cons, List.not_mem_nil, or_false,
      exists_eq_or_imp, exists_eq_left, ← mem_wordsBetween, hexit]
    rfl
  | false => simp

/-! ## The finished automaton -/

/-- The automaton of a fragment accepts the words of the fragment, whatever else is in the arena. -/
theorem accepts_iff_of_extract {m : Automaton} {B : Arena} (hf : f.Occupies A.states P)
    (hm : A.extract f = .ok (m, B)) (w : Bytes) : m.accepts w = true ↔ w ∈ A.language f := by
  obtain ⟨-, rfl, -⟩ := extract_eq_ok_iff.mp hm
  refine (Automaton.accepts_iff _ w).trans ?_
  constructor
  · rintro ⟨j, s, p, hs, haccept⟩
    have hj : j ∈ P := p.mem_of_closed hf.closed hf.entry_mem
    obtain rfl | hne := eq_or_ne j f.exit
    · exact p
    · obtain ⟨t, ht, hinner⟩ := hf.inner j hj hne
      obtain rfl := Option.some.inj (hs.symm.trans ht)
      simp [hinner.1] at haccept
  · intro p
    exact ⟨f.exit, _, p, hf.exit_state, rfl⟩

theorem extract_of_occupies (hf : f.Occupies A.states P) :
    A.extract f = .ok ({ states := A.states, entry := f.entry, exit := f.exit }, {}) :=
  extract_eq_ok_iff.mpr ⟨⟨hf.lt_size hf.entry_mem, hf.lt_size hf.exit_mem⟩, rfl, rfl⟩

end Arena

end RegexLab
