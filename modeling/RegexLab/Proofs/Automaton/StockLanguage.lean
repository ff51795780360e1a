import RegexLab.Proofs.Automaton.Language
import RegexLab.Proofs.Automaton.Stock

/-!
# The languages of the fragments in stock

A fragment gets its language from the operation that makes it, and from those of the operands at
that moment. From then on it is in stock, and operations on other fragments do not reach it, so in
whatever order fragments are made, and whatever else is in stock at the end, each of them has the
language of its own history.

## Main definitions

* `Operation.language` — the language that an operation gives to what it makes.
* `Stock.languages` — the languages of all fragments after several operations.
* `Stock.Labelled` — the invariant: the fragments in stock have the languages that they are given.
-/

namespace RegexLab

open Computability

def Operation.language (op : Operation) (L : Fragment → Language UInt8) : Language UInt8 :=
  match op with
  | epsilon => 1
  | symbol c => {[c]}
  | concat a b => L a * L b
  | union a b => L a + L b
  | repeated q a => q.language (L a)

/-- Only the languages of the operands matter. -/
theorem Operation.language_congr {op : Operation} {L M : Fragment → Language UInt8}
    (h : ∀ f ∈ op.operands, L f = M f) : op.language L = op.language M := by
  cases op with
  | epsilon | symbol c => rfl
  | concat a b | union a b =>
    obtain ⟨ha, hb⟩ : L a = M a ∧ L b = M b := by simpa [operands] using h
    simp only [language, ha, hb]
  | repeated q a =>
    have ha : L a = M a := by simpa [operands] using h
    simp only [language, ha]

/-- Operands that share no state have their languages put together as the operator says. -/
theorem Arena.language_perform {A : Arena} (op : Operation) (part : Fragment → Set Nat)
    (hocc : ∀ f ∈ op.operands, f.Occupies A.states (part f))
    (hd : op.operands.Pairwise fun f g => Disjoint (part f) (part g)) :
    (A.perform op).2.language (A.perform op).1 = op.language A.language := by
  cases op with
  | epsilon => exact A.language_epsilon
  | symbol c => exact A.language_symbol c
  | concat a b =>
    have hab : Disjoint (part a) (part b) := by simpa [Operation.operands] using hd
    apply language_concat (hocc a _) (hocc b _) hab <;> simp [Operation.operands]
  | union a b =>
    have hab : Disjoint (part a) (part b) := by simpa [Operation.operands] using hd
    apply language_union (hocc a _) (hocc b _) hab <;> simp [Operation.operands]
  | repeated q a => exact language_repeated q (hocc a (by simp [Operation.operands]))

namespace Stock

/-- The languages of all fragments after several operations, given those before. Each operation
settles that of the fragment that it makes. -/
def languages (W : Stock) (L : Fragment → Language UInt8) :
    List Operation → Fragment → Language UInt8
  | [] => L
  | op :: ops =>
    match W.step op with
    | some W' => W'.languages (Function.update L (W.arena.perform op).1 (op.language L)) ops
    | none => L

variable {W W' : Stock} {op : Operation} {ops : List Operation} {part : Fragment → Set Nat}
  {L : Fragment → Language UInt8} {f : Fragment}

theorem languages_cons (h : W.step op = some W') :
    W.languages L (op :: ops) =
      W'.languages (Function.update L (W.arena.perform op).1 (op.language L)) ops := by
  simp only [languages, h]

/-- The fragments in stock share out the states of the arena, and have the given languages. -/
structure Labelled (W : Stock) (part : Fragment → Set Nat) (L : Fragment → Language UInt8) :
    Prop where
  parted : W.Parted part
  language_eq : ∀ f ∈ W.live, W.arena.language f = L f

namespace Labelled

/-- An operation gives a language to what it makes, and leaves all others alone. -/
theorem step (h : W.Labelled part L) (hstep : W.step op = some W') :
    W'.Labelled (Function.update part (W.arena.perform op).1 (op.piece W.arena part))
      (Function.update L (W.arena.perform op).1 (op.language L)) := by
  refine ⟨h.parted.step hstep, fun f hf => ?_⟩
  -- What is in stock now is the result, or was in stock before and is no operand.
  obtain ⟨hnodup, hlive, rfl⟩ := step_eq_some_iff.mp hstep
  cases List.mem_cons.mp hf with
  | inl hresult =>
    have hd : op.operands.Pairwise fun f g => Disjoint (part f) (part g) :=
      hnodup.imp_of_mem fun hf hg hne => h.parted.disjoint_of_ne (hlive _ hf) (hlive _ hg) hne
    rw [hresult, Function.update_self,
      Arena.language_perform op part (fun g hg => h.parted.occupies g (hlive g hg)) hd]
    exact Operation.language_congr fun g hg => h.language_eq g (hlive g hg)
  | inr hkept =>
    obtain ⟨hmem, hnot⟩ : f ∈ W.live ∧ f ∉ op.operands := by simpa using hkept
    have hagree := h.parted.getElem?_perform hlive hmem hnot
    rw [Function.update_of_ne (h.parted.ne_result hnodup hlive hmem hnot), ← h.language_eq f hmem]
    exact (h.parted.occupies f hmem).language_of_agree hagree

theorem run (h : W.Labelled part L) (hrun : W.run ops = some W') :
    ∃ part', W'.Labelled part' (W.languages L ops) := by
  induction ops generalizing W part L with
  | nil =>
    obtain rfl := Option.some.inj hrun
    exact ⟨part, h⟩
  | cons op ops ih =>
    obtain ⟨V, hstep, hrun⟩ := Option.bind_eq_some_iff.mp hrun
    rw [languages_cons hstep]
    exact ih (h.step hstep) hrun

end Labelled

/-- After every run on fragments in stock, the automaton of each fragment that is left accepts the
language that the operations have given to it. -/
theorem accepts_iff_mem_languages (h : run {} ops = some W) :
    ∀ f ∈ W.live, ∃ a, W.arena.extract f = .ok (a, {}) ∧
      ∀ w, a.accepts w = true ↔ w ∈ languages {} (fun _ => 0) ops f := by
  have hinit : Labelled {} (fun _ => ∅) fun _ => 0 := ⟨.init _, by simp⟩
  obtain ⟨part, hlabelled⟩ := hinit.run h
  intro f hf
  have hocc := hlabelled.parted.occupies f hf
  have hextract := Arena.extract_of_occupies hocc
  refine ⟨_, hextract, fun w => ?_⟩
  rw [Arena.accepts_iff_of_extract hocc hextract, hlabelled.language_eq f hf]

/-- An optional symbol before another one, any number of times; a third symbol is made between
these operations and is left beside the result. -/
theorem accepts_iff_mem_languages_loopAndSymbol :
    ∃ W : Stock, run {} [.symbol 0x61, .symbol 0x62, .repeated .opt ⟨0, 1⟩, .symbol 0x63,
        .concat ⟨4, 5⟩ ⟨2, 3⟩, .repeated .star ⟨4, 3⟩] = some W ∧
      W.live = [⟨8, 9⟩, ⟨6, 7⟩] ∧ ∃ a b, W.arena.extract ⟨8, 9⟩ = .ok (a, {}) ∧
      W.arena.extract ⟨6, 7⟩ = .ok (b, {}) ∧
      (∀ w, a.accepts w = true ↔ w ∈ ((1 + {[0x61]}) * {[0x62]} : Language UInt8)∗) ∧
      ∀ w, b.accepts w = true ↔ w ∈ ({[0x63]} : Language UInt8) := by
  obtain ⟨W, hrun⟩ : ∃ W : Stock, run {} [.symbol 0x61, .symbol 0x62, .repeated .opt ⟨0, 1⟩,
      .symbol 0x63, .concat ⟨4, 5⟩ ⟨2, 3⟩, .repeated .star ⟨4, 3⟩] = some W := ⟨_, rfl⟩
  have hlive : W.live = [⟨8, 9⟩, ⟨6, 7⟩] := by
    obtain rfl := Option.some.inj hrun
    rfl
  obtain ⟨a, ha, hloop⟩ := accepts_iff_mem_languages hrun ⟨8, 9⟩ (by simp [hlive])
  obtain ⟨b, hb, hsymbol⟩ := accepts_iff_mem_languages hrun ⟨6, 7⟩ (by simp [hlive])
  exact ⟨W, hrun, hlive, a, b, ha, hb, hloop, hsymbol⟩

end Stock

end RegexLab
