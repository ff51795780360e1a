import RegexLab.Proofs.Pattern
import RegexLab.Proofs.Postfix.Spelling
import RegexLab.Proofs.Regex.Size
import RegexLab.Proofs.Regex.ToTree

/-!
# Compiling postfix texts

A postfix text is turned into a tree, which is compiled like any other. On the way runs may be
nested another way and groups may be added; neither changes the words that are accepted, the number
of states or the number of edges.
-/

namespace RegexLab

open Computability

variable {t : Tree} {r s : Regex} {b b' : Build} {ts : Bytes} {e : RegexError}

/-! ## Size -/

theorem Regex.Regrouped.stateCount_eq (h : Regrouped r s) : r.stateCount = s.stateCount := by
  induction h with
  | refl r => rfl
  | trans _ _ ih ih' => exact ih.trans ih'
  | concat _ _ iha ihb | union _ _ iha ihb => simp only [stateCount, iha, ihb]
  | repeated q _ ih => simp only [stateCount, ih]
  | concat_assoc a b c | union_assoc a b c =>
    simp only [stateCount]
    omega

theorem Regex.Regrouped.edgeCount_eq (h : Regrouped r s) : r.edgeCount = s.edgeCount := by
  induction h with
  | refl r => rfl
  | trans _ _ ih ih' => exact ih.trans ih'
  | concat _ _ iha ihb | union _ _ iha ihb => simp only [edgeCount, iha, ihb]
  | repeated q _ ih => simp only [edgeCount, ih]
  | concat_assoc a b c | union_assoc a b c =>
    simp only [edgeCount]
    omega

/-- The automaton has the language and the size of the regular expression. -/
structure Build.Fits (b : Build) (r : Regex) : Prop where
  accepts_iff : ∀ w, b.automaton.accepts w = true ↔ w ∈ r.language
  size_eq : b.automaton.size = r.stateCount
  edgeCount_eq : b.automaton.edgeCount = r.edgeCount

/-- The automaton of a tree fits the regular expression that the tree means. -/
theorem Tree.Means.fits_of_buildTree (h : t.Means r) (hb : buildTree t = .ok b) : b.Fits r := by
  obtain ⟨-, hautomaton, -⟩ := Arena.extract_eq_ok_iff.mp (h.extract_assemble hb)
  refine ⟨fun w => ?_, ?_, ?_⟩
  · rw [accepts_buildTree_iff hb, h.language_eq]
  · rw [hautomaton]
    exact r.size_assemble_empty
  · rw [Automaton.edgeCount_eq, hautomaton]
    exact (r.edgeCount_assemble {}).trans (Nat.zero_add _)

theorem Build.Fits.of_regrouped (hb : b.Fits s) (h : r.Regrouped s) : b.Fits r where
  accepts_iff w := by rw [hb.accepts_iff, h.language_eq]
  size_eq := hb.size_eq.trans h.stateCount_eq.symm
  edgeCount_eq := hb.edgeCount_eq.trans h.edgeCount_eq.symm

/-! ## Postfix texts -/

theorem buildPostfix_of_error (hts : ts ≠ []) (h : Regex.ofPostfix ts = .error e) :
    buildPostfix ts = .error e := by
  have hempty : ts.isEmpty = false := by simpa using hts
  simp [buildPostfix, hempty, Tree.ofPostfix, h, bind, Except.bind]

/-- The tree of a postfix text is compiled. -/
theorem buildPostfix_of_tree (h : Tree.ofPostfix ts = .ok t) : buildPostfix ts = buildTree t := by
  cases ts with
  | nil => cases h
  | cons c ts => rw [buildPostfix, h]; rfl

/-- A postfix text that spells a regular expression compiles to an automaton that fits it, if there
is room for the states. -/
theorem exists_buildPostfix (h : Regex.ofPostfix ts = .ok r) (hroom : r.stateCount ≤ Arena.limit) :
    ∃ b, buildPostfix ts = .ok b ∧ b.Fits r := by
  obtain ⟨s, hs, hgroup⟩ := r.exists_means_toTree
  obtain ⟨b, hb, -⟩ := hs.exists_buildTree (hgroup.stateCount_eq ▸ hroom)
  have htree := buildPostfix_of_tree (Tree.ofPostfix_eq_ok_iff.mpr ⟨r, h, rfl⟩)
  exact ⟨b, htree.trans hb, (hs.fits_of_buildTree hb).of_regrouped hgroup⟩

theorem buildPostfix_of_lt (h : Regex.ofPostfix ts = .ok r) (hmany : Arena.limit < r.stateCount) :
    buildPostfix ts = .error .tooManyStates := by
  obtain ⟨s, hs, hgroup⟩ := r.exists_means_toTree
  rw [buildPostfix_of_tree (Tree.ofPostfix_eq_ok_iff.mpr ⟨r, h, rfl⟩)]
  exact hs.buildTree_of_lt (hgroup.stateCount_eq ▸ hmany)

/-- The number of states of the automaton of a postfix text: two for each symbol and for each
operator but the dot. -/
def Postfix.stateCount (ts : Bytes) : Nat :=
  2 * ts.countP (· != dot)

theorem Postfix.stateCount_append (ts us : Bytes) :
    stateCount (ts ++ us) = stateCount ts + stateCount us := by
  rw [stateCount, List.countP_append, Nat.mul_add, stateCount, stateCount]

theorem Regex.stateCount_postfixText (hr : r.Writable) :
    Postfix.stateCount r.postfixText = r.stateCount := by
  induction r with
  | symbol c =>
    have hc : c ∉ ascii ".|*+?" := Token.ofByte_eq_symbol_iff.mp (hr c (by simp [symbols]))
    have hdot : c ≠ dot := by
      rintro rfl
      exact hc (by decide)
    simp [Postfix.stateCount, postfixText, stateCount, hdot]
  | concat a b iha ihb =>
    obtain ⟨ha, hb⟩ := List.forall_mem_append.mp hr
    have hdot : Postfix.stateCount [dot] = 0 := by decide
    simp only [postfixText, Postfix.stateCount_append, iha ha, ihb hb, hdot, stateCount]
    omega
  | union a b iha ihb =>
    obtain ⟨ha, hb⟩ := List.forall_mem_append.mp hr
    have hbar : Postfix.stateCount [bar] = 2 := by decide
    simp only [postfixText, Postfix.stateCount_append, iha ha, ihb hb, hbar, stateCount]
  | repeated q a ih =>
    have hmark : Postfix.stateCount [q.byte] = 2 := by cases q <;> decide
    simp only [postfixText, Postfix.stateCount_append, ih hr, hmark, stateCount]

/-- The states of what a postfix text spells can be counted on the text. -/
theorem Regex.stateCount_of_ofPostfix (h : ofPostfix ts = .ok r) :
    r.stateCount = Postfix.stateCount ts := by
  rw [← stateCount_postfixText (writable_of_ofPostfix h), postfixText_of_ofPostfix h]

/-- A text that leaves one operand does not compile without room for its states. -/
theorem buildPostfix_of_count_of_lt (h : Postfix.count 0 ts = some 1)
    (hmany : Arena.limit < Postfix.stateCount ts) : buildPostfix ts = .error .tooManyStates := by
  obtain ⟨r, hr, -⟩ := Regex.exists_ofPostfix h
  rw [← Regex.stateCount_of_ofPostfix hr] at hmany
  exact buildPostfix_of_lt hr hmany

/-- A postfix text compiles unless it has no tree or too many states. -/
theorem buildPostfix_cases (ts : Bytes) :
    (∃ e, ts ≠ [] ∧ Tree.ofPostfix ts = .error e ∧ buildPostfix ts = .error e) ∨
    (Arena.limit < Postfix.stateCount ts ∧ (∃ t, Tree.ofPostfix ts = .ok t) ∧
      buildPostfix ts = .error .tooManyStates) ∨
    (Postfix.stateCount ts ≤ Arena.limit ∧ ∃ b, buildPostfix ts = .ok b) := by
  by_cases hts : ts = []
  · subst hts
    obtain ⟨b, hb, -⟩ := exists_ofEmpty
    exact .inr (.inr ⟨Nat.zero_le _, b, hb⟩)
  · cases hr : Regex.ofPostfix ts with
    | error e =>
      have htree : Tree.ofPostfix ts = .error e := by rw [Tree.ofPostfix_eq, hr]; rfl
      exact .inl ⟨e, hts, htree, buildPostfix_of_error hts hr⟩
    | ok r =>
      have htree := Tree.ofPostfix_eq_ok_iff.mpr ⟨r, hr, rfl⟩
      rw [← Regex.stateCount_of_ofPostfix hr]
      by_cases hroom : r.stateCount ≤ Arena.limit
      · obtain ⟨b, hb, -⟩ := exists_buildPostfix hr hroom
        exact .inr (.inr ⟨hroom, b, hb⟩)
      · have hmany := Nat.lt_of_not_le hroom
        exact .inr (.inl ⟨hmany, ⟨_, htree⟩, buildPostfix_of_lt hr hmany⟩)

/-- What happens to a postfix text is a matter of counting operands: the first operator that finds
too few is reported at its place, then operands that are left over, at the end of the text. A text
that leaves one operand compiles if there is room for its states, and its automaton accepts the
language that the text evaluates to; without room, that is what is reported. The empty text compiles
to the automaton of the empty word, but has no tree. -/
theorem buildPostfix_outcome :
    (∀ ts i c, Postfix.Starves 0 ts i c → ∃ e, buildPostfix ts = .error e ∧
      e = .missingOperand c i ∧ e.position? = some i) ∧
    (∀ ts n, Postfix.count 0 ts = some n → 2 ≤ n → ∃ e, buildPostfix ts = .error e ∧
      e = .missingOperators (n - 1) ts.length ∧ e.position? = some ts.length) ∧
    (∀ ts, Postfix.count 0 ts = some 1 → Postfix.stateCount ts ≤ Arena.limit →
      ∃ b L, buildPostfix ts = .ok b ∧ Postfix.evaluate [] ts = some [L] ∧
        ∀ w, b.automaton.accepts w = true ↔ w ∈ L) ∧
    (∀ ts, Postfix.count 0 ts = some 1 → Arena.limit < Postfix.stateCount ts →
      buildPostfix ts = .error .tooManyStates) ∧
    (∀ ts ≠ [], (∃ i c, Postfix.Starves 0 ts i c) ∨ ∃ n, 1 ≤ n ∧ Postfix.count 0 ts = some n) ∧
    (∃ b, buildPostfix [] = .ok b ∧ ∀ w, b.automaton.accepts w = true ↔ w = []) ∧
    ∃ e, Tree.ofPostfix [] = .error e ∧ e = .emptyPostfix ∧ e.position? = some 0 := by
  refine ⟨?_, ?_, ?_, fun ts => buildPostfix_of_count_of_lt, ?_, exists_ofEmpty, _, rfl, rfl, rfl⟩
  · intro ts i c h
    have hts : ts ≠ [] := by
      rintro rfl
      simp [Postfix.Starves] at h
    exact ⟨_, buildPostfix_of_error hts (Regex.ofPostfix_of_starves h), rfl, rfl⟩
  · intro ts n h hn
    have hts : ts ≠ [] := by
      rintro rfl
      obtain rfl := Option.some.inj h
      omega
    exact ⟨_, buildPostfix_of_error hts (Regex.ofPostfix_of_two_le h hn), rfl, rfl⟩
  · intro ts h hfits
    obtain ⟨r, hr, heval⟩ := Regex.exists_ofPostfix h
    rw [← Regex.stateCount_of_ofPostfix hr] at hfits
    obtain ⟨b, hb, hb'⟩ := exists_buildPostfix hr hfits
    exact ⟨b, r.language, hb, heval, hb'.accepts_iff⟩
  · intro ts hts
    apply (Postfix.starves_or_count 0 ts).imp_right
    rintro ⟨n, hn⟩
    exact ⟨n, Postfix.count_pos hn hts, hn⟩

/-- An operator that finds one operand, an operand that is left over, and a loop over a group of
alternatives before a symbol. -/
theorem buildPostfix_outcome_starThenSymbol :
    Postfix.Starves 0 (ascii "ab|.*") 3 dot ∧
      buildPostfix (ascii "ab|.*") = .error (.missingOperand dot 3) ∧
    Postfix.count 0 (ascii "abc.") = some 2 ∧
      buildPostfix (ascii "abc.") = .error (.missingOperators 1 4) ∧
    Postfix.count 0 (ascii "ab|*c.") = some 1 ∧
      Postfix.stateCount (ascii "ab|*c.") ≤ Arena.limit ∧
      ∃ b, buildPostfix (ascii "ab|*c.") = .ok b ∧
        ∀ w, b.automaton.accepts w = true ↔
          w ∈ (({[0x61]} + {[0x62]})∗ * {[0x63]} : Language UInt8) := by
  have hstarves : Postfix.Starves 0 (ascii "ab|.*") 3 dot := ⟨rfl, 1, rfl, by decide⟩
  have htwo : Postfix.count 0 (ascii "abc.") = some 2 := rfl
  have hone : Postfix.count 0 (ascii "ab|*c.") = some 1 := rfl
  have hfits : Postfix.stateCount (ascii "ab|*c.") ≤ Arena.limit := by decide +kernel
  obtain ⟨hmissing, hover, hcompile, -⟩ := buildPostfix_outcome
  obtain ⟨_, hdot, rfl, -⟩ := hmissing _ _ _ hstarves
  obtain ⟨_, hend, rfl, -⟩ := hover _ _ htwo le_rfl
  obtain ⟨b, L, hb, heval, haccepts⟩ := hcompile _ hone hfits
  obtain rfl := (List.cons.inj (Option.some.inj heval)).1
  exact ⟨hstarves, hdot, htwo, hend, hone, hfits, b, hb, haccepts⟩

/-- A symbol in loops leaves one operand, however many loops there are. -/
theorem Postfix.count_loops (q : Quantifier) (n : Nat) :
    count 0 (0x61 :: List.replicate n q.byte) = some 1 := by
  have hloops : count 1 (List.replicate n q.byte) = some 1 := by
    induction n with
    | zero => rfl
    | succ n ih => simpa [List.replicate_succ, count] using ih
  exact hloops

theorem Postfix.stateCount_loops (q : Quantifier) (n : Nat) :
    stateCount (0x61 :: List.replicate n q.byte) = 2 * (n + 1) := by
  have hsymbol : (0x61 != dot) = true := by decide
  have hmark : (q.byte != dot) = true := by cases q <;> decide
  simp [stateCount, List.countP_replicate, hsymbol, hmark]

theorem Tree.exists_ofPostfix_loops (q : Quantifier) (n : Nat) :
    ∃ t, Tree.ofPostfix (0x61 :: List.replicate n q.byte) = .ok t := by
  obtain ⟨r, hr, -⟩ := Regex.exists_ofPostfix (Postfix.count_loops q n)
  exact ⟨r.toTree, Tree.ofPostfix_eq_ok_iff.mpr ⟨r, hr, rfl⟩⟩

theorem Postfix.limit_lt_stateCount_loops (q : Quantifier) :
    Arena.limit < stateCount (0x61 :: List.replicate (2 ^ 31 - 1) q.byte) := by
  rw [stateCount_loops]
  decide

/-- A symbol in so many loops that there is no room for all the states. -/
theorem buildPostfix_outcome_tooManyLoops :
    Postfix.count 0 (0x61 :: List.replicate (2 ^ 31 - 1) Quantifier.star.byte) = some 1 ∧
      buildPostfix (0x61 :: List.replicate (2 ^ 31 - 1) Quantifier.star.byte) =
        .error .tooManyStates :=
  have hcount := Postfix.count_loops .star (2 ^ 31 - 1)
  ⟨hcount, buildPostfix_of_count_of_lt hcount (Postfix.limit_lt_stateCount_loops .star)⟩

/-! ## Trees and their postfix texts -/

structure Build.Alike (b b' : Build) : Prop where
  accepts_eq : ∀ w, b.automaton.accepts w = b'.automaton.accepts w
  size_eq : b.automaton.size = b'.automaton.size
  edgeCount_eq : b.automaton.edgeCount = b'.automaton.edgeCount

theorem Build.Fits.alike (hb : b.Fits r) (hb' : b'.Fits r) : b.Alike b' where
  accepts_eq w := Bool.eq_iff_iff.mpr ((hb.accepts_iff w).trans (hb'.accepts_iff w).symm)
  size_eq := hb.size_eq.trans hb'.size_eq.symm
  edgeCount_eq := hb.edgeCount_eq.trans hb'.edgeCount_eq.symm

theorem Tree.Means.exists_buildPostfix (h : t.Means r) (hts : t.postfixText = .ok ts)
    (hfits : r.stateCount ≤ Arena.limit) : ∃ b, buildPostfix ts = .ok b ∧ b.Fits r := by
  obtain ⟨hr, rfl⟩ := (postfixText_eq_ok_iff h).mp hts
  exact RegexLab.exists_buildPostfix (Regex.ofPostfix_postfixText hr) hfits

/-- Writing a tree as a postfix text and compiling that is as good as compiling the tree: the same
words are accepted, and the automata have the same size. A pattern has a postfix text if none of
its literals is an operator there, and then both compile if there is room for the states, and
neither does if there is none. -/
theorem alike_of_postfixText :
    (∀ t b ts, buildTree t = .ok b → t.postfixText = .ok ts →
      ∃ b', buildPostfix ts = .ok b' ∧ b'.Alike b) ∧
    ∀ p t, parse p = .ok t → (∀ c ∈ literals p, c ∉ ascii ".|*+?") →
      ∃ ts, t.postfixText = .ok ts ∧
        (t.stateCount ≤ Arena.limit →
          ∃ b b', buildTree t = .ok b ∧ buildPostfix ts = .ok b' ∧ b'.Alike b) ∧
        (Arena.limit < t.stateCount →
          buildTree t = .error .tooManyStates ∧ buildPostfix ts = .error .tooManyStates) := by
  -- In both parts the two automata fit one regular expression, the one that the tree means.
  refine ⟨fun t b ts hb hts => ?_, fun p t hp hliterals => ?_⟩
  · obtain ⟨r, hr⟩ := means_of_buildTree hb
    obtain ⟨b', hb', hfits⟩ := hr.exists_buildPostfix hts (hr.stateCount_le hb)
    exact ⟨b', hb', hfits.alike (hr.fits_of_buildTree hb)⟩
  · obtain ⟨hderives, rfl⟩ := derives_of_parse hp
    obtain ⟨r, hr, hsymbols⟩ := hderives.exists_means_symbols
    have hwritable : r.Writable := by
      intro c hc
      have hmem : c ∈ literals (t.text ++ []) := by
        rw [hsymbols]
        exact List.mem_append_left _ hc
      rw [List.append_nil] at hmem
      exact Token.ofByte_eq_symbol (hliterals c hmem)
    have hts : t.postfixText = .ok r.postfixText := (postfixText_eq_ok_iff hr).mpr ⟨hwritable, rfl⟩
    rw [← hderives.stateCount_eq hr]
    refine ⟨_, hts, fun hroom => ?_, fun hmany => ⟨hr.buildTree_of_lt hmany, ?_⟩⟩
    · obtain ⟨b, hb, -⟩ := hr.exists_buildTree hroom
      obtain ⟨b', hb', hfits⟩ := hr.exists_buildPostfix hts hroom
      exact ⟨b, b', hb, hb', hfits.alike (hr.fits_of_buildTree hb)⟩
    · exact buildPostfix_of_lt (Regex.ofPostfix_postfixText hwritable) hmany

/-- An escaped opening parenthesis, and a loop over a group of alternatives. -/
theorem alike_of_postfixText_escapedAndLoop :
    ∃ t b ts b', parse (ascii "\\((a|bc)*") = .ok t ∧
      (∀ c ∈ literals (ascii "\\((a|bc)*"), c ∉ ascii ".|*+?") ∧
      t.stateCount ≤ Arena.limit ∧ buildTree t = .ok b ∧ t.postfixText = .ok ts ∧
      ts = ascii "(abc.|*." ∧ buildPostfix ts = .ok b' ∧ b'.Alike b := by
  obtain ⟨t, ht, htext, hroom⟩ : ∃ t, parse (ascii "\\((a|bc)*") = .ok t ∧
      t.postfixText = .ok (ascii "(abc.|*.") ∧ t.stateCount ≤ Arena.limit :=
    ⟨_, rfl, rfl, by decide +kernel⟩
  have hliterals : ∀ c ∈ literals (ascii "\\((a|bc)*"), c ∉ ascii ".|*+?" := by decide +kernel
  obtain ⟨ts, hts, hbuild, -⟩ := alike_of_postfixText.2 _ t ht hliterals
  obtain ⟨b, -, hb, -⟩ := hbuild hroom
  obtain ⟨b', hb', halike⟩ := alike_of_postfixText.1 t b ts hb hts
  exact ⟨t, b, ts, b', ht, hliterals, hroom, hb, hts, Except.ok.inj (hts.symm.trans htext), hb',
    halike⟩

end RegexLab
