import RegexLab.Proofs.Shell.Session
import RegexLab.Proofs.Text.Lines
import RegexLab.Proofs.Workers.Progress
import RegexLab.Shell.Directory

/-!
# Matching the lines of a file

The chunks of a file cover its lines, each once, and the job of a chunk writes the results of its
lines and no others. So the results do not depend on the order in which the workers run the jobs,
and what is printed is what each line deserves.

## Main definitions

* `Pattern.write` — writing the result of one word.
* `Pattern.listing` — what is printed about a list of words.
-/

namespace RegexLab

variable {p : Pattern} {words : Array Bytes} {n : Nat}

/-! ## Chunks -/

namespace Chunk

/-- Runs of `size` numbers, the last of which is cut short by `count`, follow one another. -/
theorem flatMap_range' (size count k : Nat) :
    (List.range k).flatMap (fun i =>
      List.range' (i * size) (min count (i * size + size) - i * size)) =
        List.range (min count (k * size)) := by
  induction k with
  | zero => simp
  | succ k ih =>
    rw [List.range_succ, List.flatMap_append, ih, List.flatMap_singleton, Nat.succ_mul]
    generalize k * size = first
    -- The next run is empty past the end, and else goes on where the others stop.
    obtain h | h := Nat.le_total count first
    · have hempty : min count (first + size) - first = 0 := by omega
      rw [hempty, List.range'_zero, List.append_nil, Nat.min_eq_left h, Nat.min_eq_left (by omega)]
    · have hstop : min count (first + size) = first + (min count (first + size) - first) := by omega
      rw [Nat.min_eq_right h, List.range_eq_range', List.range_eq_range', hstop,
        Nat.add_sub_cancel_left, ← List.range'_append_1, Nat.zero_add]

/-- The chunks of some words cover them in order, each once. -/
theorem flatMap_indices_cover (count : Nat) :
    (cover count).flatMap indices = List.range count := by
  have hall : count ≤ (count + capacity - 1) / capacity * capacity := by
    unfold capacity
    omega
  rw [cover, List.flatMap_map]
  exact (flatMap_range' capacity count _).trans (by rw [Nat.min_eq_left hall])

end Chunk

/-! ## Results -/

def Pattern.write (p : Pattern) (words : Array Bytes) (results : Array Bool) (i : Nat) :
    Array Bool :=
  match words[i]? with
  | some word => results.setIfInBounds i (p.accepts word)
  | none => results

namespace Pattern

@[simp] theorem size_write (results : Array Bool) (i : Nat) :
    (p.write words results i).size = results.size := by
  unfold write
  split <;> simp

/-- A word that is written gets its result, and the others keep what they have. -/
theorem getElem?_write {results : Array Bool} (hsize : results.size = words.size) (i j : Nat) :
    (p.write words results i)[j]? = if i = j then words[j]?.map p.accepts else results[j]? := by
  unfold write
  split
  next word hword =>
    obtain ⟨hi, -⟩ := Array.getElem?_eq_some_iff.mp hword
    by_cases hij : i = j
    · subst hij
      rw [if_pos rfl, hword, Array.getElem?_setIfInBounds_self_of_lt (hsize ▸ hi)]
      rfl
    · rw [if_neg hij, Array.getElem?_setIfInBounds_ne hij]
  next hnone =>
    by_cases hij : i = j
    · subst hij
      rw [if_pos rfl, hnone, Array.getElem?_eq_none (hsize ▸ Array.getElem?_eq_none_iff.mp hnone)]
      rfl
    · rw [if_neg hij]

/-- What several writes leave behind, in whatever order and however often they are made. -/
theorem getElem?_foldl_write (writes : List Nat) {results : Array Bool}
    (hsize : results.size = words.size) (j : Nat) :
    (writes.foldl (p.write words) results)[j]? =
      if j ∈ writes then words[j]?.map p.accepts else results[j]? := by
  induction writes generalizing results with
  | nil => simp
  | cons i writes ih =>
    rw [List.foldl_cons, ih (by simpa using hsize), getElem?_write hsize]
    by_cases hj : j ∈ writes
    · simp [hj]
    · simp [hj, eq_comm]

/-- Once every word has been written, each has its own result. -/
theorem foldl_write_eq_map {writes : List Nat} (h : ∀ j < words.size, j ∈ writes) :
    writes.foldl (p.write words) (Array.replicate words.size false) = words.map p.accepts := by
  apply Array.ext_getElem?
  intro j
  rw [getElem?_foldl_write _ Array.size_replicate, Array.getElem?_map]
  by_cases hj : j < words.size
  · rw [if_pos (h j hj)]
  · simp [hj]

theorem runChunks_eq_foldl (order : List Chunk) : p.runChunks words order =
    (order.flatMap Chunk.indices).foldl (p.write words) (Array.replicate words.size false) := by
  rw [List.foldl_flatMap]
  rfl

/-- The chunks may be run in any order. -/
theorem runChunks_eq_map {order : List Chunk} (h : order.Perm (Chunk.cover words.size)) :
    p.runChunks words order = words.map p.accepts := by
  rw [runChunks_eq_foldl]
  refine foldl_write_eq_map fun j hj => (h.flatMap_right _).mem_iff.mpr ?_
  rw [Chunk.flatMap_indices_cover]
  exact List.mem_range.mpr hj

end Pattern

/-! ## The jobs of the chunks -/

/-- The members of a list in the order of their numbers are the list. -/
theorem filterMap_range_getElem? {α : Type} (l : List α) :
    (List.range l.length).filterMap (fun k => l[k]?) = l := by
  have hsome : (List.range l.length).map (fun k => l[k]?) = l.map some :=
    List.ext_getElem (by simp) fun k hk _ => by simp at hk; simp [hk]
  calc (List.range l.length).filterMap (fun k => l[k]?)
      = ((List.range l.length).map fun k => l[k]?).filterMap id := by rw [List.filterMap_map]; rfl
    _ = (l.map some).filterMap id := by rw [hsome]
    _ = l := by simp

namespace Chunk

theorem wait_notMem_script (count : Nat) : .wait ∉ script count := by
  simp [script]

/-- The jobs of the chunks come in the order of their numbers. -/
theorem firstJobs_script (count : Nat) : Pool.firstJobs 0 (script count) =
    (List.range (cover count).length).map fun k => ⟨k, .ofNat k⟩ := by
  have hjobs : ∀ first k, Pool.firstJobs first
      ((List.range' first k).map (fun j => Order.schedule (UInt32.ofNat j)) ++ [.join]) =
        (List.range' first k).map fun j => ⟨j, .ofNat j⟩ := by
    intro first k
    induction k generalizing first with
    | zero => rfl
    | succ k ih => simp [List.range'_succ, Pool.firstJobs, ih]
  rw [script, List.range_eq_range', hjobs]

/-- A pool that has run the chunks has run each of them once. -/
theorem chunks_perm_cover {count : Nat} {hn : 0 < n} {q : Pool UInt32 n}
    (hrun : (Pool.ofScript (script count) hn).Run q) (hend : q.owner = .gone) :
    (q.chunks count).Perm (cover count) := by
  have hdone := Pool.done_perm_of_run hrun hend
  have hchunks := (q.done.reverse_perm.trans hdone).filterMap fun job => (cover count)[job.number]?
  rw [firstJobs_script, List.filterMap_map] at hchunks
  exact hchunks.trans (.of_eq (filterMap_range_getElem? (cover count)))

end Chunk

/-- Each word has its own result. -/
theorem Pattern.acceptsEach_eq_map (p : Pattern) (words : Array Bytes) :
    p.acceptsEach words = words.map p.accepts := by
  have hend := Pool.owner_runScript Chunk.workers_pos (Chunk.wait_notMem_script words.size)
  exact runChunks_eq_map (Chunk.chunks_perm_cover (Pool.run_drive _ _) hend)

/-! ## What is printed -/

/-- What is printed about a list of words: each with its result, and how many of them match. -/
def Pattern.listing (p : Pattern) (words : List Bytes) : Bytes :=
  words.flatMap (fun word =>
    word ++ ascii ": " ++ Command.verdict (p.accepts word) ++ ascii "\n") ++
  (decimal (words.countP p.accepts) ++ ascii "/" ++ decimal words.length ++ ascii " matched\n")

namespace Command

/-- The report on words with their results prints the words with what they deserve. -/
theorem output_report (p : Pattern) (words : List Bytes) :
    (report (words.map fun word => (word, p.accepts word))).output = p.listing words := by
  have hlines : Transcript.output (words.map fun word =>
      Event.out (word ++ ascii ": " ++ verdict (p.accepts word) ++ ascii "\n")) =
        words.flatMap fun word => word ++ ascii ": " ++ verdict (p.accepts word) ++ ascii "\n" := by
    rw [Transcript.output, List.map_map, List.flatMap]
    rfl
  have hcount : Transcript.output (Event.line (decimal (words.countP p.accepts) ++ ascii "/" ++
      decimal words.length ++ ascii " matched")) =
        decimal (words.countP p.accepts) ++ ascii "/" ++ decimal words.length ++
          ascii " matched\n" := by
    have hend : ascii " matched\n" = ascii " matched" ++ ascii "\n" := rfl
    simp [Transcript.output, Event.line, Event.output, hend]
  rw [report, Transcript.output_append, List.map_map, List.countP_map, List.length_map]
  exact congrArg₂ (· ++ ·) hlines hcount

/-- The words of a file are its segments, each without a carriage return at its end. -/
theorem wordsOf_eq (content : Bytes) :
    wordsOf content = (content.segments.map Bytes.stripReturn).toArray := by
  rw [wordsOf, Bytes.lines_eq_segments]

/-- The results belong to the words in their order. -/
theorem zip_map_accepts (p : Pattern) (words : List Bytes) :
    words.zip (words.toArray.map p.accepts).toList =
      words.map fun word => (word, p.accepts word) := by
  have hzip := List.zip_map' (f := id) (g := p.accepts) (l := words)
  rw [List.map_id] at hzip
  rw [Array.toList_map]
  exact hzip

/-- With a pattern in use and a file that can be read, the command reports on the words of the
file. -/
theorem batch_run (around : Surroundings) {s : Session} {path content : Bytes}
    (hcurrent : s.current = some p) (hread : around.files.read path = .ok content) :
    ∃ entry, batch.run around s [path] =
      .ok (.log entry :: report ((wordsOf content).toList.zip
        (p.acceptsEach (wordsOf content)).toList), s) := by
  have hpattern : s.pattern = .ok p := by rw [Session.pattern, hcurrent]
  simp [batch, unary, hpattern, hread, Event.note, bind, Except.bind, pure, Except.pure]

/-- A path that is not empty and has no zero byte is an argument of the command. -/
theorem checkArguments_path {path : Bytes} (hne : path ≠ []) (hzero : 0 ∉ path) :
    checkArguments batch.kinds [path] = .ok [path] := by
  have hcheck : ArgumentKind.path.check path = .ok path := by
    simp [ArgumentKind.check, hne, hzero]
  have hfill : fillArguments [.path] [path] = (ArgumentKind.path.check path).bind fun a => .ok [a] :=
    rfl
  rw [hcheck] at hfill
  exact hfill

end Command

/-- There is no file without a name. -/
theorem Files.ne_nil_of_read {files : Files} {path content : Bytes}
    (h : files.read path = .ok content) : path ≠ [] := by
  rintro rfl
  cases h

namespace Registry

theorem find_standard_batch : standard.find (ascii "batch") = .ok .batch :=
  rfl

/-- The chunks of any number of words cover them in order, each once. However the workers of the
pool take turns, they can go on until all chunks have been run, and then each has been run once.
And in whatever order the chunks are run, the line prints every line of the file with its own
result, and how many of them match, and leaves the session as it is. -/
theorem runLine_batch_prints_listing {files : Files} {s : Session} {p : Pattern}
    {line path content : Bytes} (hline : splitLine line = (ascii "batch", [path]))
    (hzero : 0 ∉ path) (hcurrent : s.current = some p) (hread : files.read path = .ok content) :
    (∀ count, (Chunk.cover count).flatMap Chunk.indices = List.range count) ∧
    (∀ count (q : Pool UInt32 Chunk.workers),
      (Pool.ofScript (Chunk.script count) Chunk.workers_pos).Run q →
      (∃ r, q.Run r ∧ r.owner = .gone) ∧
      (q.owner = .gone → (q.chunks count).Perm (Chunk.cover count))) ∧
    ∀ words order, words = content.segments.map Bytes.stripReturn →
      order.Perm (Chunk.cover words.length) →
      ∃ entry, standard.runLine files s line = (.log entry ::
          Command.report (words.zip (p.runChunks words.toArray order).toList), s) ∧
        (standard.runLine files s line).1.output = p.listing words := by
  refine ⟨Chunk.flatMap_indices_cover, fun count q hrun => ⟨?_, Chunk.chunks_perm_cover hrun⟩, ?_⟩
  · have hphase := (Pool.phase_ofScript (Chunk.script count) Chunk.workers_pos).of_run hrun
    exact hphase.exists_run fun hwait =>
      Chunk.wait_notMem_script count ((Pool.script_suffix_of_run hrun).subset hwait)
  · rintro words order rfl horder
    have hperform := perform_of_splitLine hline find_standard_batch files s
    rw [Command.checkArguments_path (Files.ne_nil_of_read hread) hzero] at hperform
    obtain ⟨entry, hrun⟩ :=
      Command.batch_run { files, descriptions := standard.descriptions } hcurrent hread
    have hanswer := runLine_of_perform (not_blank_of_splitLine hline (by decide))
      (hperform.trans hrun)
    rw [Command.wordsOf_eq, Pattern.acceptsEach_eq_map, Command.zip_map_accepts] at hanswer
    refine ⟨entry, ?_, ?_⟩
    · rw [hanswer, Pattern.runChunks_eq_map horder, Command.zip_map_accepts]
    · rw [hanswer]
      exact Command.output_report p _

/-- A file with a carriage return, a blank line, and no line feed at its end. -/
theorem runLine_batch_prints_listing_blankLine :
    ∃ p notes, Pattern.compile (ascii "a") = .ok (p, notes) ∧
      (standard.runLine (.ofList .directory [(ascii "w", ascii "a\r\n\nb")]) { current := some p }
        (ascii "batch w")).1.output =
          ascii "a: match\n: no match\nb: no match\n1/3 matched\n" := by
  have hline : splitLine (ascii "batch" ++ 0x20 :: ascii "w") = (ascii "batch", [ascii "w"]) := by
    apply splitLine_words <;> decide +kernel
  have hwords : [ascii "a", [], ascii "b"] =
      (Bytes.segments (ascii "a\r\n\nb")).map Bytes.stripReturn := by decide +kernel
  have hread : Files.read (.ofList .directory [(ascii "w", ascii "a\r\n\nb")]) (ascii "w") =
      .ok (ascii "a\r\n\nb") := rfl
  obtain ⟨p, notes, hp, hlisting⟩ : ∃ p notes, Pattern.compile (ascii "a") = .ok (p, notes) ∧
      p.listing [ascii "a", [], ascii "b"] =
        ascii "a: match\n: no match\nb: no match\n1/3 matched\n" :=
    ⟨_, _, rfl, by decide +kernel⟩
  have hcurrent : ({ current := some p } : Session).current = some p := rfl
  obtain ⟨-, -, hprint⟩ := runLine_batch_prints_listing hline (by decide) hcurrent hread
  obtain ⟨entry, -, houtput⟩ := hprint _ _ hwords (.refl _)
  exact ⟨p, notes, hp, houtput.trans hlisting⟩

end Registry

end RegexLab
