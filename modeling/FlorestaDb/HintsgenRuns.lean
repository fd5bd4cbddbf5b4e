import FlorestaDb.Hash
import FlorestaDb.Layout
import FlorestaDb.Lib.Merge

/-! The runs of spent positions: each remover collects the positions it pops in a buffer and
writes full buffers to files of its own. Before the hints are written each file is sorted, and
the files are merged into one. The files are those of the run directory, all of whose
operations succeed. -/
namespace FlorestaDb.Hintsgen

/-- What the file system and the database report, and what the code makes of it. -/
inductive Failure where
  | notFound
  | alreadyExists
  | unexpectedEof
  | invalidInput (message : String)
  | other (message : String)
  | database (e : Error)
  deriving DecidableEq, Repr

abbrev AnyResult := Except Failure

def orFail {α : Type} (o : Option α) (e : Failure) : AnyResult α :=
  match o with
  | some a => .ok a
  | none => .error e

/-- `.hints-positions-<worker>-<index>.run`, `spent-outputs.data` and `spent-outputs.sorted`. -/
inductive Path where
  | run (worker index : Nat)
  | spentOutputs
  | spentSorted
  deriving DecidableEq, Repr

abbrev Files := Path → Option (List UInt8)

def Files.write (files : Files) (path : Path) (bytes : List UInt8) : Files :=
  Function.update files path (some bytes)

def Files.remove (files : Files) (path : Path) : Files := Function.update files path none

/-- The file written with `to_le_bytes`, value by value. -/
def valueBytes (values : List UInt64) : List UInt8 :=
  values.flatMap fun value => Hash.leBytes 8 value.toNat

structure PositionRun where
  path : Path
  values : Nat
  deriving DecidableEq, Repr

section Collector

def positionRunValueCapacity : Nat := 2 ^ 20

structure PositionRunCollector where
  worker : Nat
  nextIndex : Nat
  values : List UInt64
  runs : List PositionRun

def PositionRunCollector.new (worker : Nat) : PositionRunCollector := ⟨worker, 0, [], []⟩

/-- The file must not exist yet. -/
def writePositionRun (worker runIndex : Nat) (values : List UInt64) (files : Files) :
    AnyResult (PositionRun × Files) :=
  let path := Path.run worker runIndex
  if (files path).isSome then .error .alreadyExists
  else .ok (⟨path, values.length⟩, files.write path (valueBytes values))

def PositionRunCollector.flush (c : PositionRunCollector) (files : Files) :
    AnyResult (PositionRunCollector × Files) :=
  if c.values = [] then .ok (c, files)
  else do
    let followingIndex ← orFail (checkedAdd c.nextIndex 1)
      (.invalidInput "position run index overflow")
    let (run, files) ← writePositionRun c.worker c.nextIndex c.values files
    return ({ c with nextIndex := followingIndex, values := [], runs := c.runs ++ [run] }, files)

def PositionRunCollector.push (c : PositionRunCollector) (position : UInt64) (files : Files) :
    AnyResult (PositionRunCollector × Files) :=
  let c := { c with values := c.values ++ [position] }
  if c.values.length = positionRunValueCapacity then c.flush files else .ok (c, files)

def PositionRunCollector.finish (c : PositionRunCollector) (files : Files) :
    AnyResult (List PositionRun × Files) := do
  let (c, files) ← c.flush files
  return (c.runs, files)

/- The pushes of all removers in the order in which they happen: each names its worker. -/
def pushAll : List (Nat × UInt64) → (Nat → PositionRunCollector) → Files →
    AnyResult ((Nat → PositionRunCollector) × Files)
  | [], collectors, files => .ok (collectors, files)
  | (worker, position) :: pushes, collectors, files => do
    let (c, files) ← (collectors worker).push position files
    pushAll pushes (Function.update collectors worker c) files

/-- The removers `worker .. worker + n` finish; their runs are listed by worker. -/
def finishAll (collectors : Nat → PositionRunCollector) : Nat → Nat → Files →
    AnyResult (List PositionRun × Files)
  | 0, _, files => .ok ([], files)
  | n + 1, worker, files => do
    let (runs, files) ← (collectors worker).finish files
    let (rest, files) ← finishAll collectors n (worker + 1) files
    return (runs ++ rest, files)

def collectRuns (workers : Nat) (pushes : List (Nat × UInt64)) (files : Files) :
    AnyResult (List PositionRun × Files) := do
  let (collectors, files) ← pushAll pushes PositionRunCollector.new files
  finishAll collectors workers 0 files

end Collector

section Reader

structure ValueReader where
  bytes : List UInt8
  remaining : Nat

def ValueReader.openRun (run : PositionRun) (files : Files) : AnyResult ValueReader := do
  let expectedLength ← orFail (checkedMul run.values 8) (.other "position run length overflow")
  let bytes ← orFail (files run.path) .notFound
  if bytes.length ≠ expectedLength then .error (.other "position run has an unexpected length")
  else return ⟨bytes, run.values⟩

def ValueReader.openFlat (path : Path) (files : Files) : AnyResult ValueReader := do
  let bytes ← orFail (files path) .notFound
  if bytes.length % 8 ≠ 0 then .error (.other "sorted values contain a partial record")
  else return ⟨bytes, bytes.length / 8⟩

def ValueReader.nextValue (r : ValueReader) : AnyResult (Option UInt64 × ValueReader) :=
  if r.remaining = 0 then .ok (none, r)
  else if r.bytes.length < 8 then .error .unexpectedEof
  else .ok (some (UInt64.ofNat (Hash.leValue (r.bytes.take 8))), ⟨r.bytes.drop 8, r.remaining - 1⟩)

/-- `while let Some(value) = reader.next_value()?`, which ends after `remaining` values. -/
def ValueReader.readAll : Nat → ValueReader → AnyResult (List UInt64)
  | 0, _ => .ok []
  | fuel + 1, r => do
    match ← r.nextValue with
    | (none, _) => return []
    | (some value, r) => return value :: (← readAll fuel r)

end Reader

section Sorting

def sortPositionRuns : List PositionRun → Files → AnyResult Files
  | [], files => .ok files
  | run :: runs, files => do
    let reader ← ValueReader.openRun run files
    let values ← reader.readAll (reader.remaining + 1)
    sortPositionRuns runs (files.write run.path (valueBytes (values.mergeSort (· ≤ ·))))

/-- The heap of `Reverse((value, index))`: the least pair comes off first. -/
abbrev Heap := List (UInt64 × Nat)

def seedHeap : Nat → List ValueReader → Heap → AnyResult (Heap × List ValueReader)
  | _, [], heap => .ok (heap, [])
  | index, reader :: readers, heap => do
    let (next, reader) ← reader.nextValue
    let heap := match next with
      | some value => Merge.push (value, index) heap
      | none => heap
    let (heap, readers) ← seedHeap (index + 1) readers heap
    return (heap, reader :: readers)

/- The merge, with the number of values that the heap and the readers still hold. Returns the
   values in the order in which they are written, and their number. -/
def mergeLoop : Nat → Heap → List ValueReader → Nat → AnyResult (List UInt64 × Nat)
  | 0, _, _, written => .ok ([], written)
  | _ + 1, [], _, written => .ok ([], written)
  | fuel + 1, (value, readerIndex) :: heap, readers, written => do
    let written ← orFail (checkedAdd written 1) (.invalidInput "merged output count overflow")
    let reader ← orFail readers[readerIndex]? (.other "sort run reader index is out of range")
    let (next, reader) ← reader.nextValue
    let heap := match next with
      | some value => Merge.push (value, readerIndex) heap
      | none => heap
    let (values, written) ← mergeLoop fuel heap (readers.set readerIndex reader) written
    return (value :: values, written)

def openRuns : List PositionRun → Files → AnyResult (List ValueReader)
  | [], _ => .ok []
  | run :: runs, files => do
    let reader ← ValueReader.openRun run files
    return reader :: (← openRuns runs files)

/-- The temporary file is renamed once it is complete. -/
def mergeSortRuns (runs : List PositionRun) (expectedValues : Nat) (files : Files) :
    AnyResult Files := do
  if (files .spentSorted).isSome then .error .alreadyExists
  else
    let files := files.write .spentSorted []
    let readers ← openRuns runs files
    let (heap, readers) ← seedHeap 0 readers []
    let fuel := heap.length + (readers.map ValueReader.remaining).sum
    let (values, written) ← mergeLoop fuel heap readers 0
    if written ≠ expectedValues then
      .error (.other s!"external sort lost values: expected={expectedValues}, written={written}")
    else return (files.remove .spentSorted).write .spentOutputs (valueBytes values)

end Sorting

section ReaderSteps
variable {files : Files} {values : List UInt64} {run : PositionRun}

@[simp] theorem orFail_some {α : Type} (a : α) (e : Failure) : orFail (some a) e = .ok a := rfl

theorem result_bind {α β : Type} (a : α) (f : α → AnyResult β) : (Except.ok a >>= f) = f a := rfl

theorem valueBytes_length (values : List UInt64) : (valueBytes values).length = values.length * 8 := by
  induction values with
  | nil => rfl
  | cons value values ih =>
    rw [valueBytes, List.flatMap_cons, List.length_append, Hash.leBytes_length, ← valueBytes, ih,
      List.length_cons]
    omega

/-- A reader before the values that are left in its file. -/
def readerOf (values : List UInt64) : ValueReader := ⟨valueBytes values, values.length⟩

theorem nextValue_nil : (readerOf []).nextValue = .ok (none, readerOf []) := rfl

theorem nextValue_cons (value : UInt64) (values : List UInt64) :
    (readerOf (value :: values)).nextValue = .ok (some value, readerOf values) := by
  have hlength : (Hash.leBytes 8 value.toNat).length = 8 := Hash.leBytes_length 8 _
  have hbytes : valueBytes (value :: values) = Hash.leBytes 8 value.toNat ++ valueBytes values := rfl
  have hvalue : UInt64.ofNat (Hash.leValue (Hash.leBytes 8 value.toNat)) = value := by
    have hlt : value.toNat < 256 ^ 8 := value.toNat_lt
    rw [Hash.leValue_leBytes, Nat.mod_eq_of_lt hlt, UInt64.ofNat_toNat]
  have hlong : ¬(valueBytes (value :: values)).length < 8 := by
    rw [valueBytes_length, List.length_cons]
    omega
  have htake : (valueBytes (value :: values)).take 8 = Hash.leBytes 8 value.toNat := by
    rw [hbytes, List.take_left' hlength]
  have hdrop : (valueBytes (value :: values)).drop 8 = valueBytes values := by
    rw [hbytes, List.drop_left' hlength]
  have hmore : ¬(readerOf (value :: values)).remaining = 0 := Nat.succ_ne_zero _
  rw [ValueReader.nextValue, if_neg hmore, readerOf, if_neg hlong, htake, hdrop, hvalue]
  rfl

theorem readAll_readerOf {fuel : Nat} (h : values.length ≤ fuel) :
    (readerOf values).readAll fuel = .ok values := by
  induction fuel generalizing values with
  | zero =>
    rw [List.length_eq_zero_iff.mp (Nat.le_zero.mp h)]
    rfl
  | succ fuel ih =>
    cases values with
    | nil => rfl
    | cons value values =>
      rw [ValueReader.readAll, nextValue_cons, result_bind]
      simp only [ih (Nat.le_of_succ_le_succ h), result_bind]
      rfl

/-- The file of a run holds these values. -/
structure Stored (files : Files) (run : PositionRun) (values : List UInt64) : Prop where
  bytes : files run.path = some (valueBytes values)
  count : run.values = values.length

theorem openRun_ok (h : Stored files run values) (hb : values.length * 8 < u64Bound) :
    ValueReader.openRun run files = .ok (readerOf values) := by
  have hlength : ¬(valueBytes values).length ≠ values.length * 8 :=
    fun hne => hne (valueBytes_length values)
  rw [ValueReader.openRun, h.count, checkedMul_of_lt hb, orFail_some, result_bind, h.bytes,
    orFail_some, result_bind, if_neg hlength]
  rfl

theorem openFlat_ok {path : Path} (h : files path = some (valueBytes values)) :
    ValueReader.openFlat path files = .ok (readerOf values) := by
  have hlength := valueBytes_length values
  have hwhole : ¬(valueBytes values).length % 8 ≠ 0 := by omega
  have hcount : (valueBytes values).length / 8 = values.length := by omega
  rw [ValueReader.openFlat, h, orFail_some, result_bind, if_neg hwhole, hcount]
  rfl

end ReaderSteps

section SortingSteps
variable {files : Files} {runs : List PositionRun} {chunks sources : List (List UInt64)}

@[simp] theorem write_self (files : Files) (path : Path) (bytes : List UInt8) :
    files.write path bytes path = some bytes := Function.update_self _ _ _

theorem write_other (files : Files) {path other : Path} (bytes : List UInt8) (h : other ≠ path) :
    files.write path bytes other = files other := Function.update_of_ne h _ _

/-- All runs hold their values, each in a file of its own. -/
structure AllStored (files : Files) (runs : List PositionRun) (chunks : List (List UInt64)) :
    Prop where
  stored : List.Forall₂ (Stored files) runs chunks
  apart : (runs.map PositionRun.path).Nodup
  bounded : ∀ chunk ∈ chunks, chunk.length * 8 < u64Bound

def sortValues (values : List UInt64) : List UInt64 := values.mergeSort (· ≤ ·)

theorem sortValues_perm (values : List UInt64) : (sortValues values).Perm values :=
  List.mergeSort_perm _ _

theorem sortValues_sorted (values : List UInt64) : (sortValues values).Pairwise (· ≤ ·) := by
  have hsorted : (sortValues values).Pairwise (fun a b => decide (a ≤ b) = true) := by
    refine List.pairwise_mergeSort ?_ ?_ values
    · intro a b c hab hbc
      rw [decide_eq_true_eq] at hab hbc ⊢
      exact UInt64.le_trans hab hbc
    · intro a b
      rw [Bool.or_eq_true, decide_eq_true_eq, decide_eq_true_eq]
      exact UInt64.le_total a b
  simpa only [decide_eq_true_eq] using hsorted

theorem stored_congr {files' : Files}
    (hsame : ∀ run ∈ runs, files' run.path = files run.path)
    (h : List.Forall₂ (Stored files) runs chunks) : List.Forall₂ (Stored files') runs chunks := by
  induction h with
  | nil => exact .nil
  | cons hrun _ ih =>
    rename_i run chunk runs chunks _
    refine .cons ⟨?_, hrun.count⟩ (ih fun other hmem => hsame other (List.mem_cons_of_mem _ hmem))
    rw [hsame run List.mem_cons_self]
    exact hrun.bytes

theorem sortPositionRuns_ok (h : AllStored files runs chunks) :
    ∃ files', sortPositionRuns runs files = .ok files' ∧
      AllStored files' runs (chunks.map sortValues) ∧
      ∀ path ∉ runs.map PositionRun.path, files' path = files path := by
  induction runs generalizing files chunks with
  | nil =>
    obtain ⟨hstored, -, -⟩ := h
    cases hstored
    exact ⟨files, rfl, ⟨.nil, .nil, by simp⟩, fun _ _ => rfl⟩
  | cons run runs ih =>
    obtain ⟨hstored, hapart, hbounded⟩ := h
    cases hstored with
    | @cons _ chunk _ chunks hrun hrest =>
      rw [List.map_cons, List.nodup_cons] at hapart
      have hlength : (sortValues chunk).length = chunk.length := (sortValues_perm chunk).length_eq
      have hchunk := hbounded chunk List.mem_cons_self
      have hkept : List.Forall₂ (Stored (files.write run.path (valueBytes (sortValues chunk))))
          runs chunks := by
        refine stored_congr (fun other hmem => write_other _ _ ?_) hrest
        intro heq
        exact hapart.1 (heq ▸ List.mem_map_of_mem hmem)
      obtain ⟨files', hsort, hall, hother⟩ := ih
        ⟨hkept, hapart.2, fun c hc => hbounded c (List.mem_cons_of_mem _ hc)⟩
      refine ⟨files', ?_, ⟨.cons ⟨?_, ?_⟩ hall.stored, ?_, ?_⟩, ?_⟩
      · have hread : (readerOf chunk).readAll ((readerOf chunk).remaining + 1) = .ok chunk :=
          readAll_readerOf (Nat.le_succ _)
        rw [sortPositionRuns, openRun_ok hrun hchunk, result_bind, hread, result_bind]
        exact hsort
      · rw [hother _ hapart.1, write_self]
      · rw [hrun.count, hlength]
      · exact List.nodup_cons.mpr hapart
      · intro c hc
        cases List.mem_cons.mp hc with
        | inl heq =>
          rw [heq, hlength]
          exact hchunk
        | inr hc => exact hall.bounded c hc
      · intro path hpath
        rw [List.map_cons, List.mem_cons, not_or] at hpath
        rw [hother path hpath.2, write_other _ _ hpath.1]

theorem openRuns_ok (h : List.Forall₂ (Stored files) runs chunks)
    (hb : ∀ chunk ∈ chunks, chunk.length * 8 < u64Bound) :
    openRuns runs files = .ok (chunks.map readerOf) := by
  induction h with
  | nil => rfl
  | cons hrun _ ih =>
    rw [openRuns, openRun_ok hrun (hb _ List.mem_cons_self), result_bind,
      ih fun chunk hc => hb chunk (List.mem_cons_of_mem _ hc)]
    rfl

theorem seedHeap_ok (i : Nat) (sources : List (List UInt64)) (heap : Heap) :
    seedHeap i (sources.map readerOf) heap =
      .ok (Merge.seed i sources heap, (sources.map List.tail).map readerOf) := by
  induction sources generalizing i heap with
  | nil => rfl
  | cons source sources ih =>
    cases source with
    | nil =>
      rw [List.map_cons, seedHeap, nextValue_nil, result_bind]
      simp only [ih, result_bind]
      rfl
    | cons value rest =>
      rw [List.map_cons, seedHeap, nextValue_cons, result_bind]
      simp only [ih, result_bind]
      rfl

/-- The loop writes what the abstract merge of the readers' values yields. -/
theorem mergeLoop_ok {n written : Nat} {heap : Heap} (hindex : ∀ a ∈ heap, a.2 < sources.length)
    (hb : written + (Merge.merge n heap sources).length < u64Bound) :
    mergeLoop n heap (sources.map readerOf) written =
      .ok (Merge.merge n heap sources, written + (Merge.merge n heap sources).length) := by
  induction n generalizing heap sources written with
  | zero => rfl
  | succ n ih =>
    cases heap with
    | nil => rfl
    | cons entry heap =>
      obtain ⟨value, i⟩ := entry
      have hi : i < sources.length := hindex _ List.mem_cons_self
      have hrest : ∀ a ∈ heap, a.2 < sources.length :=
        fun a ha => hindex a (List.mem_cons_of_mem _ ha)
      have hreader : (sources.map readerOf)[i]? = some (readerOf sources[i]) := by
        rw [List.getElem?_map, List.getElem?_eq_getElem hi, Option.map_some]
      have hset : ∀ rest, (sources.map readerOf).set i (readerOf rest) =
          (sources.set i rest).map readerOf := fun rest => List.map_set.symm
      have hgetD : sources.getD i [] = sources[i] := by
        rw [List.getD_eq_getElem?_getD, List.getElem?_eq_getElem hi, Option.getD_some]
      rw [Merge.merge, hgetD] at hb ⊢
      rw [List.length_cons] at hb ⊢
      rw [mergeLoop, checkedAdd_of_lt (by omega), orFail_some, result_bind, hreader, orFail_some,
        result_bind]
      cases hsource : sources[i] with
      | nil =>
        have hsame : sources.set i [] = sources := by
          rw [← hsource]
          exact List.set_getElem_self hi
        simp only [hsource] at hb
        have hrun := ih hrest (show written + 1 + (Merge.merge n heap sources).length < u64Bound by
          omega)
        rw [nextValue_nil, result_bind]
        simp only [hset, hsame, hrun, result_bind]
        rw [Nat.add_assoc, Nat.add_comm 1]
        rfl
      | cons next rest =>
        have hpushed : ∀ a ∈ Merge.push (next, i) heap, a.2 < (sources.set i rest).length := by
          intro a ha
          rw [List.length_set]
          cases (List.mem_orderedInsert _).mp ha with
          | inl heq =>
            rw [heq]
            exact hi
          | inr ha => exact hrest a ha
        simp only [hsource] at hb
        have hrun := ih hpushed (show written + 1 + (Merge.merge n (Merge.push (next, i) heap)
          (sources.set i rest)).length < u64Bound by omega)
        rw [nextValue_cons, result_bind]
        simp only [hset, hrun, result_bind]
        rw [Nat.add_assoc, Nat.add_comm 1]
        rfl

/-- Sorted runs are merged into one sorted file of all their values. -/
theorem mergeSortRuns_ok (h : AllStored files runs sources)
    (hsorted : ∀ source ∈ sources, source.Pairwise (· ≤ ·)) (htemporary : files .spentSorted = none)
    (hpaths : ∀ run ∈ runs, run.path ≠ .spentSorted) (hb : sources.flatten.length < u64Bound) :
    ∃ files' values, mergeSortRuns runs sources.flatten.length files = .ok files' ∧
      files' .spentOutputs = some (valueBytes values) ∧ values.Pairwise (· ≤ ·) ∧
      values.Perm sources.flatten := by
  have hled := Merge.led_seed hsorted
  have hpending := Merge.seed_pending 0 sources []
  have hfuel : (Merge.seed 0 sources []).length +
      (((sources.map List.tail).map readerOf).map ValueReader.remaining).sum =
      sources.flatten.length := by
    have hlength := hpending.length_eq
    have hremaining : (((sources.map List.tail).map readerOf).map ValueReader.remaining).sum =
        (sources.map List.tail).flatten.length := by
      rw [List.map_map, List.length_flatten]
      rfl
    rw [Merge.pending_length] at hlength
    rw [hremaining, hlength]
    rfl
  obtain ⟨hout, hperm⟩ := Merge.merge_spec (n := sources.flatten.length) hled
    (Nat.le_of_eq hpending.length_eq)
  have hall := hperm.trans hpending
  have hlength : (Merge.merge sources.flatten.length (Merge.seed 0 sources [])
      (sources.map List.tail)).length = sources.flatten.length := hall.length_eq
  have hindex : ∀ a ∈ Merge.seed 0 sources [], a.2 < (sources.map List.tail).length := by
    intro a ha
    rw [List.length_map]
    exact Merge.seed_lt ha
  have hstored : List.Forall₂ (Stored (files.write .spentSorted [])) runs sources :=
    stored_congr (fun run hmem => write_other _ _ (hpaths run hmem)) h.stored
  have hcount : 0 + (Merge.merge sources.flatten.length (Merge.seed 0 sources [])
      (sources.map List.tail)).length < u64Bound := by
    rw [hlength, Nat.zero_add]
    exact hb
  have hloop := mergeLoop_ok hindex hcount
  have hopen := openRuns_ok hstored h.bounded
  refine ⟨((files.write .spentSorted []).remove .spentSorted).write .spentOutputs _, _, ?_,
    write_self _ _ _, hout, hall⟩
  rw [mergeSortRuns, htemporary, if_neg (by simp)]
  simp only [hopen, seedHeap_ok, result_bind, hfuel, hloop]
  rw [hlength, if_neg (by simp)]
  rfl

end SortingSteps

section CollectorSteps
variable {files : Files} {c : PositionRunCollector} {w : Nat} {chunks : List (List UInt64)}
  {pushed : List UInt64}

/-- The runs of a collector are its files so far; with the buffer they hold what was pushed. -/
structure Collected (files : Files) (w : Nat) (c : PositionRunCollector)
    (chunks : List (List UInt64)) (pushed : List UInt64) : Prop where
  worker : c.worker = w
  count : c.nextIndex = chunks.length
  paths : c.runs.map PositionRun.path = (List.range c.nextIndex).map (Path.run w)
  stored : List.Forall₂ (Stored files) c.runs chunks
  fresh : ∀ i, c.nextIndex ≤ i → files (.run w i) = none
  sized : ∀ chunk ∈ chunks, 0 < chunk.length ∧ chunk.length ≤ positionRunValueCapacity
  contents : chunks.flatten ++ c.values = pushed

/-- Only files of the worker `w` differ. -/
def OnlyRunsOf (w : Nat) (files files' : Files) : Prop :=
  ∀ path, (∀ i, path ≠ .run w i) → files' path = files path

theorem Collected.runs_path (h : Collected files w c chunks pushed) {run : PositionRun}
    (hrun : run ∈ c.runs) : ∃ i < c.nextIndex, run.path = .run w i := by
  have hmem : run.path ∈ (List.range c.nextIndex).map (Path.run w) :=
    h.paths ▸ List.mem_map_of_mem hrun
  obtain ⟨i, hi, heq⟩ := List.mem_map.mp hmem
  exact ⟨i, List.mem_range.mp hi, heq.symm⟩

/-- Other workers do not touch the files of this one. -/
theorem Collected.congr {files' : Files} (h : Collected files w c chunks pushed)
    (hsame : ∀ i, files' (.run w i) = files (.run w i)) :
    Collected files' w c chunks pushed := by
  refine ⟨h.worker, h.count, h.paths, stored_congr ?_ h.stored, ?_, h.sized, h.contents⟩
  · intro run hrun
    obtain ⟨i, -, heq⟩ := h.runs_path hrun
    rw [heq, hsame]
  · intro i hi
    rw [hsame]
    exact h.fresh i hi

theorem length_le_flatten {chunks : List (List UInt64)} (h : ∀ chunk ∈ chunks, 0 < chunk.length) :
    chunks.length ≤ chunks.flatten.length := by
  induction chunks with
  | nil => exact Nat.le_refl _
  | cons chunk chunks ih =>
    have hrest := ih fun other hmem => h other (List.mem_cons_of_mem _ hmem)
    have hfirst := h chunk List.mem_cons_self
    rw [List.flatten_cons, List.length_append, List.length_cons]
    omega

/-- There are no more runs than values. -/
theorem Collected.count_le (h : Collected files w c chunks pushed) :
    c.nextIndex + c.values.length ≤ pushed.length := by
  have hflat := length_le_flatten fun chunk hchunk => (h.sized chunk hchunk).1
  rw [← h.contents, List.length_append, h.count]
  omega

theorem flush_ok (h : Collected files w c chunks pushed)
    (hbuffer : c.values.length ≤ positionRunValueCapacity) (hb : pushed.length < u64Bound) :
    ∃ c' files' chunks', c.flush files = .ok (c', files') ∧
      Collected files' w c' chunks' pushed ∧ c'.values = [] ∧ OnlyRunsOf w files files' := by
  by_cases hempty : c.values = []
  · exact ⟨c, files, chunks, if_pos hempty, h, hempty, fun _ _ => rfl⟩
  · have hpos : 0 < c.values.length := List.length_pos_iff.mpr hempty
    have hcount := h.count_le
    have hfresh : files (.run w c.nextIndex) = none := h.fresh _ (Nat.le_refl _)
    have hpaths : (c.runs ++ [(⟨.run w c.nextIndex, c.values.length⟩ : PositionRun)]).map
        PositionRun.path = (List.range (c.nextIndex + 1)).map (Path.run w) := by
      rw [List.map_append, h.paths, List.range_succ, List.map_append]
      rfl
    have hkept : List.Forall₂ (Stored (files.write (.run w c.nextIndex) (valueBytes c.values)))
        c.runs chunks := by
      refine stored_congr (fun run hmem => write_other _ _ ?_) h.stored
      obtain ⟨i, hi, heq⟩ := h.runs_path hmem
      rw [heq]
      intro hsame
      obtain ⟨-, rfl⟩ := Path.run.inj hsame
      exact absurd hi (Nat.lt_irrefl _)
    have hstored := List.rel_append hkept
      (.cons (⟨write_self _ _ _, rfl⟩ : Stored _ ⟨.run w c.nextIndex, c.values.length⟩ c.values) .nil)
    refine ⟨{ c with nextIndex := c.nextIndex + 1, values := [],
                     runs := c.runs ++ [⟨.run w c.nextIndex, c.values.length⟩] },
      files.write (.run w c.nextIndex) (valueBytes c.values), chunks ++ [c.values], ?_,
      ⟨h.worker, ?_, hpaths, hstored, ?_, ?_, ?_⟩, rfl, ?_⟩
    · rw [PositionRunCollector.flush, if_neg hempty, checkedAdd_of_lt (by omega), orFail_some,
        result_bind, writePositionRun, h.worker, hfresh, if_neg (by simp), result_bind]
      rfl
    · rw [List.length_append, h.count]
      rfl
    · intro i hi
      rw [write_other]
      · exact h.fresh i (Nat.le_of_succ_le hi)
      · intro hsame
        obtain ⟨-, rfl⟩ := Path.run.inj hsame
        exact absurd hi (Nat.not_succ_le_self _)
    · intro chunk hchunk
      cases List.mem_append.mp hchunk with
      | inl hchunk => exact h.sized chunk hchunk
      | inr hchunk =>
        rw [List.mem_singleton.mp hchunk]
        exact ⟨hpos, hbuffer⟩
    · rw [List.flatten_append, List.flatten_singleton, List.append_nil]
      exact h.contents
    · intro path hpath
      exact write_other _ _ (hpath _)

theorem push_ok (position : UInt64) (h : Collected files w c chunks pushed)
    (hbuffer : c.values.length < positionRunValueCapacity) (hb : pushed.length + 1 < u64Bound) :
    ∃ c' files' chunks', c.push position files = .ok (c', files') ∧
      Collected files' w c' chunks' (pushed ++ [position]) ∧
      c'.values.length < positionRunValueCapacity ∧ OnlyRunsOf w files files' := by
  have hlonger : Collected files w { c with values := c.values ++ [position] } chunks
      (pushed ++ [position]) := by
    refine ⟨h.worker, h.count, h.paths, h.stored, h.fresh, h.sized, ?_⟩
    rw [← h.contents, List.append_assoc]
  have hlength : (c.values ++ [position]).length = c.values.length + 1 := List.length_append
  by_cases hfull : (c.values ++ [position]).length = positionRunValueCapacity
  · obtain ⟨c', files', chunks', hflush, hcollected, hempty, honly⟩ := flush_ok hlonger
      (Nat.le_of_eq hfull) (by rw [List.length_append]; exact hb)
    refine ⟨c', files', chunks', ?_, hcollected, ?_, honly⟩
    · rw [PositionRunCollector.push, if_pos hfull]
      exact hflush
    · rw [hempty]
      exact Nat.two_pow_pos 20
  · refine ⟨_, files, chunks, if_neg hfull, hlonger, ?_, fun _ _ => rfl⟩
    change (c.values ++ [position]).length < positionRunValueCapacity
    omega

/-- What each worker has pushed, as its collector and its files hold it. -/
def AllCollected (files : Files) (collectors : Nat → PositionRunCollector)
    (log : Nat → List UInt64) : Prop :=
  ∀ w, ∃ chunks, Collected files w (collectors w) chunks (log w) ∧
    (collectors w).values.length < positionRunValueCapacity

def pushedTo (w : Nat) (pushes : List (Nat × UInt64)) : List UInt64 :=
  (pushes.filter fun p => p.1 = w).map Prod.snd

theorem pushedTo_self (w : Nat) (x : UInt64) (pushes : List (Nat × UInt64)) :
    pushedTo w ((w, x) :: pushes) = x :: pushedTo w pushes := by
  simp [pushedTo]

theorem pushedTo_other {w w' : Nat} (h : w ≠ w') (x : UInt64) (pushes : List (Nat × UInt64)) :
    pushedTo w' ((w, x) :: pushes) = pushedTo w' pushes := by
  simp [pushedTo, h]

/-- Runs of the workers are written, and nothing else. -/
def OnlyRuns (files files' : Files) : Prop :=
  ∀ path, (∀ w i, path ≠ .run w i) → files' path = files path

theorem OnlyRunsOf.same {files' : Files} (h : OnlyRunsOf w files files') {w' : Nat} (hne : w' ≠ w)
    (i : Nat) : files' (.run w' i) = files (.run w' i) := by
  refine h _ ?_
  intro j heq
  exact hne (Path.run.inj heq).1

theorem pushAll_ok {pushes : List (Nat × UInt64)} {collectors : Nat → PositionRunCollector}
    {log : Nat → List UInt64} (h : AllCollected files collectors log)
    (hb : ∀ w, (log w).length + pushes.length < u64Bound) :
    ∃ collectors' files', pushAll pushes collectors files = .ok (collectors', files') ∧
      AllCollected files' collectors' (fun w => log w ++ pushedTo w pushes) ∧
      OnlyRuns files files' := by
  induction pushes generalizing files collectors log with
  | nil =>
    refine ⟨collectors, files, rfl, ?_, fun _ _ => rfl⟩
    intro w
    have hnil : log w ++ pushedTo w [] = log w := List.append_nil _
    simp only [hnil]
    exact h w
  | cons push pushes ih =>
    obtain ⟨w, x⟩ := push
    obtain ⟨chunks, hcollected, hbuffer⟩ := h w
    have hw := hb w
    rw [List.length_cons] at hw
    obtain ⟨c', files', chunks', hpush, hcollected', hbuffer', honly⟩ :=
      push_ok x hcollected hbuffer (by omega)
    have hnext : AllCollected files' (Function.update collectors w c')
        (Function.update log w (log w ++ [x])) := by
      intro w'
      by_cases hne : w' = w
      · subst hne
        rw [Function.update_self, Function.update_self]
        exact ⟨chunks', hcollected', hbuffer'⟩
      · obtain ⟨other, hother, hshort⟩ := h w'
        rw [Function.update_of_ne hne, Function.update_of_ne hne]
        exact ⟨other, hother.congr (honly.same hne), hshort⟩
    obtain ⟨collectors', files'', hrest, hall, hruns⟩ := ih hnext (by
      intro w'
      have hw' := hb w'
      rw [List.length_cons] at hw'
      by_cases hne : w' = w
      · subst hne
        rw [Function.update_self, List.length_append]
        change (log w').length + 1 + pushes.length < u64Bound
        omega
      · rw [Function.update_of_ne hne]
        omega)
    refine ⟨collectors', files'', ?_, ?_, ?_⟩
    · rw [pushAll, hpush, result_bind]
      exact hrest
    · intro w'
      have hthis := hall w'
      by_cases hne : w' = w
      · subst hne
        simp only [Function.update_self, List.append_assoc, List.singleton_append] at hthis
        simp only [pushedTo_self]
        exact hthis
      · simp only [Function.update_of_ne hne] at hthis
        simp only [pushedTo_other (Ne.symm hne)]
        exact hthis
    · intro path hpath
      rw [hruns path hpath, honly path (hpath w)]

/-- What is pushed to the workers `w .. w + n`, in the order of the pushes. -/
def pushedWithin (w n : Nat) (pushes : List (Nat × UInt64)) : List UInt64 :=
  (pushes.filter fun p => w ≤ p.1 ∧ p.1 < w + n).map Prod.snd

theorem pushedWithin_succ (w n : Nat) (pushes : List (Nat × UInt64)) :
    (pushedTo w pushes ++ pushedWithin (w + 1) n pushes).Perm (pushedWithin w (n + 1) pushes) := by
  have hsplit := List.filter_append_perm (fun p : Nat × UInt64 => p.1 = w)
    (pushes.filter fun p => w ≤ p.1 ∧ p.1 < w + (n + 1))
  have hfirst : (fun p : Nat × UInt64 => decide (p.1 = w) && decide (w ≤ p.1 ∧ p.1 < w + (n + 1))) =
      fun p => decide (p.1 = w) := by
    funext p
    rw [Bool.eq_iff_iff]
    simp only [Bool.and_eq_true, decide_eq_true_eq]
    omega
  have hrest : (fun p : Nat × UInt64 =>
      (!decide (p.1 = w)) && decide (w ≤ p.1 ∧ p.1 < w + (n + 1))) =
      fun p => decide (w + 1 ≤ p.1 ∧ p.1 < w + 1 + n) := by
    funext p
    rw [Bool.eq_iff_iff]
    simp only [Bool.and_eq_true, Bool.not_eq_true', decide_eq_false_iff_not, decide_eq_true_eq]
    omega
  rw [List.filter_filter, List.filter_filter, hfirst, hrest] at hsplit
  have hmap := hsplit.map Prod.snd
  rw [List.map_append] at hmap
  exact hmap

theorem Collected.nodup (h : Collected files w c chunks pushed) :
    (c.runs.map PositionRun.path).Nodup := by
  rw [h.paths]
  exact List.nodup_range.map fun i j heq => (Path.run.inj heq).2

theorem Collected.bounded (h : Collected files w c chunks pushed) :
    ∀ chunk ∈ chunks, chunk.length * 8 < u64Bound := by
  intro chunk hchunk
  have hle := (h.sized chunk hchunk).2
  have h1 : positionRunValueCapacity = 2 ^ 20 := rfl
  have h2 : u64Bound = 2 ^ 64 := rfl
  omega

/-- The values of the runs are those pushed to the workers that have finished. -/
theorem finishAll_ok {n w : Nat} {pushes : List (Nat × UInt64)}
    {collectors : Nat → PositionRunCollector} (hb : pushes.length < u64Bound)
    (h : ∀ w', w ≤ w' → ∃ chunks, Collected files w' (collectors w') chunks (pushedTo w' pushes) ∧
      (collectors w').values.length < positionRunValueCapacity) :
    ∃ runs files' chunks, finishAll collectors n w files = .ok (runs, files') ∧
      AllStored files' runs chunks ∧ chunks.flatten.Perm (pushedWithin w n pushes) ∧
      (∀ run ∈ runs, ∃ w' i, w ≤ w' ∧ run.path = .run w' i) ∧
      ∀ path, (∀ w' i, w ≤ w' → path ≠ .run w' i) → files' path = files path := by
  induction n generalizing w files with
  | zero =>
    refine ⟨[], files, [], rfl, ⟨.nil, .nil, by simp⟩, ?_, by simp, fun _ _ => rfl⟩
    have hnone : (pushes.filter fun p => w ≤ p.1 ∧ p.1 < w + 0) = [] := by
      rw [List.filter_eq_nil_iff]
      intro p _
      simp
    rw [pushedWithin, hnone]
    exact .refl _
  | succ n ih =>
    obtain ⟨chunks, hcollected, hbuffer⟩ := h w (Nat.le_refl _)
    have hle : (pushedTo w pushes).length ≤ pushes.length := by
      rw [pushedTo, List.length_map]
      exact List.length_filter_le _ _
    obtain ⟨c', files', chunks', hflush, hdone, hempty, honly⟩ :=
      flush_ok hcollected hbuffer.le (Nat.lt_of_le_of_lt hle hb)
    obtain ⟨runs, files'', rest, hrest, hall, hperm, hpaths, hother⟩ := ih (w := w + 1) (by
      intro w' hw'
      obtain ⟨other, hcollected', hshort⟩ := h w' (Nat.le_of_succ_le hw')
      exact ⟨other, hcollected'.congr (honly.same (by omega)), hshort⟩)
    have hkept : ∀ i, files'' (.run w i) = files' (.run w i) := by
      intro i
      refine hother _ ?_
      intro w' j hw' heq
      have hsame := (Path.run.inj heq).1
      omega
    have hdone' := hdone.congr hkept
    refine ⟨c'.runs ++ runs, files'', chunks' ++ rest, ?_, ⟨?_, ?_, ?_⟩, ?_, ?_, ?_⟩
    · have hfinish : (collectors w).finish files = .ok (c'.runs, files') := by
        rw [PositionRunCollector.finish, hflush, result_bind]
        rfl
      rw [finishAll, hfinish, result_bind]
      simp only [hrest, result_bind]
      rfl
    · exact List.rel_append hdone'.stored hall.stored
    · rw [List.map_append]
      refine hdone'.nodup.append hall.apart ?_
      intro path hfirst hlater
      obtain ⟨run, hrun, rfl⟩ := List.mem_map.mp hfirst
      obtain ⟨run', hrun', heq⟩ := List.mem_map.mp hlater
      obtain ⟨i, -, hpath⟩ := hdone'.runs_path hrun
      obtain ⟨w', j, hw', hpath'⟩ := hpaths run' hrun'
      rw [hpath, hpath'] at heq
      have hsame := (Path.run.inj heq).1
      omega
    · intro chunk hchunk
      cases List.mem_append.mp hchunk with
      | inl hchunk => exact hdone'.bounded chunk hchunk
      | inr hchunk => exact hall.bounded chunk hchunk
    · have hcontents := hdone'.contents
      rw [hempty, List.append_nil] at hcontents
      rw [List.flatten_append, hcontents]
      exact (hperm.append_left _).trans (pushedWithin_succ w n pushes)
    · intro run hrun
      cases List.mem_append.mp hrun with
      | inl hrun =>
        obtain ⟨i, -, heq⟩ := hdone'.runs_path hrun
        exact ⟨w, i, Nat.le_refl _, heq⟩
      | inr hrun =>
        obtain ⟨w', i, hw', heq⟩ := hpaths run hrun
        exact ⟨w', i, Nat.le_of_succ_le hw', heq⟩
    · intro path hpath
      rw [hother path fun w' i hw' => hpath w' i (Nat.le_of_succ_le hw')]
      exact honly path fun i => hpath w i (Nat.le_refl _)

/-- A run directory in which no run has been written yet. -/
structure Fresh (files : Files) : Prop where
  runs : ∀ w i, files (.run w i) = none
  temporary : files .spentSorted = none

theorem collectRuns_ok (hf : Fresh files) {workers : Nat} {pushes : List (Nat × UInt64)}
    (hworkers : ∀ p ∈ pushes, p.1 < workers) (hb : pushes.length < u64Bound) :
    ∃ runs files' chunks, collectRuns workers pushes files = .ok (runs, files') ∧
      AllStored files' runs chunks ∧ chunks.flatten.Perm (pushes.map Prod.snd) ∧
      (∀ run ∈ runs, ∃ w i, run.path = .run w i) ∧ files' .spentSorted = none := by
  have hnew : AllCollected files PositionRunCollector.new fun _ => [] := by
    intro w
    refine ⟨[], ⟨rfl, rfl, rfl, .nil, fun i _ => hf.runs w i, by simp, rfl⟩, ?_⟩
    exact Nat.two_pow_pos 20
  have hroom : ∀ w : Nat, ([] : List UInt64).length + pushes.length < u64Bound := by
    intro _
    rw [List.length_nil, Nat.zero_add]
    exact hb
  obtain ⟨collectors, files', hpush, hall, honly⟩ := pushAll_ok hnew hroom
  simp only [List.nil_append] at hall
  obtain ⟨runs, files'', chunks, hfinish, hstored, hperm, hpaths, hother⟩ :=
    finishAll_ok (n := workers) (w := 0) hb fun w _ => hall w
  have hwhole : pushedWithin 0 workers pushes = pushes.map Prod.snd := by
    have hkeep : (pushes.filter fun p => 0 ≤ p.1 ∧ p.1 < 0 + workers) = pushes := by
      rw [List.filter_eq_self]
      intro p hp
      simpa using hworkers p hp
    rw [pushedWithin, hkeep]
  refine ⟨runs, files'', chunks, ?_, hstored, hwhole ▸ hperm, ?_, ?_⟩
  · rw [collectRuns, hpush, result_bind]
    exact hfinish
  · intro run hrun
    obtain ⟨w, i, -, heq⟩ := hpaths run hrun
    exact ⟨w, i, heq⟩
  · rw [hother .spentSorted (fun _ _ _ h => by cases h), honly .spentSorted (fun _ _ h => by cases h)]
    exact hf.temporary

/-- Whatever the workers push, and in whatever order, the sorted runs merge into one file of all
the positions, in order. -/
theorem spentOutputs_sorted (hf : Fresh files) {workers : Nat} {pushes : List (Nat × UInt64)}
    (hworkers : ∀ p ∈ pushes, p.1 < workers) (hb : pushes.length < u64Bound) :
    ∃ runs files₁ files₂ files₃ values,
      collectRuns workers pushes files = .ok (runs, files₁) ∧
      sortPositionRuns runs files₁ = .ok files₂ ∧
      mergeSortRuns runs pushes.length files₂ = .ok files₃ ∧
      files₃ .spentOutputs = some (valueBytes values) ∧ values.Pairwise (· ≤ ·) ∧
      values.Perm (pushes.map Prod.snd) := by
  obtain ⟨runs, files₁, chunks, hcollect, hstored, hperm, hpaths, htemporary⟩ :=
    collectRuns_ok hf hworkers hb
  obtain ⟨files₂, hsort, hstored₂, hother⟩ := sortPositionRuns_ok hstored
  have hnone : files₂ .spentSorted = none := by
    rw [hother, htemporary]
    intro hmem
    obtain ⟨run, hrun, heq⟩ := List.mem_map.mp hmem
    obtain ⟨w, i, hpath⟩ := hpaths run hrun
    cases hpath.symm.trans heq
  have hsorted : ∀ source ∈ chunks.map sortValues, source.Pairwise (· ≤ ·) := by
    intro source hsource
    obtain ⟨chunk, -, rfl⟩ := List.mem_map.mp hsource
    exact sortValues_sorted chunk
  have hall : (chunks.map sortValues).flatten.Perm (pushes.map Prod.snd) := by
    refine List.Perm.trans ?_ hperm
    have hsame := List.Perm.flatMap_left chunks fun chunk _ => sortValues_perm chunk
    rw [List.flatMap_id'] at hsame
    rw [← List.flatMap_def]
    exact hsame
  have hlength : (chunks.map sortValues).flatten.length = pushes.length := by
    rw [hall.length_eq, List.length_map]
  obtain ⟨files₃, values, hmerge, hfile, hout, hvalues⟩ := mergeSortRuns_ok hstored₂ hsorted hnone
    (by
      intro run hrun heq
      obtain ⟨w, i, hpath⟩ := hpaths run hrun
      cases hpath.symm.trans heq)
    (by rw [hlength]; exact hb)
  rw [hlength] at hmerge
  exact ⟨runs, files₁, files₂, files₃, values, hcollect, hsort, hmerge, hfile, hout,
    hvalues.trans hall⟩

end CollectorSteps

end FlorestaDb.Hintsgen
