import FlorestaDb.Closing
import FlorestaDb.HintsgenChain

/-! From the chain to the hints: what the workers leave in the database and in their runs, in
whatever order they take their steps, and what `run` makes of it once all have finished. -/
namespace FlorestaDb.Hintsgen

section Writing

/-- The slot of a block whose outputs are not indexed yet. -/
def unprocessedCount : UInt32 := 0xffffffff

/-- The slots of the heights as the adders have left them. -/
def State.blockSlots (job : Job) (s : State) : List UInt32 :=
  (List.range job.endHeight).map fun height =>
    match s.add.counts height with
    | none => unprocessedCount
    | some count => UInt32.ofNat count

def collectOutputCounts : List UInt32 → AnyResult (List UInt32)
  | [] => .ok []
  | slot :: slots =>
    if slot = unprocessedCount then .error (.other "an output-count slot was never published")
    else do
      let counts ← collectOutputCounts slots
      return slot :: counts

/-- The offsets of the blocks after one that starts at `offset`. -/
def foldFrom (offset : Nat) : List UInt32 → AnyResult (List Nat)
  | [] => .ok [offset]
  | count :: counts => do
    let next ← orFail (checkedAdd offset count.toNat) (.invalidInput "global output index overflow")
    let offsets ← foldFrom next counts
    return offset :: offsets

def foldOutputCounts (counts : List UInt32) : AnyResult (List Nat) := foldFrom 0 counts

structure HintsStats where
  eligibleOutputs : Nat
  unspentOutputs : Nat
  deriving DecidableEq, Repr

def writeHintsfile (spentRuns : List PositionRun) (tipHeight : Nat) (counts : List UInt32)
    (offsets : List Nat) (files : Files) : AnyResult (HintsStats × Hintsfile × Files) := do
  let eligible ← orFail offsets.getLast? (.invalidInput "block offsets are empty")
  let spent ← totalLength "spent output count overflow" (spentRuns.map PositionRun.values) 0
  let unspent ← orFail (checkedSub eligible spent) (.invalidInput "spent outputs exceed eligible outputs")
  let files ← sortPositionRuns spentRuns files
  let files ← mergeSortRuns spentRuns spent files
  let (encoded, hints) ← encodeUnspentHintsfile .spentOutputs tipHeight counts files
  if encoded ≠ unspent then
    .error (.other s!"encoded output count mismatch: expected={unspent}, actual={encoded}")
  else return (⟨eligible, unspent⟩, hints, files.remove .spentOutputs)

def compactionMinPageLoad : Nat := 8192

/-- The `?` behind a call of the database. -/
def fromDatabase {α : Type} (r : Except Error α) : AnyResult α := r.mapError .database

/- The rest of `run` after the workers have been joined, with the positions they pushed and with
   what `compact` and then `close` return for the database. -/
def finishRun (job : Job) (tipHeight : Nat) (pushes : List (Nat × UInt64)) (s : State)
    (compacted : Except Error CompactionStats) (closed : Except Error Unit) (files : Files) :
    AnyResult (HintsStats × Hintsfile × Files) := do
  let (runs, files) ← collectRuns job.removers pushes files
  let counts ← collectOutputCounts (s.blockSlots job)
  let offsets ← foldOutputCounts counts
  let _ ← fromDatabase compacted
  let () ← fromDatabase closed
  let (stats, hints, files) ← writeHintsfile runs tipHeight counts offsets files
  if s.live ≠ stats.unspentOutputs then
    let unspent := stats.unspentOutputs
    .error (.other s!"live output count mismatch: database={s.live}, hints={unspent}")
  else return (stats, hints, files)

end Writing

section Counts

theorem collectOutputCounts_ok {counts : List UInt32} (h : unprocessedCount ∉ counts) :
    collectOutputCounts counts = .ok counts := by
  induction counts with
  | nil => rfl
  | cons count counts ih =>
    have hne : count ≠ unprocessedCount := fun heq => h (heq ▸ List.mem_cons_self)
    rw [collectOutputCounts, if_neg hne, ih fun hmem => h (List.mem_cons_of_mem count hmem), result_bind]
    rfl

/-- The last offset counts all outputs. -/
theorem foldFrom_ok (offset : Nat) (counts : List UInt32)
    (h : offset + (counts.map UInt32.toNat).sum < u64Bound) :
    ∃ offsets, foldFrom offset counts = .ok offsets ∧
      offsets.getLast? = some (offset + (counts.map UInt32.toNat).sum) := by
  induction counts generalizing offset with
  | nil => exact ⟨[offset], rfl, by simp⟩
  | cons count counts ih =>
    rw [List.map_cons, List.sum_cons] at h ⊢
    obtain ⟨offsets, hfold, hlast⟩ := ih (offset + count.toNat) (by omega)
    refine ⟨offset :: offsets, ?_, ?_⟩
    · rw [foldFrom, checkedAdd_of_lt (by omega), orFail_some, result_bind, hfold, result_bind]
      rfl
    · rw [← Nat.add_assoc, List.getLast?_cons, hlast]
      rfl

end Counts

section Outputs
variable {chain : Chain} {adders removers size endHeight h i : Nat} {o : OutPoint}

/-- Everything that the blocks below the end spend. -/
def Chain.allSpent (chain : Chain) (endHeight : Nat) : List OutPoint :=
  (List.range endHeight).flatMap chain.spent

/-- The outputs of a block that no block spends, by their indices. -/
def Chain.unspentAt (chain : Chain) (endHeight height : Nat) : List Nat :=
  ((chain.eligible height).zipIdx.filter fun o => o.1 ∉ chain.allSpent endHeight).map Prod.snd

theorem Chain.mem_allSpent : o ∈ chain.allSpent endHeight ↔ ∃ h < endHeight, o ∈ chain.spent h := by
  simp [allSpent]

/-- No output of the genesis block is indexed. -/
theorem Chain.eligible_zero (chain : Chain) : chain.eligible 0 = [] := by
  have hnone : ∀ (network : ChainType) (transactionIndex : Nat) (output : TxOut),
      shouldIndexOutput network 0 transactionIndex output = false := fun _ _ _ => rfl
  simp [eligible, eligibleIn, eligibleFrom, hnone]

theorem Chain.Valid.eligible_lt (hv : chain.Valid endHeight) (hh : h < endHeight) :
    (chain.eligible h).length < 2 ^ 32 - 1 :=
  Nat.lt_of_le_of_lt (chain.eligible_length_le h) (hv.outputs h hh)

theorem Chain.Valid.index_lt (hv : chain.Valid endHeight) (hh : h < endHeight)
    (ho : (o, i) ∈ (chain.eligible h).zipIdx) : i < 2 ^ 32 := by
  have hlt := hv.eligible_lt hh
  have hindex := List.snd_lt_of_mem_zipIdx ho
  dsimp only at hindex
  omega

theorem Chain.Valid.height_lt (hv : chain.Valid endHeight) (hh : h < endHeight) : h < 2 ^ 32 :=
  Nat.lt_of_lt_of_le hh hv.heights

theorem Chain.Keyed.distinct_job (hv : chain.Keyed endHeight) :
    (chain.job adders removers size endHeight).Distinct := by
  have hkeys : ((chain.job adders removers size endHeight).entries.map Prod.fst) =
      (List.range endHeight).flatMap fun h => (chain.eligible h).map outpointKey := by
    rw [Job.entries, List.map_flatMap]
    apply List.flatMap_congr
    intro h hh
    exact Chain.job_keys hv.toValid (List.mem_range.mp hh)
  rw [Job.Distinct, hkeys]
  exact hv.distinct

theorem Chain.Valid.entry_mem (hv : chain.Valid endHeight) (adders removers size : Nat) (hh : h < endHeight)
    (ho : (o, i) ∈ (chain.eligible h).zipIdx) :
    (outpointKey o, Hash.leBytes 8 (packOutputPosition h i).toNat) ∈
      (chain.job adders removers size endHeight).outputs h := by
  rw [Chain.job_outputs hv hh]
  exact List.mem_map.mpr ⟨(o, i), ho, rfl⟩

/-- The position of an output says where it was created. -/
theorem Chain.Keyed.position_eq (hv : chain.Keyed endHeight) (adders removers size : Nat)
    (hh : h < endHeight) (ho : (o, i) ∈ (chain.eligible h).zipIdx) :
    (chain.job adders removers size endHeight).position (outpointKey o) = packOutputPosition h i := by
  have hentry := hv.entry_mem adders removers size hh ho
  have hposition := Hintsgen.position_eq hv.distinct_job hh hentry
  rw [positionOf, Hash.ofNat_leValue_leBytes] at hposition
  exact hposition

/-- What is spent was created in some block, at some index. -/
theorem Chain.Valid.origin (hv : chain.Valid endHeight) (ho : o ∈ chain.allSpent endHeight) :
    ∃ h < endHeight, ∃ i, (o, i) ∈ (chain.eligible h).zipIdx := by
  obtain ⟨h, hh, hspent⟩ := Chain.mem_allSpent.mp ho
  obtain ⟨h', hle, hcreated⟩ := hv.created h hh o hspent
  obtain ⟨i, hi, heq⟩ := List.mem_iff_getElem.mp hcreated
  refine ⟨h', Nat.lt_of_le_of_lt hle hh, i, List.mem_zipIdx_iff_getElem?.mpr ?_⟩
  exact heq ▸ List.getElem?_eq_getElem hi

theorem packOutputPosition_inj {h h' i i' : Nat} (hh : h < 2 ^ 32) (hi : i < 2 ^ 32) (hh' : h' < 2 ^ 32)
    (hi' : i' < 2 ^ 32) (heq : packOutputPosition h i = packOutputPosition h' i') : h = h' ∧ i = i' := by
  have hsame := congrArg unpackOutputPosition heq
  rw [unpackOutputPosition_pack hh hi, unpackOutputPosition_pack hh' hi'] at hsame
  exact Prod.mk.inj hsame

/-- Two outputs at one position are one output. -/
theorem Chain.Valid.same_place (hv : chain.Valid endHeight) {h' i' : Nat} {o' : OutPoint}
    (hh : h < endHeight) (hh' : h' < endHeight) (ho : (o, i) ∈ (chain.eligible h).zipIdx)
    (ho' : (o', i') ∈ (chain.eligible h').zipIdx)
    (heq : packOutputPosition h i = packOutputPosition h' i') : o = o' := by
  obtain ⟨rfl, rfl⟩ := packOutputPosition_inj (hv.height_lt hh) (hv.index_lt hh ho) (hv.height_lt hh')
    (hv.index_lt hh' ho') heq
  rw [List.mem_zipIdx_iff_getElem?] at ho ho'
  exact Option.some.inj (ho.symm.trans ho')

/-- The positions of the spent outputs, in the order of the blocks. -/
def Chain.spentPositions (chain : Chain) (adders removers size endHeight : Nat) : List UInt64 :=
  (chain.allSpent endHeight).map fun o =>
    (chain.job adders removers size endHeight).position (outpointKey o)

theorem Chain.Keyed.spentPositions_nodup (hv : chain.Keyed endHeight) :
    (chain.spentPositions adders removers size endHeight).Nodup := by
  apply hv.once.map_on
  intro o ho o' ho' heq
  obtain ⟨h, hh, i, hi⟩ := hv.origin ho
  obtain ⟨h', hh', i', hi'⟩ := hv.origin ho'
  rw [hv.position_eq _ _ _ hh hi, hv.position_eq _ _ _ hh' hi'] at heq
  exact hv.same_place hh hh' hi hi' heq

theorem Chain.Keyed.mem_spentPositions (hv : chain.Keyed endHeight) (adders removers size : Nat)
    (hh : h < endHeight) (ho : (o, i) ∈ (chain.eligible h).zipIdx) :
    packOutputPosition h i ∈ chain.spentPositions adders removers size endHeight ↔
      o ∈ chain.allSpent endHeight := by
  constructor
  · intro hmem
    obtain ⟨o', ho', heq⟩ := List.mem_map.mp hmem
    obtain ⟨h', hh', i', hi'⟩ := hv.origin ho'
    rw [hv.position_eq _ _ _ hh' hi'] at heq
    rw [← hv.same_place hh' hh hi' ho heq]
    exact ho'
  · intro hspent
    rw [← hv.position_eq adders removers size hh ho]
    exact List.mem_map_of_mem hspent

/-- Every output is spent or not, and what is spent is an output. -/
theorem Chain.Keyed.unspent_count (hv : chain.Keyed endHeight) :
    ((List.range endHeight).map fun h => (chain.unspentAt endHeight h).length).sum +
      (chain.allSpent endHeight).length = ((List.range endHeight).map fun h => (chain.eligible h).length).sum := by
  have hall : ((List.range endHeight).flatMap chain.eligible).Nodup := by
    have hkeys := hv.distinct
    rw [Chain.DistinctKeys, ← List.map_flatMap] at hkeys
    exact hkeys.of_map
  have hspent : (((List.range endHeight).flatMap chain.eligible).filter
      fun o => o ∈ chain.allSpent endHeight).Perm (chain.allSpent endHeight) := by
    have honce : (chain.allSpent endHeight).Nodup := hv.once
    rw [List.perm_ext_iff_of_nodup (hall.filter _) honce]
    intro o
    rw [List.mem_filter, List.mem_flatMap, decide_eq_true_iff]
    constructor
    · exact fun h => h.2
    · intro ho
      obtain ⟨h, hh, i, hi⟩ := hv.origin ho
      exact ⟨⟨h, List.mem_range.mpr hh, (List.mem_zipIdx' hi).2 ▸ List.getElem_mem _⟩, ho⟩
  have hunspent : ∀ h, (chain.unspentAt endHeight h).length =
      ((chain.eligible h).filter fun o => !decide (o ∈ chain.allSpent endHeight)).length := by
    intro h
    have hfst : (chain.eligible h).zipIdx.map Prod.fst = chain.eligible h := List.zipIdx_map_fst 0 _
    calc (chain.unspentAt endHeight h).length
        = (((chain.eligible h).zipIdx.map Prod.fst).filter
            fun o => !decide (o ∈ chain.allSpent endHeight)).length := by
          rw [unspentAt, List.length_map, List.filter_map, List.length_map]
          simp [Function.comp_def]
      _ = _ := by rw [hfst]
  have hsplit := List.length_eq_length_filter_add (l := (List.range endHeight).flatMap chain.eligible)
    fun o => decide (o ∈ chain.allSpent endHeight)
  rw [hspent.length_eq, List.length_flatMap, List.filter_flatMap, List.length_flatMap] at hsplit
  simp only [hunspent]
  omega

end Outputs

section Pushes

theorem count_pushedTo (w : Nat) (x : UInt64) (pushes : List (Nat × UInt64)) :
    (pushedTo w pushes).count x = pushes.count (w, x) := by
  induction pushes with
  | nil => rfl
  | cons push pushes ih =>
    obtain ⟨v, y⟩ := push
    by_cases hv : v = w
    · subst hv
      rw [pushedTo_self, List.count_cons, List.count_cons, ih]
      simp
    · rw [pushedTo_other hv, ih, List.count_cons_of_ne]
      intro heq
      exact hv (Prod.mk.inj heq).1

/-- Only the order in which different workers push is open. -/
theorem perm_of_pushedTo {pushes pops : List (Nat × UInt64)}
    (h : ∀ w, pushedTo w pushes = pushedTo w pops) : pushes.Perm pops := by
  rw [List.perm_iff_count]
  intro push
  obtain ⟨w, x⟩ := push
  rw [← count_pushedTo, h w, count_pushedTo]

theorem popsOf_workers {job : Job} {ws : List Worker} {s s' : State} (h : follow job ws s = some s') :
    ∀ p ∈ popsOf job ws s, p.1 < job.removers := by
  induction ws generalizing s with
  | nil =>
    intro p hp
    cases hp
  | cons w ws ih =>
    obtain ⟨m, hstep, hrest⟩ := Option.bind_eq_some_iff.mp h
    rw [popsOf_cons hstep]
    intro p hp
    cases List.mem_append.mp hp with
    | inr hp => exact ih hrest p hp
    | inl hp =>
      cases w with
      | adder a => cases hp
      | remover r =>
        rw [Worker.step] at hstep
        split at hstep
        · rename_i hwork
          rw [State.poppedBy] at hp
          split at hp
          · obtain ⟨key, -, hkey⟩ := List.mem_filterMap.mp hp
            obtain ⟨value, -, rfl⟩ := Option.map_eq_some_iff.mp hkey
            exact hwork.1
          · cases hp
        · cases hstep

/-- The counts of the runs add up to the number of values in them. -/
theorem sum_run_values {files : Files} {runs : List PositionRun} {chunks : List (List UInt64)}
    (h : List.Forall₂ (Stored files) runs chunks) :
    (runs.map PositionRun.values).sum = chunks.flatten.length := by
  induction h with
  | nil => rfl
  | cons hstored _ ih =>
    rw [List.map_cons, List.sum_cons, List.flatten_cons, List.length_append, ih, hstored.count]

end Pushes

section Ends
variable {chain : Chain} {adders removers size tip h : Nat} {s : State}

/-- The number of outputs of the blocks below the end that are indexed. -/
def Chain.eligibleCount (chain : Chain) (endHeight : Nat) : Nat :=
  ((List.range endHeight).map fun h => (chain.eligible h).length).sum

theorem Chain.Valid.eligibleCount_lt {endHeight : Nat} (hv : chain.Valid endHeight) :
    chain.eligibleCount endHeight < u64Bound := by
  have hle : ∀ n ≤ endHeight, chain.eligibleCount n ≤ n * (2 ^ 32 - 1) := by
    intro n hn
    induction n with
    | zero => exact Nat.zero_le _
    | succ n ih =>
      have hlast := hv.eligible_lt (h := n) hn
      have hrest := ih (Nat.le_of_succ_le hn)
      rw [eligibleCount] at hrest ⊢
      rw [List.range_succ, List.map_append, List.sum_append, List.map_singleton, List.sum_singleton]
      omega
  calc chain.eligibleCount endHeight ≤ endHeight * (2 ^ 32 - 1) := hle endHeight (Nat.le_refl _)
    _ ≤ 2 ^ 32 * (2 ^ 32 - 1) := Nat.mul_le_mul_right _ hv.heights
    _ < u64Bound := by decide

theorem Chain.Valid.job_outputs_length {endHeight : Nat} (hv : chain.Valid endHeight) (hh : h < endHeight) :
    ((chain.job adders removers size endHeight).outputs h).length = (chain.eligible h).length := by
  rw [Chain.job_outputs hv hh, List.length_map, List.length_zipIdx]

/-- The counts that `run` collects. -/
def Chain.counts (chain : Chain) (endHeight : Nat) : List UInt32 :=
  (List.range endHeight).map fun h => UInt32.ofNat (chain.eligible h).length

theorem Chain.Valid.count_toNat {endHeight : Nat} (hv : chain.Valid endHeight) (hh : h < endHeight) :
    (UInt32.ofNat (chain.eligible h).length).toNat = (chain.eligible h).length := by
  have hlt := hv.eligible_lt hh
  rw [UInt32.toNat_ofNat']
  exact Nat.mod_eq_of_lt (by omega)

theorem Chain.Valid.outputCount_eq {endHeight : Nat} (hv : chain.Valid endHeight) (hh : h < endHeight) :
    outputCount (chain.counts endHeight) h = (chain.eligible h).length := by
  rw [outputCount, counts, List.getElem?_map, List.getElem?_range hh]
  exact hv.count_toNat hh

theorem Chain.Valid.counts_sum {endHeight : Nat} (hv : chain.Valid endHeight) :
    ((chain.counts endHeight).map UInt32.toNat).sum = chain.eligibleCount endHeight := by
  rw [counts, eligibleCount, List.map_map]
  refine congrArg List.sum (List.map_congr_left ?_)
  intro h hh
  exact hv.count_toNat (List.mem_range.mp hh)

theorem Chain.Valid.counts_processed {endHeight : Nat} (hv : chain.Valid endHeight) :
    unprocessedCount ∉ chain.counts endHeight := by
  intro hmem
  obtain ⟨h, hh, heq⟩ := List.mem_map.mp hmem
  have hlt := hv.eligible_lt (List.mem_range.mp hh)
  have hcount := hv.count_toNat (List.mem_range.mp hh)
  rw [heq] at hcount
  have hmax : unprocessedCount.toNat = 2 ^ 32 - 1 := rfl
  omega

theorem Settled.blockSlots {endHeight : Nat} (hv : chain.Valid endHeight)
    (hs : Settled (chain.job adders removers size endHeight) s) :
    s.blockSlots (chain.job adders removers size endHeight) = chain.counts endHeight := by
  apply List.map_congr_left
  intro h hh
  have hlt : h < endHeight := List.mem_range.mp hh
  rw [hs.counts h hlt, hv.job_outputs_length hlt]

/-- The hints of one block. -/
theorem Chain.Keyed.unspentAt_eq {endHeight : Nat} (hv : chain.Keyed endHeight) (hh : h < endHeight)
    {values : List UInt64}
    (hvalues : values.Perm (chain.spentPositions adders removers size endHeight)) :
    Hintsgen.unspentAt (chain.counts endHeight) values h = chain.unspentAt endHeight h := by
  have hrange : List.range (chain.eligible h).length = (chain.eligible h).zipIdx.map Prod.snd := by
    rw [List.zipIdx_map_snd, List.range_eq_range']
  rw [Hintsgen.unspentAt, Chain.unspentAt, hv.outputCount_eq hh, hrange, List.filter_map]
  refine congrArg (List.map Prod.snd) (List.filter_congr ?_)
  intro o ho
  have hiff := hv.mem_spentPositions adders removers size hh ho
  rw [← hvalues.mem_iff] at hiff
  simp only [Function.comp_apply, hiff]

theorem Chain.Keyed.encodable (hv : chain.Keyed (tip + 1)) {values : List UInt64}
    (hsorted : values.Pairwise (· ≤ ·))
    (hvalues : values.Perm (chain.spentPositions adders removers size (tip + 1))) :
    Encodable (chain.counts (tip + 1)) tip values := by
  have hnodup : values.Nodup := hvalues.nodup_iff.mpr hv.spentPositions_nodup
  refine ⟨(hsorted.and hnodup).imp fun h => UInt64.lt_of_le_of_ne h.1 h.2, ?_⟩
  intro p hp
  obtain ⟨o, ho, rfl⟩ := List.mem_map.mp (hvalues.mem_iff.mp hp)
  obtain ⟨h, hh, i, hi⟩ := hv.origin ho
  have hindex : i < (chain.eligible h).length := List.snd_lt_of_mem_zipIdx hi
  have hpos : h ≠ 0 := by
    intro hzero
    rw [hzero, chain.eligible_zero] at hindex
    exact Nat.not_lt_zero i hindex
  rw [hv.position_eq _ _ _ hh hi]
  have hunpack := unpackOutputPosition_pack (hv.height_lt hh) (hv.index_lt hh hi)
  refine ⟨?_, ?_, ?_⟩
  · rw [hunpack]
    exact Nat.pos_of_ne_zero hpos
  · rw [hunpack]
    change h < 1 + tip
    omega
  · rw [hunpack, hv.outputCount_eq hh]
    exact hindex

theorem range_succ_tip (tip : Nat) : List.range (tip + 1) = 0 :: List.range' 1 tip := by
  rw [List.range_eq_range', List.range'_succ]

/-- Every indexed output is at a height that the hints cover. -/
theorem Chain.Valid.sum_outputCount (hv : chain.Valid (tip + 1)) :
    ((List.range' 1 tip).map (outputCount (chain.counts (tip + 1)))).sum = chain.eligibleCount (tip + 1) := by
  rw [eligibleCount, range_succ_tip, List.map_cons, List.sum_cons, chain.eligible_zero, List.length_nil,
    Nat.zero_add]
  refine congrArg List.sum (List.map_congr_left ?_)
  intro h hh
  rw [List.mem_range'_1] at hh
  exact hv.outputCount_eq (by omega)

/-- The hints list as many outputs as are live. -/
theorem Chain.Keyed.sum_unspentAt (hv : chain.Keyed (tip + 1)) :
    ((List.range' 1 tip).map fun h => (chain.unspentAt (tip + 1) h).length).sum +
      (chain.allSpent (tip + 1)).length = chain.eligibleCount (tip + 1) := by
  have hcount := hv.unspent_count
  have hzero : chain.unspentAt (tip + 1) 0 = [] := by
    rw [unspentAt, chain.eligible_zero]
    rfl
  rw [eligibleCount, ← hcount, range_succ_tip, List.map_cons, List.sum_cons, hzero, List.length_nil,
    Nat.zero_add]

/-- All that the blocks spend was popped. -/
theorem Settled.spentIn {endHeight : Nat} (hv : chain.Valid endHeight)
    (hs : Settled (chain.job adders removers size endHeight) s) :
    (chain.job adders removers size endHeight).spentIn s.remove.popped =
      (chain.allSpent endHeight).map outpointKey := by
  have hall : (List.range endHeight).filter s.remove.popped = List.range endHeight := by
    rw [List.filter_eq_self]
    intro h hh
    exact hs.popped h (List.mem_range.mp hh)
  change ((List.range endHeight).filter s.remove.popped).flatMap _ = _
  rw [hall, Chain.allSpent, List.map_flatMap]
  apply List.flatMap_congr
  intro h hh
  exact Chain.job_spends hv (List.mem_range.mp hh)

theorem Settled.live_eq {endHeight : Nat} (hv : chain.Valid endHeight)
    (hs : Settled (chain.job adders removers size endHeight) s) :
    s.live + (chain.allSpent endHeight).length = chain.eligibleCount endHeight := by
  have hlive := hs.live
  have hspends : (List.range endHeight).map (fun x =>
      ((chain.job adders removers size endHeight).spends x).length) =
      (List.range endHeight).map fun x => (chain.spent x).length := by
    apply List.map_congr_left
    intro h hh
    rw [Chain.job_spends hv (List.mem_range.mp hh), List.length_map]
  have houtputs : (List.range endHeight).map (fun x =>
      ((chain.job adders removers size endHeight).outputs x).length) =
      (List.range endHeight).map fun x => (chain.eligible x).length := by
    apply List.map_congr_left
    intro h hh
    exact hv.job_outputs_length (List.mem_range.mp hh)
  rw [Chain.allSpent, List.length_flatMap, Chain.eligibleCount, ← houtputs, ← hspends]
  exact hlive

/-- The database holds the outputs that are not spent, each at its position, and nothing else. -/
structure HoldsUnspent (chain : Chain) (endHeight : Nat) (M : Stacks) : Prop where
  unspent : ∀ h < endHeight, ∀ o i, (o, i) ∈ (chain.eligible h).zipIdx → o ∉ chain.allSpent endHeight →
    M (outpointKey o) = [Hash.leBytes 8 (packOutputPosition h i).toNat]
  rest : ∀ key, (∀ h < endHeight, ∀ o ∈ chain.eligible h, outpointKey o = key →
    o ∈ chain.allSpent endHeight) → M key = []

/-- The entries that it holds. -/
def Chain.unspentEntries (chain : Chain) (endHeight : Nat) : List (Key × List UInt8) :=
  (List.range endHeight).flatMap fun h =>
    ((chain.eligible h).zipIdx.filter fun o => o.1 ∉ chain.allSpent endHeight).map fun o =>
      (outpointKey o.1, Hash.leBytes 8 (packOutputPosition h o.2).toNat)

theorem Chain.DistinctKeys.unspent {endHeight : Nat} (h : chain.DistinctKeys endHeight) :
    ((chain.unspentEntries endHeight).map Prod.fst).Nodup := by
  rw [Chain.unspentEntries, List.map_flatMap]
  refine List.Nodup.sublist (List.Sublist.flatMap_right _ fun x _ => ?_) h
  rw [List.map_map]
  have hall : (chain.eligible x).map outpointKey = (chain.eligible x).zipIdx.map (outpointKey ∘ Prod.fst) := by
    rw [← List.map_map, List.zipIdx_map_fst]
  rw [hall]
  exact List.filter_sublist.map _

theorem HoldsUnspent.eq {endHeight : Nat} {M : Stacks} (h : HoldsUnspent chain endHeight M)
    (hkeys : chain.DistinctKeys endHeight) :
    M = Stacks.pushAll (fun _ => []) (chain.unspentEntries endHeight) := by
  funext key
  rw [Stacks.pushAll, List.append_nil]
  by_cases hkey : key ∈ (chain.unspentEntries endHeight).map Prod.fst
  · obtain ⟨entry, hentry, rfl⟩ := List.mem_map.mp hkey
    rw [values_of_nodup hkeys.unspent hentry, List.reverse_singleton]
    obtain ⟨x, hx, hmem⟩ := List.mem_flatMap.mp hentry
    obtain ⟨o, ho, rfl⟩ := List.mem_map.mp hmem
    obtain ⟨ho, hunspent⟩ := List.mem_filter.mp ho
    exact h.unspent x (List.mem_range.mp hx) o.1 o.2 ho (of_decide_eq_true hunspent)
  · have hnone : ∀ e ∈ chain.unspentEntries endHeight, e.1 ≠ key := by
      intro e he heq
      exact hkey (heq ▸ List.mem_map_of_mem he)
    rw [Buckets.values_eq_nil hnone, List.reverse_nil]
    apply h.rest key
    intro x hx o ho heq
    by_contra hunspent
    obtain ⟨i, hi, hat⟩ := List.mem_iff_getElem.mp ho
    have hzip : (o, i) ∈ (chain.eligible x).zipIdx :=
      List.mem_zipIdx_iff_getElem?.mpr (hat ▸ List.getElem?_eq_getElem hi)
    have hlisted : (o, i) ∈ (chain.eligible x).zipIdx.filter fun o => o.1 ∉ chain.allSpent endHeight :=
      List.mem_filter.mpr ⟨hzip, decide_eq_true hunspent⟩
    have hmapped := List.mem_map_of_mem (f := fun o : OutPoint × Nat =>
      (outpointKey o.1, Hash.leBytes 8 (packOutputPosition x o.2).toNat)) hlisted
    exact hnone _ (List.mem_flatMap.mpr ⟨x, List.mem_range.mpr hx, hmapped⟩) heq

theorem Settled.holdsUnspent {endHeight : Nat} {pops : List (Nat × UInt64)} (hv : chain.Keyed endHeight)
    (hs : Settled (chain.job adders removers size endHeight) s)
    (hl : Ledger (chain.job adders removers size endHeight) pops s) :
    HoldsUnspent chain endHeight s.database where
  unspent := by
    intro h hh o i ho hunspent
    have hkept : outpointKey o ∉ (chain.job adders removers size endHeight).spentIn s.remove.popped := by
      rw [hs.spentIn hv.toValid]
      intro hmem
      obtain ⟨o', ho', heq⟩ := List.mem_map.mp hmem
      obtain ⟨h', hh', hspent⟩ := Chain.mem_allSpent.mp ho'
      have hcreated : o ∈ chain.eligible h := (List.mem_zipIdx' ho).2 ▸ List.getElem_mem _
      have hsame := hv.spent_key hh hh' hcreated hspent heq.symm
      exact hunspent (hsame ▸ ho')
    have hentry := hv.entry_mem adders removers size hh ho
    have hstored := hl.holds h hh (hs.inserted h hh) _ hentry hkept
    exact hstored
  rest := by
    intro key hkey
    apply hl.clear key
    intro h hh _ hmem
    change h < endHeight at hh
    rw [Chain.job_keys hv.toValid hh] at hmem
    obtain ⟨o, ho, rfl⟩ := List.mem_map.mp hmem
    rw [hs.spentIn hv.toValid]
    exact List.mem_map_of_mem (hkey h hh o ho rfl)

end Ends

section Whole
variable {chain : Chain} {adders removers size tip : Nat} {ws : List Worker} {s : State} {files : Files}
  {pushes : List (Nat × UInt64)}

/-- What was pushed by the end are the positions of everything that is spent. -/
theorem pushes_perm (hadders : 0 < adders) (hremovers : 0 < removers) (hsize : 0 < size)
    (hv : chain.Keyed (tip + 1))
    (hrun : follow (chain.job adders removers size (tip + 1)) ws .initial = some s)
    (hf : s.Finished (chain.job adders removers size (tip + 1)))
    (hpushes : ∀ w, pushedTo w pushes =
      pushedTo w (popsOf (chain.job adders removers size (tip + 1)) ws .initial)) :
    Settled (chain.job adders removers size (tip + 1)) s ∧ HoldsUnspent chain (tip + 1) s.database ∧
      (∀ p ∈ pushes, p.1 < removers) ∧
      (pushes.map Prod.snd).Perm (chain.spentPositions adders removers size (tip + 1)) := by
  have hj : (chain.job adders removers size (tip + 1)).WellFormed := hv.wellFormed hadders hsize
  have hinv := ((Reachable.initial.follow hrun).invariant hj).1
  have hs := hinv.settled hadders hremovers hf
  have hl := ledger_run hj hv.distinct_job hrun
  have hperm := perm_of_pushedTo hpushes
  refine ⟨hs, hs.holdsUnspent hv hl, ?_, ?_⟩
  · intro p hp
    exact popsOf_workers hrun p (hperm.mem_iff.mp hp)
  · have hpops := hl.pops
    rw [hs.spentIn hv.toValid, List.map_map] at hpops
    exact (hperm.map Prod.snd).trans hpops

/- Whatever the order of the workers' steps: when all have finished, `run` writes for each block the
   outputs that no block spends, every one of its checks passes, and the database holds these
   outputs at their positions, also when it is compacted, closed and opened again. -/
theorem run_writes_unspent (hadders : 0 < adders) (hremovers : 0 < removers) (hsize : 0 < size)
    (hvalid : chain.Valid (tip + 1)) (hkeys : chain.DistinctKeys (tip + 1))
    (hrun : follow (chain.job adders removers size (tip + 1)) ws .initial = some s)
    (hf : s.Finished (chain.job adders removers size (tip + 1))) (hfresh : Fresh files)
    (hpushes : ∀ w, pushedTo w pushes =
      pushedTo w (popsOf (chain.job adders removers size (tip + 1)) ws .initial))
    {cfg : Config} {o : Origin} {w : Disk} {m : Machine} {t : Program.Tid} {stats : CompactionStats} {d₁ d₂ : Db}
    (hvisited : Visited cfg o w) (hrepresents : Represents cfg w.db s.database)
    (hcompact : (compact cfg m compactionMinPageLoad).Returns t w.db (.ok stats) d₁)
    (hclose : (close cfg m).Returns t d₁ (.ok ()) d₂) :
    HoldsUnspent chain (tip + 1) s.database ∧
    (∃ d₃, openRuntime (d₂.directory cfg) = .ok (cfg, d₃) ∧ Represents cfg d₃ s.database) ∧
    s.live = ((List.range' 1 tip).map fun h => (chain.unspentAt (tip + 1) h).length).sum ∧
    ∃ files', files' .spentOutputs = none ∧
      finishRun (chain.job adders removers size (tip + 1)) tip pushes s (.ok stats) (.ok ()) files =
        .ok (⟨chain.eligibleCount (tip + 1), s.live⟩,
          ⟨tip, (List.range' 1 tip).map (chain.unspentAt (tip + 1))⟩, files') := by
  have hv : chain.Keyed (tip + 1) := ⟨hvalid, hkeys⟩
  obtain ⟨hs, hholds, hworkers, hperm⟩ := pushes_perm hadders hremovers hsize hv hrun hf hpushes
  have hcount : pushes.length = (chain.allSpent (tip + 1)).length := by
    have hlength := hperm.length_eq
    rw [List.length_map, Chain.spentPositions, List.length_map] at hlength
    exact hlength
  have hlive := hs.live_eq hvalid
  have hunspentCount := hv.sum_unspentAt
  refine ⟨hholds, hvisited.compacted_closed hrepresents hcompact hclose, by omega, ?_⟩
  have heligible := hv.eligibleCount_lt
  have hb : pushes.length < u64Bound := by omega
  -- the runs, sorted and merged
  obtain ⟨runs, files₁, files₂, files₃, values, hcollect, hsort, hmerge, hfile, hsorted, hvalues⟩ :=
    spentOutputs_sorted hfresh hworkers hb
  obtain ⟨runs', files', chunks, hcollect', hstored, hchunks, -⟩ := collectRuns_ok hfresh hworkers hb
  cases hcollect.symm.trans hcollect'
  have hsum : (runs.map PositionRun.values).sum = pushes.length := by
    rw [sum_run_values hstored.stored, hchunks.length_eq, List.length_map]
  -- the hints
  have hspent := hvalues.trans hperm
  have htip : tip < 2 ^ 32 := hv.height_lt (Nat.lt_succ_self tip)
  have hcounts : tip < (chain.counts (tip + 1)).length := by
    rw [Chain.counts, List.length_map, List.length_range]
    exact Nat.lt_succ_self tip
  obtain ⟨hwritten, hcontent⟩ := encodeUnspentHintsfile_iff hfile htip hcounts
  obtain ⟨⟨total, hints⟩, hencode⟩ := hwritten.mpr (hv.encodable hsorted hspent)
  obtain ⟨hhints, htotal⟩ := hcontent total hints hencode
  rw [hv.sum_outputCount, hvalues.length_eq, List.length_map] at htotal
  have hblocks : hints = ⟨tip, (List.range' 1 tip).map (chain.unspentAt (tip + 1))⟩ := by
    rw [hhints]
    refine congrArg (Hintsfile.mk tip) (List.map_congr_left ?_)
    intro h hh
    rw [List.mem_range'_1] at hh
    exact hv.unspentAt_eq (by omega) hspent
  -- the counts and the checks
  obtain ⟨offsets, hfold, hlast⟩ := foldFrom_ok 0 (chain.counts (tip + 1)) (by
    rw [hv.counts_sum, Nat.zero_add]
    exact heligible)
  rw [hv.counts_sum, Nat.zero_add] at hlast
  have hspentCount : totalLength "spent output count overflow" (runs.map PositionRun.values) 0 =
      .ok pushes.length := by
    rw [totalLength_ok (by omega), Nat.zero_add, hsum]
  have hunspent : checkedSub (chain.eligibleCount (tip + 1)) pushes.length = some s.live := by
    rw [checkedSub, if_pos (by omega)]
    exact congrArg some (by omega)
  refine ⟨files₃.remove .spentOutputs, Function.update_self _ _ _, ?_⟩
  rw [finishRun]
  have hcollect : collectRuns (chain.job adders removers size (tip + 1)).removers pushes files =
      .ok (runs, files₁) := hcollect
  rw [hcollect, result_bind]
  dsimp only
  rw [hs.blockSlots hvalid, collectOutputCounts_ok hv.counts_processed, result_bind, foldOutputCounts, hfold,
    result_bind, fromDatabase, fromDatabase, Except.mapError, Except.mapError, result_bind, result_bind, writeHintsfile, hlast, orFail_some, result_bind, hspentCount, result_bind, hunspent,
    orFail_some, result_bind, hsort, result_bind, hmerge, result_bind, hencode, result_bind]
  have hsame : total = s.live := by omega
  dsimp only
  rw [if_neg (not_not_intro hsame), hblocks]
  change (if s.live ≠ s.live then _ else _) = _
  rw [if_neg (not_not_intro rfl)]
  rfl

/-- The second block spends an output of the first and one of its own. -/
def Chain.small : Chain where
  network := .regtest
  blocks := fun height =>
    let payment : TxOut := ⟨[0x51]⟩
    let coinbase (outputs : List TxOut) : Transaction :=
      ⟨Vector.replicate 32 (UInt8.ofNat height), [OutPoint.null], outputs⟩
    if height = 1 then [coinbase [payment, ⟨[0x6a]⟩, payment]]
    else if height = 2 then
      [coinbase [payment],
        ⟨Vector.replicate 32 8, [⟨Vector.replicate 32 1, 0⟩], [payment, payment]⟩,
        ⟨Vector.replicate 32 9, [⟨Vector.replicate 32 8, 1⟩], [payment]⟩]
    else [coinbase [payment]]

theorem Chain.small_valid : Chain.small.Valid 3 where
  heights := by decide
  outputs := by decide +kernel
  inputs := by decide +kernel
  created := by
    have hall : ∀ h < 3, ∀ o ∈ Chain.small.spent h, ∃ h' ∈ List.range (h + 1), o ∈ Chain.small.eligible h' := by
      decide +kernel
    intro h hh o ho
    obtain ⟨h', hle, hcreated⟩ := hall h hh o ho
    exact ⟨h', Nat.le_of_lt_succ (List.mem_range.mp hle), hcreated⟩
  once := by decide +kernel

theorem Chain.small_distinct : Chain.small.DistinctKeys 3 := by
  rw [Chain.DistinctKeys]
  decide +kernel

/-- Two buckets, and pages of 8192 nodes. -/
def Config.hints : Config := ⟨.map, 2, 524288, 262144, 262144, 0⟩

def Machine.hints : Machine := ⟨16388, true⟩

/-- The unspent outputs, in a database that is compacted and closed. -/
theorem hints_runs : ((putBatch Config.hints Machine.hints
      ((Chain.small.unspentEntries 3).map fun e => (e.1.toList, e.2))).run 0
        (Db.fresh (initializeHeader HeadsFile.zero Config.hints) 0)).bind (fun x =>
      ((compact Config.hints Machine.hints compactionMinPageLoad).run 0 x.2).bind fun y =>
        ((close Config.hints Machine.hints).run 0 y.2).map fun z => (x.1, y.1, z.1)) =
      some (.ok 4, .ok ⟨0, 0, 0, 0⟩, .ok ()) := by
  have hvalid : validateEntries Config.hints
      (((Chain.small.unspentEntries 3).map fun e => (e.1.toList, e.2)).map fun e => (e.1, some e.2)) =
        .ok ((Chain.small.unspentEntries 3).map fun e => (e.1, some e.2)) := by
    rw [List.map_map]
    exact validateEntries_values rfl _
  simp only [putBatch, insertBatchInner, prepareBatch_insertionSort hvalid]
  decide +kernel

theorem hints_database : ∃ w, Visited Config.hints .created w ∧
    Represents Config.hints w.db (Stacks.pushAll (fun _ => []) (Chain.small.unspentEntries 3)) ∧
    ∃ d₁, (compact Config.hints Machine.hints compactionMinPageLoad).run 0 w.db = some (.ok ⟨0, 0, 0, 0⟩, d₁) ∧
      ∃ d₂, (close Config.hints Machine.hints).run 0 d₁ = some (.ok (), d₂) := by
  obtain ⟨⟨r, d⟩, hput, hrest⟩ := Option.bind_eq_some_iff.mp hints_runs
  obtain ⟨⟨r', d₁⟩, hcompact, hrest⟩ := Option.bind_eq_some_iff.mp hrest
  obtain ⟨⟨r'', d₂⟩, hclose, heq⟩ := Option.map_eq_some_iff.mp hrest
  simp only [Prod.mk.injEq] at heq
  obtain ⟨rfl, rfl, rfl⟩ := heq
  have hlength : headsLength Config.hints.bucketCount = .ok 262144 := by decide +kernel
  have hnew : Visited Config.hints .created (Disk.created _) :=
    .create _ (create_ok (by decide +kernel) hlength (by decide +kernel) rfl)
  have hready := hnew.station.accepted.ready
  have hempty : Represents Config.hints (Db.fresh (initializeHeader HeadsFile.zero Config.hints) 0) fun _ => [] :=
    ⟨idle_fresh _ _, fun _ => [], holds_fresh _, rfl⟩
  have hcall : ((Request.putBatch (Chain.small.unspentEntries 3)).program Config.hints Machine.hints).Returns 0
      (Db.fresh (initializeHeader HeadsFile.zero Config.hints) 0) (.ok (.count 4)) d :=
    Program.Prog.returns_bind_pure.mpr ⟨.ok 4, Program.Prog.returns_of_run hput, rfl⟩
  have hop : ((Op.putBatch ((Chain.small.unspentEntries 3).map fun e => (e.1.toList, e.2))).program Config.hints
      Machine.hints).Returns 0 (Db.fresh (initializeHeader HeadsFile.zero Config.hints) 0) (.ok ()) d :=
    Program.Prog.returns_bind_pure.mpr ⟨.ok 4, Program.Prog.returns_of_run hput, rfl⟩
  have hmode : (Request.putBatch (Chain.small.unspentEntries 3)).Of Config.hints.mode := rfl
  obtain ⟨M, hagrees, hheld⟩ := Program.Prog.post_of_returns
    (request_agrees hready hempty _ hmode (fun hv => by cases hv)) hcall
  cases hagrees with
  | inl hdone =>
    obtain rfl := hdone.2
    exact ⟨_, hnew.call _ hop, hheld, d₁, hcompact, d₂, hclose⟩
  | inr hrefused =>
    obtain ⟨e, he, -⟩ := hrefused
    cases he

/-- Two removers behind one adder. -/
theorem run_writes_unspent_small :
    ∃ ws s w d₁ d₂ d₃ files', follow (Chain.small.job 1 2 1 3) ws .initial = some s ∧ s.live = 4 ∧
      Visited Config.hints .created w ∧ Represents Config.hints w.db s.database ∧
      (compact Config.hints Machine.hints compactionMinPageLoad).run 0 w.db = some (.ok ⟨0, 0, 0, 0⟩, d₁) ∧
      (close Config.hints Machine.hints).run 0 d₁ = some (.ok (), d₂) ∧
      openRuntime (d₂.directory Config.hints) = .ok (Config.hints, d₃) ∧
      Represents Config.hints d₃ s.database ∧
      finishRun (Chain.small.job 1 2 1 3) 2 (popsOf (Chain.small.job 1 2 1 3) ws .initial) s
        (.ok ⟨0, 0, 0, 0⟩) (.ok ()) (fun _ => none) = .ok (⟨6, 4⟩, ⟨2, [[1], [0, 1, 3]]⟩, files') := by
  let ws := List.replicate 12 (Worker.adder 0) ++ List.replicate 9 (Worker.remover 1) ++
    List.replicate 20 (Worker.adder 0) ++ List.replicate 18 (Worker.remover 0) ++
    List.replicate 6 (Worker.remover 1) ++ List.replicate 6 (Worker.remover 0)
  have hends : ((follow (Chain.small.job 1 2 1 3) ws .initial).map fun s =>
      (s.add.pcs 0, s.remove.pcs 0, s.remove.pcs 1)) = some (.done, .done, .done) := by
    decide +kernel
  obtain ⟨s, hs, heq⟩ := Option.map_eq_some_iff.mp hends
  obtain ⟨hadder, hremovers⟩ := Prod.mk.inj heq
  obtain ⟨hremover, hremover'⟩ := Prod.mk.inj hremovers
  have hf : s.Finished (Chain.small.job 1 2 1 3) := by
    refine ⟨?_, ?_⟩
    · intro a ha
      change a < 1 at ha
      obtain rfl : a = 0 := by omega
      exact hadder
    · intro r hr
      change r < 2 at hr
      obtain rfl | rfl : r = 0 ∨ r = 1 := by omega
      · exact hremover
      · exact hremover'
  have hpushes : ∀ w, pushedTo w (popsOf (Chain.small.job 1 2 1 3) ws .initial) =
      pushedTo w (popsOf (Chain.small.job 1 2 1 3) ws .initial) := fun _ => rfl
  -- the database that was written, compacted and closed holds what the workers leave
  have hkeyed : Chain.small.Keyed 3 := ⟨Chain.small_valid, Chain.small_distinct⟩
  have hunspent := (pushes_perm Nat.one_pos Nat.two_pos Nat.one_pos hkeyed hs hf hpushes).2.1
  obtain ⟨w, hvisited, hrepresents, d₁, hcompact, d₂, hclose⟩ := hints_database
  rw [← hunspent.eq Chain.small_distinct] at hrepresents
  obtain ⟨-, ⟨d₃, hopen, hheld⟩, hlive, files', -, hwrite⟩ :=
    run_writes_unspent Nat.one_pos Nat.two_pos Nat.one_pos Chain.small_valid Chain.small_distinct hs hf
      (⟨fun _ _ => rfl, rfl⟩ : Fresh fun _ => none) hpushes hvisited hrepresents
      (Program.Prog.returns_of_run hcompact) (Program.Prog.returns_of_run hclose)
  have hfour : s.live = 4 := by
    rw [hlive]
    decide +kernel
  refine ⟨ws, s, w, d₁, d₂, d₃, files', hs, hfour, hvisited, hrepresents, hcompact, hclose, hopen, hheld, ?_⟩
  rw [hwrite, hfour]
  have hstats : Chain.small.eligibleCount 3 = 6 := by
    decide +kernel
  have hhints : (List.range' 1 2).map (Chain.small.unspentAt 3) = [[1], [0, 1, 3]] := by
    decide +kernel
  rw [hstats, hhints]

end Whole

end FlorestaDb.Hintsgen
