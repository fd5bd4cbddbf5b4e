import FlorestaDb.Operations

/-! What every reachable state of a store satisfies: the chains are disjoint and finite,
and nodes, blobs and page counts account for one another exactly. -/
namespace FlorestaDb
open Program Program.Prog Allocator Chain

variable {cfg : Config} {m : Machine} {v : Env} {t : Tid} {d d' : Db} {chains : Nat → List Nat}

/-- The count of a page: its sealed count, or the live field of the open page. -/
def pageLive (c : Cells) (p : Nat) : Nat :=
  if c.currentBlock = p + 1 then currentLive c.currentWord else c.counts p

theorem Allocator.Quiet.pageLive_eq {L : Layout} {c : Cells} (h : Quiet L c) (p : Nat) :
    pageLive c p = liveIn c.live p := by
  rw [pageLive]
  by_cases hp : c.currentBlock = p + 1
  · rw [if_pos hp]
    cases h.current with
    | closed hc _ => exact absurd (hc.symm.trans hp) (Nat.succ_ne_zero p).symm
    | opened b used live ho =>
      have hb : b = p := Nat.succ.inj (ho.block.symm.trans hp)
      have hl : live < 2 ^ 16 := Nat.lt_of_le_of_lt ho.live_le (by decide)
      rw [currentLive_pack hl ho.word, ho.live_eq, hb]
  · rw [if_neg hp]
    apply h.pages.counted p
    rw [Ne, h.claimed_iff]
    exact hp

/-- The nodes that the chains lead to, bucket after bucket. -/
def reachableNodes (cfg : Config) (chains : Nat → List Nat) : List Nat :=
  (List.range cfg.bucketCount).flatMap chains

/-- Those of them whose value is in a blob. -/
def blobNodes (cfg : Config) (s : Store) (chains : Nat → List Nat) : List Nat :=
  (reachableNodes cfg chains).filter fun o => isBlob (s.slots o).value

/- The ownership invariant of a store at rest. The chains are finite, acyclic and pairwise
   disjoint; their nodes are readable and in the bucket they hash to; they are the live body
   allocations, and their blobs are the live blob allocations; every page counts what it
   holds; a slot without a node has a zero checksum field, so that the scan of a compaction
   reports exactly the nodes. -/
structure Ownership (cfg : Config) (d : Db) (chains : Nat → List Nat) : Prop where
  chain : ∀ b < cfg.bucketCount, IsChain d.store.next (d.runtimeHeads b) (chains b)
  nodup : (reachableNodes cfg chains).Nodup
  readable : ∀ o ∈ reachableNodes cfg chains,
    (readNode cfg o).run 0 d.store = some (.ok (nodeAt d.store o), d.store)
  home : ∀ b, ∀ o ∈ chains b, bucketOf cfg (nodeAt d.store o).key = b
  live_nodup : d.store.body.live.Nodup ∧ d.store.blobs.live.Nodup
  nodes : ((reachableNodes cfg chains).map (nodeAlloc cfg)).Perm d.store.body.live
  blobs : ((blobNodes cfg d.store chains).map (blobOf cfg d.store)).Perm d.store.blobs.live
  body_pages : ∀ p, pageLive d.store.body p =
    (reachableNodes cfg chains).countP fun o => (nodeAlloc cfg o).block = p
  blob_pages : ∀ p, pageLive d.store.blobs p =
    (blobNodes cfg d.store chains).countP fun o => (blobOf cfg d.store o).block = p
  zero : ∀ o ∉ reachableNodes cfg chains, (d.store.slots o).checksum = 0
  scan : ∀ p < d.store.body.pages, ∀ o ∈ pageSlots cfg p,
    (readNodeIfPresent cfg o).run 0 d.store =
      some (.ok (if o ∈ reachableNodes cfg chains then some (nodeAt d.store o) else none), d.store)

section Facts

theorem mem_reachableNodes {s : Store} {heads : Nat → Nat}
    {bare bareBlobs : Set Allocation} (h : Owned cfg s heads chains ∅ bare bareBlobs)
    (hv : cfg.Valid) {o : Nat} : o ∈ reachableNodes cfg chains ↔ o ∈ nodesOf chains ∅ := by
  constructor
  · intro ho
    obtain ⟨b, -, hb⟩ := List.mem_flatMap.mp ho
    exact mem_nodesOf hb
  · rintro (⟨b, hb⟩ | ho)
    · exact List.mem_flatMap.mpr ⟨b, List.mem_range.mpr (h.bucket_lt hv hb), hb⟩
    · exact absurd ho (Set.notMem_empty o)

theorem reachableNodes_nodup {s : Store} {heads : Nat → Nat}
    (h : Owned cfg s heads chains ∅ ∅ ∅) : (reachableNodes cfg chains).Nodup := by
  refine List.nodup_flatMap.mpr ⟨fun b _ => (h.chain b).nodup, ?_⟩
  refine List.nodup_range.imp ?_
  intro b b' hne o ho ho'
  exact hne (h.bucket_unique ho' ho)

theorem nodes_perm {s : Store} {heads : Nat → Nat} (hv : cfg.Valid)
    (h : Owned cfg s heads chains ∅ ∅ ∅) :
    ((reachableNodes cfg chains).map (nodeAlloc cfg)).Perm s.body.live := by
  have hinj : ((reachableNodes cfg chains).map (nodeAlloc cfg)).Nodup := by
    refine List.Nodup.map_on ?_ (reachableNodes_nodup h)
    intro x _ y _ heq
    exact congrArg Allocation.offset heq
  rw [List.perm_ext_iff_of_nodup hinj h.heap.body.pages.nodup]
  intro x
  rw [List.mem_map, h.heap.live_iff]
  constructor
  · rintro ⟨o, ho, rfl⟩
    exact Or.inl ⟨o, (mem_reachableNodes h hv).mp ho, rfl⟩
  · rintro (⟨o, ho, rfl⟩ | hx)
    · exact ⟨o, (mem_reachableNodes h hv).mpr ho, rfl⟩
    · exact absurd hx (Set.notMem_empty x)

theorem blobs_perm {s : Store} {heads : Nat → Nat} (hv : cfg.Valid)
    (h : Owned cfg s heads chains ∅ ∅ ∅) :
    ((blobNodes cfg s chains).map (blobOf cfg s)).Perm s.blobs.live := by
  have hmem : ∀ o, o ∈ blobNodes cfg s chains ↔
      o ∈ nodesOf chains ∅ ∧ isBlob (s.slots o).value = true := by
    intro o
    rw [blobNodes, List.mem_filter, mem_reachableNodes h hv]
  have hinj : ((blobNodes cfg s chains).map (blobOf cfg s)).Nodup := by
    refine List.Nodup.map_on ?_ ((reachableNodes_nodup h).filter _)
    intro x hx y hy heq
    obtain ⟨hx, hbx⟩ := (hmem x).mp hx
    obtain ⟨hy, hby⟩ := (hmem y).mp hy
    exact h.heap.blob_inj x hx y hy hbx hby (congrArg Allocation.offset heq)
  rw [List.perm_ext_iff_of_nodup hinj h.heap.blobs.pages.nodup]
  intro x
  rw [List.mem_map, h.heap.blob_iff]
  constructor
  · rintro ⟨o, ho, rfl⟩
    obtain ⟨hN, hb⟩ := (hmem o).mp ho
    exact Or.inl ⟨o, hN, hb, rfl⟩
  · rintro (⟨o, hN, hb, rfl⟩ | hx)
    · exact ⟨o, (hmem o).mpr ⟨hN, hb⟩, rfl⟩
    · exact absurd hx (Set.notMem_empty x)

/-- Pages count what the mapped nodes say. -/
theorem countP_block {α : Type} {xs : List α} {f : α → Allocation} {live : List Allocation}
    (h : (xs.map f).Perm live) (p : Nat) :
    liveIn live p = xs.countP fun x => (f x).block = p := by
  rw [liveIn, ← h.countP_eq, List.countP_map]
  rfl

theorem Owned.ownership (hr : cfg.Ready) (h : Owned cfg d.store d.runtimeHeads chains ∅ ∅ ∅) :
    Ownership cfg d chains where
  chain := fun b _ => h.chain b
  nodup := reachableNodes_nodup h
  readable := by
    intro o ho
    have hN := (mem_reachableNodes h hr.valid).mp ho
    have hread : (readNode cfg o).wp .fair 0
        (fun res s' => res = .ok (nodeAt d.store o) ∧ s' = d.store) d.store :=
      readNode_spec hr.valid h.heap.body (h.heap.liveNode hN) (h.heap.entry o hN).checksum
        ⟨rfl, rfl⟩
    obtain ⟨res, s', hrun, rfl, rfl⟩ := run_of_wp hread
    exact hrun
  home := h.home
  live_nodup := ⟨h.heap.body.pages.nodup, h.heap.blobs.pages.nodup⟩
  nodes := nodes_perm hr.valid h
  blobs := blobs_perm hr.valid h
  body_pages := by
    intro p
    rw [h.heap.body.pageLive_eq, countP_block (nodes_perm hr.valid h)]
  blob_pages := by
    intro p
    rw [h.heap.blobs.pageLive_eq, countP_block (blobs_perm hr.valid h)]
  zero := by
    intro o ho
    apply h.heap.zero o
    · rw [← mem_reachableNodes h hr.valid]
      exact ho
    · exact Set.notMem_empty _
  scan := by
    intro p hp o ho
    have hread : (readNodeIfPresent cfg o).wp .fair 0 (fun res s' => res =
        .ok (if o ∈ reachableNodes cfg chains then some (nodeAt d.store o) else none) ∧
        s' = d.store) d.store := by
      by_cases hmem : o ∈ reachableNodes cfg chains
      · have hN := (mem_reachableNodes h hr.valid).mp hmem
        rw [if_pos hmem]
        exact readNodeIfPresent_node hr.valid h.heap.body (h.heap.liveNode hN)
          (h.heap.entry o hN) ⟨rfl, rfl⟩
      · obtain ⟨k, hk, rfl⟩ := List.mem_map.mp ho
        obtain ⟨hblock, hfit⟩ := slot_fits (p := p) (List.mem_range.mp hk)
        rw [if_neg hmem]
        apply readNodeIfPresent_none hr.valid h.heap.body hfit
        · rw [hblock]
          exact hp
        · apply h.heap.zero _ _ (Set.notMem_empty _)
          rw [← mem_reachableNodes h hr.valid]
          exact hmem
        · exact ⟨rfl, rfl⟩
    obtain ⟨res, s', hrun, rfl, rfl⟩ := run_of_wp hread
    exact hrun

end Facts

section Failure

/-- The calls that write. -/
def Op.Writes : Op → Prop
  | .add _ | .addBatch _ | .put _ _ | .putNew _ _ | .putBatch _ => True
  | _ => False

theorem Op.written (hr : cfg.Ready) (h : Sound cfg d) {op : Op} (hop : op.Writes)
    (hf : v = .fair → m.Enough cfg) : (op.program cfg m).wp v t (Written cfg d) d := by
  have hdrop : ∀ {α : Type} {p : TableM α}, p.wp v t (Written cfg d) d →
      (p >>= fun _ => pure ()).wp v t (Written cfg d) d := by
    intro α p hp
    refine wp_seq hp ?_
    intro res d' hw
    cases res with
    | ok a =>
      rw [andThen_ok, wp_pure]
      exact ⟨hw.frame, hw.sound, fun e he => by cases he⟩
    | error e =>
      rw [andThen_error]
      exact ⟨hw.frame, hw.sound, fun e' _ => hw.failed e rfl⟩
  cases op with
  | add key => exact hdrop (add_written hr h key hf)
  | addBatch keys => exact hdrop (addBatch_written hr h keys hf)
  | put key value => exact hdrop (put_written hr h key value hf)
  | putNew key value => exact hdrop (putNew_written hr h key value hf)
  | putBatch entries => exact hdrop (putBatch_written hr h entries hf)
  | get _ | contains _ | batchFetch _ | delete _ | batchDelete _ | batchPop _ | compact _ | sync =>
    cases hop

/-- The chains, what their nodes say and the count of every page are as before. -/
structure Untouched (cfg : Config) (d d' : Db) (chains : Nat → List Nat) : Prop where
  before : Ownership cfg d chains
  after : Ownership cfg d' chains
  records_eq : records d'.store chains = records d.store chains
  content_eq : content cfg d'.store chains = content cfg d.store chains
  body_pages : ∀ p, pageLive d'.store.body p = pageLive d.store.body p
  blob_pages : ∀ p, pageLive d'.store.blobs p = pageLive d.store.blobs p

theorem Kept.untouched (hr : cfg.Ready)
    (h : Kept cfg d.store d.runtimeHeads d'.store d'.runtimeHeads) :
    ∃ chains, Untouched cfg d d' chains := by
  obtain ⟨chains, hbefore, hafter, hsame⟩ := h.chains
  have hmem : ∀ o ∈ reachableNodes cfg chains, o ∈ nodesOf chains ∅ := fun o ho =>
    (mem_reachableNodes hbefore hr.valid).mp ho
  have hvalue : ∀ o ∈ reachableNodes cfg chains,
      (d'.store.slots o).value = (d.store.slots o).value := fun o ho => (hsame o (hmem o ho)).1
  have hnodes : blobNodes cfg d'.store chains = blobNodes cfg d.store chains := by
    apply List.filter_congr
    intro o ho
    rw [hvalue o ho]
  have hblob : ∀ o ∈ blobNodes cfg d.store chains, blobOf cfg d'.store o = blobOf cfg d.store o := by
    intro o ho
    obtain ⟨hreach, hb⟩ := List.mem_filter.mp ho
    have hN := hmem o hreach
    have hset := hsame.blobSet_eq hN (hbefore.heap.entry o hN)
    have hself : blobOf cfg d'.store o ∈ blobSet cfg d'.store (d'.store.slots o).value :=
      ⟨by rw [hvalue o hreach]; exact hb, rfl⟩
    rw [hset] at hself
    exact hself.2
  refine ⟨chains, hbefore.ownership hr, hafter.ownership hr, ?_, ?_, ?_, ?_⟩
  · refine records_same fun b o ho => ?_
    exact ⟨hsame.key (mem_nodesOf ho), (hsame o (mem_nodesOf ho)).1⟩
  · exact content_same hsame fun b o ho => mem_nodesOf ho
  · intro p
    rw [(hafter.ownership hr).body_pages, (hbefore.ownership hr).body_pages]
  · intro p
    rw [(hafter.ownership hr).blob_pages, (hbefore.ownership hr).blob_pages, hnodes]
    apply List.countP_congr
    intro o ho
    rw [hblob o ho]

end Failure

section Compaction

/-- The sealed pages that hold at least one node and fewer than `load`. -/
def sparsePages (c : Cells) (load : Nat) : List Nat :=
  (List.range c.highWater).filter fun p =>
    0 < c.counts p ∧ c.counts p < load ∧ c.counts p ≠ claimed

theorem pagesBelow_eq (c : Cells) {load : Nat} (h : 1 ≤ load) :
    pagesBelow c (load - 1) = sparsePages c load := by
  apply List.filter_congr
  intro p _
  rw [decide_eq_decide]
  omega

/-- What a compaction that returns `Ok` has done. -/
structure Drained (c : Cells) (load : Nat) (stats : CompactionStats) (c' : Cells) : Prop where
  candidate_pages : stats.candidatePages = (sparsePages c load).length
  moved_nodes : stats.movedNodes = ((sparsePages c load).map c.counts).sum
  emptied : ∀ p ∈ sparsePages c load, c'.counts p = 0
  reclaimed_pages : stats.reclaimedPages = stats.candidatePages
  remaining_pages : stats.remainingCandidatePages = 0

/-- The records of every chain are the same before and after. -/
structure SameRecords (cfg : Config) (d d' : Db) (chains chains' : Nat → List Nat) : Prop where
  before : Ownership cfg d chains
  after : Ownership cfg d' chains'
  records_eq : records d'.store chains' = records d.store chains
  content_eq : content cfg d'.store chains' = content cfg d.store chains

theorem compact_outcome (hr : cfg.Ready) (h : Sound cfg d) {load : Nat} (hpos : 1 ≤ load)
    (hle : load ≤ cfg.blockSize / nodeSize) (hf : v = .fair → m.Enough cfg) :
    (compact cfg m load).wp v t (fun res d' =>
      (∃ chains chains', SameRecords cfg d d' chains chains') ∧
      ((∃ stats, res = .ok stats ∧ Drained d.store.body load stats d'.store.body) ∨
        ∃ e, res = .error e ∧ Refusal v e)) d := by
  obtain ⟨chains, howned⟩ := h.owned
  refine wp_mono (compact_spec hr h.idle howned hpos hle hf) ?_
  rintro res d' ⟨-, ⟨chains', hrewritten⟩, hres⟩
  refine ⟨⟨chains, chains', howned.ownership hr, hrewritten.owned.ownership hr,
    hrewritten.records_eq, content_records hrewritten.records_eq hrewritten.bytes⟩, ?_⟩
  rcases hres with ⟨rfl, hempty⟩ | ⟨e, rfl, he⟩
  · rw [pagesBelow_eq _ hpos] at hempty
    refine Or.inl ⟨_, rfl, ?_, ?_, hempty, rfl, rfl⟩
    · rw [compactionStats, pagesBelow_eq _ hpos]
    · rw [compactionStats, pagesBelow_eq _ hpos]
  · exact Or.inr ⟨e, rfl, he⟩

end Compaction

end FlorestaDb
