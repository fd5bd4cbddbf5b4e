import FlorestaDb.Recorded

/-! Room in a bank: the nodes of the runtime, packed in whatever order they are copied, take no
more pages than they took. -/
namespace FlorestaDb
open Program Program.Prog Allocator Chain NextFit

variable {cfg : Config} {m : Machine} {t : Tid} {w : Disk} {s : Store} {heads : Nat → Nat}
  {chains : Nat → List Nat}

section Pages

theorem filled_nodes (n k : Nat) : filled (alignedStart · nodeAlignment) (k * nodeSize)
    (List.replicate n nodeSize) = (k + n) * nodeSize := by
  induction n generalizing k with
  | zero => rfl
  | succ n ih =>
    have hstart : alignedStart (k * nodeSize) nodeAlignment + nodeSize = (k + 1) * nodeSize := by
      have h32 : nodeSize = 32 ∧ nodeAlignment = 32 := ⟨rfl, rfl⟩
      rw [alignedStart, h32.1, h32.2]
      omega
    rw [List.replicate_succ, filled_cons, hstart, ih, Nat.add_right_comm, Nat.add_assoc k]

/-- A page has a slot for each of its nodes. -/
theorem Owned.liveIn_le (hv : cfg.Valid) (h : Owned cfg s heads chains ∅ ∅ ∅) (b : Nat) :
    liveIn s.body.live b ≤ cfg.blockSize / nodeSize := by
  have hlive : ∀ x ∈ s.body.live, LiveNode cfg s x.offset := by
    intro x hx
    obtain ⟨hshape, haligned⟩ := h.heap.shape x hx
    exact ⟨hshape ▸ hx, haligned⟩
  have hslots : ∀ x ∈ s.body.live.filter (·.block = b), x.offset ∈ pageSlots cfg b := by
    intro x hx
    obtain ⟨hx, hb⟩ := List.mem_filter.mp hx
    have hmem := (hlive x hx).mem_pageSlots hv h.heap.body
    rw [← (h.heap.shape x hx).1] at hmem
    rw [← of_decide_eq_true hb]
    exact hmem
  have hnodup : ((s.body.live.filter (·.block = b)).map Allocation.offset).Nodup := by
    refine List.Nodup.map_on ?_ (h.heap.body.pages.nodup.filter _)
    intro x hx y hy heq
    rw [(h.heap.shape x (List.mem_of_mem_filter hx)).1, (h.heap.shape y (List.mem_of_mem_filter hy)).1,
      heq]
  have hsub : (s.body.live.filter (·.block = b)).map Allocation.offset ⊆ pageSlots cfg b := by
    intro o ho
    obtain ⟨x, hx, rfl⟩ := List.mem_map.mp ho
    exact hslots x hx
  have hle := (hnodup.subperm hsub).length_le
  rw [List.length_map, ← List.countP_eq_length_filter] at hle
  simpa [pageSlots, liveIn] using hle

/-- The pages of the table hold its nodes, and there is a page for each of them. -/
theorem Owned.sum_live (hv : cfg.Valid) (h : Owned cfg s heads chains ∅ ∅ ∅) :
    ((List.range cfg.bodyLayout.blockCount).map (liveIn s.body.live)).sum =
      (reachableNodes cfg chains).length := by
  have hall : ∀ x ∈ s.body.live, x.block ∈ List.range cfg.bodyLayout.blockCount := by
    intro x hx
    have hlt : x.block < s.body.pages := (h.heap.body.pages.fits x hx).2
    exact List.mem_range.mpr (hlt.trans_le h.heap.body.pages.pages_le)
  rw [sum_liveIn _ List.nodup_range, List.countP_eq_length.mpr fun x hx => decide_eq_true (hall x hx),
    ← (nodes_perm hv h).length_eq, List.length_map]

theorem Owned.packs (hv : cfg.Valid) (h : Owned cfg s heads chains ∅ ∅ ∅) :
    Packs cfg.bodyLayout nodeAlignment
      (List.replicate (reachableNodes cfg chains).length nodeSize) := by
  refine ⟨(List.range cfg.bodyLayout.blockCount).map fun b =>
    List.replicate (liveIn s.body.live b) nodeSize, ?_, ?_, ?_⟩
  · rw [List.eq_replicate_iff, List.length_flatten, List.map_map]
    refine ⟨?_, ?_⟩
    · rw [← h.sum_live hv]
      exact congrArg List.sum (List.map_congr_left fun b _ => List.length_replicate)
    · intro x hx
      obtain ⟨page, hpage, hx⟩ := List.mem_flatten.mp hx
      obtain ⟨b, -, rfl⟩ := List.mem_map.mp hpage
      exact List.eq_of_mem_replicate hx
  · simp
  · intro page hpage
    obtain ⟨b, -, rfl⟩ := List.mem_map.mp hpage
    refine ⟨?_, ?_⟩
    · have hfilled := filled_nodes (liveIn s.body.live b) 0
      rw [Nat.zero_mul, Nat.zero_add] at hfilled
      rw [hfilled]
      exact Nat.mul_le_of_le_div _ _ _ (h.liveIn_le hv b)
    · rw [List.length_replicate]
      exact h.heap.body.live_le b

/-- A table without blob values has room in a bank. -/
theorem Owned.roomy (hv : cfg.Valid) (h : Owned cfg s heads chains ∅ ∅ ∅)
    (hinline : ∀ o ∈ reachableNodes cfg chains, isBlob (s.slots o).value = false) :
    Roomy cfg s (reachableNodes cfg chains) (reachableNodes cfg chains).length :=
  ⟨hinline, h.packs hv⟩

end Pages

end FlorestaDb
