import FlorestaDb.Copying

/-! A chain that is still being copied: it is searched for a key, a node is linked behind its
last one, and when the copy has to start over its nodes are given back one by one. -/
namespace FlorestaDb
open Program Program.Prog Allocator Chain

variable {cfg : Config} {m : Machine} {v : Env} {t : Tid} {s s' : Store} {fuel o root : Nat}
  {l r cur nodes : List Nat}

section Release
variable {c d : Cells}

/-- A copied node is given back, and its blob with it. -/
theorem Copies.removed (h : Copies cfg s (l ++ o :: r) none)
    (hbody : Released cfg.bodyLayout (nodeAlloc cfg o) s.body c)
    (hblobs : (nodeBlob cfg s o = none ∧ d = s.blobs) ∨
      ∃ x, nodeBlob cfg s o = some x ∧ Released cfg.blobLayout x s.blobs d) :
    Copies cfg { s with body := c, blobs := d } (l ++ r) none := by
  have hmem : ∀ z ∈ l ++ r, z ∈ l ++ o :: r := by
    intro z hz
    simp only [List.mem_append, List.mem_cons] at hz ⊢
    tauto
  obtain ⟨gs, hgs⟩ := h.groups
  obtain ⟨bgs, hbgs⟩ := h.blob_groups
  have hlive : c.live.reverse = (l ++ r).map (nodeAlloc cfg) := by
    have hold := h.live
    rw [List.map_append, List.map_cons] at hold
    rw [hbody.live, reverse_erase h.body.pages.nodup hold, List.map_append]
  have hblive := h.blob_live
  rw [Option.toList_none, List.append_nil, List.filterMap_append, List.filterMap_cons] at hblive
  have hblobs' : Quiet cfg.blobLayout d ∧ d.live.reverse = (l ++ r).filterMap (nodeBlob cfg s) ∧
      ∃ gs, Grouped cfg.blobLayout 8 d gs := by
    rw [List.filterMap_append]
    cases hblobs with
    | inl hnone =>
      obtain ⟨hopt, rfl⟩ := hnone
      rw [hopt] at hblive
      exact ⟨h.blobs, hblive, bgs, hbgs⟩
    | inr hsome =>
      obtain ⟨x, hopt, hreleased⟩ := hsome
      rw [hopt] at hblive
      refine ⟨hreleased.quiet, ?_, _, hbgs.released h.blobs hreleased⟩
      rw [hreleased.live, reverse_erase h.blobs.pages.nodup hblive]
  refine ⟨hbody.quiet, hblobs'.1, hlive, ?_, fun z hz => h.aligned z (hmem z hz),
    fun z hz => h.checksum z (hmem z hz), fun z hz => h.word z (hmem z hz),
    ⟨_, hgs.released h.body hbody⟩, hblobs'.2.2⟩
  rw [Option.toList_none, List.append_nil]
  exact hblobs'.2.1

theorem Copies.decodes_blob (hr : cfg.Ready) (h : Copies cfg s nodes none) (ho : o ∈ nodes)
    (hb : isBlob (s.slots o).value = true) :
    ∃ bytes, LiveBlob cfg s (blobOffset (s.slots o).value) bytes ∧ cfg.mode = .map ∧
      nodeBlob cfg s o = some (blobAlloc cfg (blobOffset (s.slots o).value) bytes.length) ∧
      allocationFor cfg.blobLayout (blobOffset (s.slots o).value) (blobHeaderSize + bytes.length) =
        .ok (blobAlloc cfg (blobOffset (s.slots o).value) bytes.length) ∧
      blobHeaderSize + bytes.length < 2 ^ 32 := by
  obtain ⟨bytes, hlive⟩ := h.liveBlob ho hb
  obtain ⟨hfor, hshort, -⟩ := hlive.fits hr h.blobs
  have hopt : nodeBlob cfg s o = some (blobAlloc cfg (blobOffset (s.slots o).value) bytes.length) := by
    rw [nodeBlob, blobOpt_eq_some, hlive.at_bytes.blobLength_eq]
    exact ⟨hb, rfl⟩
  exact ⟨bytes, hlive, (h.word o ho hb).1, hopt, hfor, hshort⟩

theorem releaseSnapshotNode_spec (hr : cfg.Ready) (h : Copies cfg s (l ++ o :: r) none)
    (hf : v = .fair → 1 ≤ m.fuel) :
    (releaseSnapshotNode cfg m o).wp v t (fun res s' => res = .ok () ∧
      s' = { s with body := s'.body, blobs := s'.blobs } ∧ Copies cfg s' (l ++ r) none) s := by
  have ho : o ∈ l ++ o :: r := by simp
  have hL := hr.valid.bodyLayout_ok
  have hlive := h.mem_live ho
  obtain ⟨hfits, hblock⟩ := h.body.pages.fits _ hlive
  have hfor : allocationFor cfg.bodyLayout o nodeSize = .ok (nodeAlloc cfg o) :=
    allocationFor_fits hL hfits (Nat.lt_of_lt_of_le hblock h.body.pages.pages_le)
  have hread : Readable cfg s o := h.readable hr.valid ho
  rw [releaseSnapshotNode, wp_bind, readNode_readable hread, andThen_ok]
  cases hb : isBlob (nodeAt s o).value with
  | false =>
    have hopt : nodeBlob cfg s o = none := by
      rw [nodeBlob, blobOpt]
      exact if_neg (by rw [show (s.slots o).value = (nodeAt s o).value from rfl, hb]; decide)
    rw [if_neg (by decide), hfor, wp_bind, wp_ofExcept, andThen_ok, wp_onBody]
    refine wp_mono (releaseCount_spec hL h.body hlive hf) ?_
    intro res c hres
    obtain ⟨rfl, hreleased⟩ := hres
    exact ⟨rfl, rfl, h.removed hreleased (Or.inl ⟨hopt, rfl⟩)⟩
  | true =>
    obtain ⟨bytes, hblob, hm, hopt, hblobFor, hshort⟩ := h.decodes_blob hr ho hb
    have hx : blobAlloc cfg (blobOffset (nodeAt s o).value) bytes.length ∈ s.blobs.live :=
      h.blob_mem ho hopt
    have hnot : ¬blobHeaderSize + bytes.length ≥ 2 ^ 32 := Nat.not_le.mpr hshort
    rw [if_pos rfl, if_neg (not_not.mpr hm), wp_bind]
    refine (readHeader_spec hr h.blobs hblob).mpr ?_
    rw [andThen_ok, decodeBlobHeader_headerOf hblob.at_bytes.length_lt]
    dsimp only
    rw [if_neg hnot, wp_bind]
    refine (wp_ofExcept _).mpr ?_
    rw [show allocationFor cfg.blobLayout (blobOffset (nodeAt s o).value)
      (blobHeaderSize + bytes.length) = _ from hblobFor, andThen_ok, wp_bind, wp_onBlobs]
    refine wp_mono (releaseCount_spec (hr.blob hm) h.blobs hx hf) ?_
    intro res d hres
    obtain ⟨rfl, hblobs⟩ := hres
    rw [andThen_ok, hfor, wp_bind, wp_ofExcept, andThen_ok, wp_onBody]
    refine wp_mono (releaseCount_spec hL h.body hlive hf) ?_
    intro res c hres
    obtain ⟨rfl, hreleased⟩ := hres
    exact ⟨rfl, rfl, h.removed hreleased (Or.inr ⟨_, hopt, hblobs⟩)⟩

/-- The chain from `root` is given back, and what was copied before it stays. -/
theorem releaseSnapshotChain_spec (hr : cfg.Ready) (h : Copies cfg s (nodes ++ cur) none)
    (hchain : IsChain s.next root cur) (hf : v = .fair → cur.length + 1 ≤ fuel ∧ 1 ≤ m.fuel) :
    (releaseSnapshotChain cfg m fuel root).wp v t (fun res s' => res = .ok () ∧
      s' = { s with body := s'.body, blobs := s'.blobs } ∧ Copies cfg s' nodes none) s := by
  induction cur generalizing root fuel s with
  | nil =>
    have hend : root = 0 := hchain
    cases fuel with
    | zero =>
      cases v with
      | fair => exact absurd (hf rfl).1 (Nat.not_succ_le_zero _)
      | any => exact rfl
    | succ fuel =>
      rw [releaseSnapshotChain, if_pos hend, wp_pure]
      rw [List.append_nil] at h
      exact ⟨rfl, rfl, h⟩
  | cons o cur ih =>
    obtain ⟨rfl, hne, hrest⟩ := hchain
    cases fuel with
    | zero =>
      cases v with
      | fair => exact absurd (hf rfl).1 (Nat.not_succ_le_zero _)
      | any => exact rfl
    | succ fuel =>
      have hmem : root ∈ nodes ++ root :: cur := by simp
      rw [releaseSnapshotChain, if_neg hne, wp_bind, readNode_readable (h.readable hr.valid hmem),
        andThen_ok, wp_bind]
      refine wp_mono (releaseSnapshotNode_spec hr h fun hv => (hf hv).2) ?_
      intro res s₁ hres
      obtain ⟨rfl, hs₁, hcopies⟩ := hres
      have hnext : s₁.next = s.next := by
        rw [hs₁]
        rfl
      have hrest' : IsChain s₁.next (nodeAt s root).next cur := by
        rw [hnext]
        exact hrest
      rw [andThen_ok]
      refine wp_mono (ih hcopies hrest' fun hv => ⟨Nat.le_of_succ_le_succ (hf hv).1, (hf hv).2⟩) ?_
      intro res s₂ hres
      obtain ⟨rfl, hs₂, hcopies₂⟩ := hres
      refine ⟨rfl, ?_, hcopies₂⟩
      rw [hs₂, hs₁]

end Release

section Append

/-- The search for a key on the part of the chain that is there. -/
theorem snapshotChainContains_spec {key : Key} (hread : ∀ o ∈ cur, Readable cfg s o)
    (hchain : IsChain s.next root cur) (hf : v = .fair → cur.length + 1 ≤ fuel) :
    (snapshotChainContains cfg key fuel root).wp v t (fun res s' => s' = s ∧
      res = .ok (decide (∃ o ∈ cur, (s.slots o).key = key))) s := by
  induction cur generalizing root fuel with
  | nil =>
    have hend : root = 0 := hchain
    cases fuel with
    | zero =>
      cases v with
      | fair => exact absurd (hf rfl) (Nat.not_succ_le_zero _)
      | any => exact rfl
    | succ fuel =>
      rw [snapshotChainContains, if_pos hend, wp_pure]
      exact ⟨rfl, by simp⟩
  | cons o cur ih =>
    obtain ⟨rfl, hne, hrest⟩ := hchain
    cases fuel with
    | zero =>
      cases v with
      | fair => exact absurd (hf rfl) (Nat.not_succ_le_zero _)
      | any => exact rfl
    | succ fuel =>
      rw [snapshotChainContains, if_neg hne, wp_bind,
        readNode_readable (hread root List.mem_cons_self), andThen_ok]
      by_cases hkey : (s.slots root).key = key
      · rw [if_pos (show (nodeAt s root).key = key from hkey), wp_pure]
        exact ⟨rfl, by simp [hkey]⟩
      · rw [if_neg (show ¬(nodeAt s root).key = key from hkey)]
        refine wp_mono (ih (fun z hz => hread z (List.mem_cons_of_mem _ hz)) hrest
          fun hv => Nat.le_of_succ_le_succ (hf hv)) ?_
        intro res s₁ hres
        refine ⟨hres.1, ?_⟩
        rw [hres.2]
        simp [hkey]

/-- A chain is longer by one place when its last place is redirected to it. -/
theorem isChain_extend {next : Nat → Nat} {p q : Nat} (h : IsChain next root (l ++ [p]))
    (hq : q ≠ 0) (hend : next q = 0) (hne : p ≠ q) :
    IsChain (Function.update next p q) root (l ++ [p] ++ [q]) := by
  have hw : IsSegment next (([] : List Nat).headD 0) q [q] := ⟨rfl, hq, hend⟩
  have hnot : p ∉ [q] := by simpa using hne
  have h' : IsChain next root (l ++ p :: ([] ++ [])) := h
  have hlong := h'.redirect hw hnot
  simpa using hlong

/-- The copied node becomes the last one of the chain. -/
theorem Copies.linked {p q : Nat} (h : Copies cfg s nodes none)
    (hchain : IsChain s.next root (l ++ [p])) (hq : q ≠ 0) (hend : s.next q = 0) (hne : p ≠ q)
    (hmask : q ≤ nodePointerMask.toNat) :
    Copies cfg (s.setSlot p (·.withNext q)) nodes none ∧
      IsChain (s.setSlot p (·.withNext q)).next root (l ++ [p] ++ [q]) ∧
      ∀ z, entryAt cfg (s.setSlot p (·.withNext q)) z = entryAt cfg s z := by
  obtain ⟨hcopies, hentry⟩ := h.setNext hmask p
  refine ⟨hcopies, ?_, hentry⟩
  rw [next_setNext s p hmask]
  exact isChain_extend hchain hq hend hne

end Append

end FlorestaDb
