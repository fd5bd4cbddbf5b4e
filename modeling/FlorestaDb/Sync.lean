import FlorestaDb.Compaction
import FlorestaDb.Create

/-! `sync` in a sequential run: both unfinished pages are sealed and the runtime heads
are written to their places in the heads file. -/
namespace FlorestaDb
open Program Program.Prog Allocator Chain

variable {cfg : Config} {m : Machine} {v : Env} {t : Tid} {d : Db} {chains : Nat → List Nat}
  {s : Store} {fuel : Nat}

section Seal
variable {L : Layout} {c : Cells}

/-- Flushing seals the unfinished page; a failed flush has sealed it too. -/
theorem syncAllocator_spec (hL : L.Ok) (hq : Quiet L c) (hf : v = .fair → 1 ≤ m.fuel) :
    (syncAllocator m L).wp v t (fun r c' => Quiet L c' ∧ c'.live = c.live ∧ c'.currentBlock = 0 ∧
      (r = .ok () ∨ v = .any ∧ r = .error .io)) c := by
  rw [syncAllocator, wp_bind]
  refine wp_mono (sealCurrent_spec hL hq hf) ?_
  rintro r c' ⟨rfl, hquiet, hlive, hclosed⟩
  rw [andThen_ok, wp_bind, wp_osCall]
  constructor
  · rw [andThen_ok, wp_osCall]
    constructor
    · exact ⟨hquiet, hlive, hclosed, Or.inl rfl⟩
    · intro hv
      exact ⟨hquiet, hlive, hclosed, Or.inr ⟨hv, rfl⟩⟩
  · intro hv
    rw [andThen_error]
    exact ⟨hquiet, hlive, hclosed, Or.inr ⟨hv, rfl⟩⟩

/-- The allocators were flushed: what is live stays live, and with it every node. -/
structure Flushed (s s' : Store) : Prop where
  slots : s'.slots = s.slots
  bytes : s'.bytes = s.bytes
  body_live : s'.body.live = s.body.live
  blobs_live : s'.blobs.live = s.blobs.live

theorem content_flushed {s s' : Store} (h : Flushed s s') (chains : Nat → List Nat) :
    content cfg s' chains = content cfg s chains := by
  funext b
  apply List.map_congr_left
  intro o _
  rw [entryAt, entryAt, h.slots, valueAt, valueAt, h.bytes]

theorem Flushed.owned {s' : Store} {heads : Nat → Nat} (h : Owned cfg s heads chains ∅ ∅ ∅)
    (hs : Flushed s s') (hq : Quiet cfg.bodyLayout s'.body) (hq' : Quiet cfg.blobLayout s'.blobs) :
    Owned cfg s' heads chains ∅ ∅ ∅ := by
  have hheap := (h.heap.setBody hq hs.body_live).setBlobs hq' hs.blobs_live
  have heq : s' = { s with body := s'.body, blobs := s'.blobs } := by
    obtain ⟨body, slots, blobs, bytes⟩ := s'
    obtain ⟨hslots, hbytes, -, -⟩ := hs
    simp only at hslots hbytes
    rw [hslots, hbytes]
  have hheap' : Heap cfg s' (nodesOf chains ∅) ∅ ∅ := by
    rw [heq]
    exact hheap
  exact h.setStore (fun _ _ _ => by rw [hs.slots]) hheap' h.priv_free

theorem quiet_blobs_closed (hr : cfg.Ready) (hm : ¬cfg.mode = .map)
    (hq : Quiet cfg.blobLayout s.blobs) : s.blobs.currentBlock = 0 := by
  have hset : cfg.mode = .set := (mode_set_or_map cfg).resolve_right hm
  have hzero : cfg.blobLayout.blockCount = 0 := by
    simp [Config.blobLayout, hr.valid.set_blob hset]
  cases hq.current with
  | closed hc _ => exact hc
  | opened b used live ho =>
    have hlt := hq.pages.claimed_lt b ho.marked
    have hle := hq.pages.pages_le
    omega

/-- Both files of a store, one after the other. -/
theorem syncStore_spec (hr : cfg.Ready) {heads : Nat → Nat}
    (h : Owned cfg s heads chains ∅ ∅ ∅) (hf : v = .fair → 1 ≤ m.fuel) :
    ((onBody (syncAllocator m cfg.bodyLayout) >>= fun _ => syncBlobs cfg m : StoreM Unit)).wp v t
      (fun r s' => Flushed s s' ∧ Owned cfg s' heads chains ∅ ∅ ∅ ∧
        (r = .ok () ∧ s'.body.currentBlock = 0 ∧ s'.blobs.currentBlock = 0 ∨
          v = .any ∧ r = .error .io)) s := by
  rw [wp_bind, wp_onBody]
  refine wp_mono (syncAllocator_spec hr.valid.bodyLayout_ok h.heap.body hf) ?_
  rintro _ c ⟨hq, hlive, hclosed, rfl | ⟨hv, rfl⟩⟩
  · have hflush : Flushed s { s with body := c } := ⟨rfl, rfl, hlive, rfl⟩
    rw [andThen_ok, syncBlobs]
    by_cases hm : cfg.mode = .map
    · rw [if_pos hm, wp_onBlobs]
      refine wp_mono (syncAllocator_spec (hr.blob hm) h.heap.blobs hf) ?_
      rintro _ c' ⟨hq', hlive', hclosed', hres⟩
      have hflush' : Flushed s { s with body := c, blobs := c' } := ⟨rfl, rfl, hlive, hlive'⟩
      refine ⟨hflush', hflush'.owned h hq hq', ?_⟩
      rcases hres with rfl | ⟨hv, rfl⟩
      · exact Or.inl ⟨rfl, hclosed, hclosed'⟩
      · exact Or.inr ⟨hv, rfl⟩
    · rw [if_neg hm, wp_pure]
      exact ⟨hflush, hflush.owned h hq h.heap.blobs,
        Or.inl ⟨rfl, hclosed, quiet_blobs_closed hr hm h.heap.blobs⟩⟩
  · have hflush : Flushed s { s with body := c } := ⟨rfl, rfl, hlive, rfl⟩
    rw [andThen_error]
    exact ⟨hflush, hflush.owned h hq h.heap.blobs, Or.inr ⟨hv, rfl⟩⟩

end Seal

section Heads
variable {f f' : HeadsFile}

/- The heads of the buckets `done` are in the file; the other words are as they were, and
   nothing but head words was written. -/
structure Stored (heads : Nat → Nat) (done : List Nat) (f f' : HeadsFile) : Prop where
  stored : ∀ b ∈ done, f'.words (headsStart + b * 8) = UInt64.ofNat (heads b)
  others : ∀ offset, (∀ b ∈ done, offset ≠ headsStart + b * 8) → f'.words offset = f.words offset
  durable : f'.durable = f.durable
  pending : ∃ writes, f'.pending = f.pending ++ writes ∧
    ∀ w ∈ writes, ∃ b ∈ done, w = (headsStart + b * 8, UInt64.ofNat (heads b))

theorem Stored.nil (heads : Nat → Nat) (f : HeadsFile) : Stored heads [] f f where
  stored := fun _ hb => absurd hb List.not_mem_nil
  others := fun _ _ => rfl
  durable := rfl
  pending := ⟨[], (List.append_nil _).symm, fun _ hw => absurd hw List.not_mem_nil⟩

theorem Stored.write {heads : Nat → Nat} {done : List Nat} (h : Stored heads done f f') (b : Nat) :
    Stored heads (done ++ [b]) f
      (f'.write (headsStart + b * 8) (UInt64.ofNat (heads b))) where
  stored := by
    intro b' hb'
    simp only [HeadsFile.write]
    by_cases heq : b' = b
    · subst heq
      rw [Function.update_self]
    · rw [Function.update_of_ne (by omega)]
      rcases List.mem_append.mp hb' with hold | hnew
      · exact h.stored b' hold
      · exact absurd (List.mem_singleton.mp hnew) heq
  others := by
    intro offset hoff
    simp only [HeadsFile.write]
    rw [Function.update_of_ne (hoff b (by simp))]
    exact h.others offset fun b' hb' => hoff b' (List.mem_append_left [b] hb')
  durable := h.durable
  pending := by
    obtain ⟨writes, heq, hall⟩ := h.pending
    refine ⟨writes ++ [(headsStart + b * 8, UInt64.ofNat (heads b))], ?_, ?_⟩
    · simp only [HeadsFile.write, heq, List.append_assoc]
    · intro w hw
      rcases List.mem_append.mp hw with hold | hnew
      · obtain ⟨b', hb', hw'⟩ := hall w hold
        exact ⟨b', List.mem_append_left [b] hb', hw'⟩
      · exact ⟨b, by simp, List.mem_singleton.mp hnew⟩

theorem loadHeads_spec {buckets : List Nat} (hb : ∀ b ∈ buckets, b < cfg.bucketCount)
    {Q : Except Error (List Nat) → Db → Prop} :
    (loadHeads cfg buckets).wp v t Q d ↔ Q (.ok (buckets.map d.runtimeHeads)) d := by
  induction buckets generalizing Q with
  | nil => rw [loadHeads, wp_pure, List.map_nil]
  | cons b buckets ih =>
    rw [loadHeads, wp_bind, loadHead_spec (hb b List.mem_cons_self), andThen_ok, wp_bind,
      ih fun b' hb' => hb b' (List.mem_cons_of_mem b hb'), andThen_ok, wp_pure, List.map_cons]

theorem storeHeads_spec {done buckets : List Nat} (h : Stored d.runtimeHeads done f d.headsFile) :
    (storeHeads (buckets.zip (buckets.map d.runtimeHeads))).wp v t (fun res d' => res = .ok () ∧
      ∃ f', d' = { d with headsFile := f' } ∧ Stored d.runtimeHeads (done ++ buckets) f f') d := by
  induction buckets generalizing d done with
  | nil =>
    rw [List.map_nil, List.zip_nil_left, storeHeads, wp_pure, List.append_nil]
    exact ⟨rfl, d.headsFile, rfl, h⟩
  | cons b buckets ih =>
    rw [List.map_cons, List.zip_cons_cons, storeHeads, wp_bind, wp_step, andThen_ok]
    have hnext := h.write b
    let d₁ : Db := { d with headsFile := (d.headsFile.write (headsStart + b * 8)
      (UInt64.ofNat (d.runtimeHeads b))) }
    refine wp_mono (ih (d := d₁) hnext) ?_
    rintro _ d' ⟨rfl, f', rfl, hstored⟩
    rw [List.append_assoc, List.singleton_append] at hstored
    exact ⟨rfl, f', rfl, hstored⟩

theorem persistBatches_spec {done : List Nat} {batches : List (List Nat)}
    (hb : ∀ batch ∈ batches, ∀ b ∈ batch, b < cfg.bucketCount)
    (h : Stored d.runtimeHeads done f d.headsFile) :
    (persistBatches cfg batches).wp v t (fun res d' => res = .ok () ∧
      ∃ f', d' = { d with headsFile := f' } ∧
        Stored d.runtimeHeads (done ++ batches.flatten) f f') d := by
  induction batches generalizing d done with
  | nil =>
    rw [persistBatches, wp_pure, List.flatten_nil, List.append_nil]
    exact ⟨rfl, d.headsFile, rfl, h⟩
  | cons batch batches ih =>
    rw [persistBatches, wp_bind, loadHeads_spec (hb batch List.mem_cons_self), andThen_ok, wp_bind]
    refine wp_mono (storeHeads_spec h) ?_
    rintro _ _ ⟨rfl, f₁, rfl, h₁⟩
    rw [andThen_ok]
    refine wp_mono (ih (d := { d with headsFile := f₁ })
      (fun batch' hb' => hb batch' (List.mem_cons_of_mem batch hb')) h₁) ?_
    rintro _ _ ⟨rfl, f', rfl, h'⟩
    rw [List.append_assoc] at h'
    exact ⟨rfl, f', rfl, by rw [List.flatten_cons]; exact h'⟩

theorem persistRuntimeHeads_spec :
    (persistRuntimeHeads cfg).wp v t (fun res d' => res = .ok () ∧
      ∃ f', d' = { d with headsFile := f' } ∧
        Stored d.runtimeHeads (List.range cfg.bucketCount) d.headsFile f') d := by
  have hflat := Groups.toChunks_flatten headBatch (List.range cfg.bucketCount)
  have hrange : ∀ batch ∈ (List.range cfg.bucketCount).toChunks headBatch, ∀ b ∈ batch,
      b < cfg.bucketCount := by
    intro batch hbatch b hb
    have hmem : b ∈ ((List.range cfg.bucketCount).toChunks headBatch).flatten :=
      List.mem_flatten.mpr ⟨batch, hbatch, hb⟩
    rw [hflat] at hmem
    exact List.mem_range.mp hmem
  have hspec := persistBatches_spec (v := v) (t := t) hrange
    (Stored.nil d.runtimeHeads d.headsFile)
  rw [List.nil_append, hflat] at hspec
  exact hspec

end Heads

/-- What a call of `sync` leaves, and what it has achieved when it returns `Ok`. -/
structure Synced (cfg : Config) (v : Env) (d : Db) (chains : Nat → List Nat)
    (res : Except Error Unit) (d' : Db) : Prop where
  frame : d' = { d with store := d'.store, headsFile := d'.headsFile }
  flushed : Flushed d.store d'.store
  owned : Owned cfg d'.store d'.runtimeHeads chains ∅ ∅ ∅
  outcome : (res = .ok () ∧ d'.store.body.currentBlock = 0 ∧ d'.store.blobs.currentBlock = 0 ∧
      ∃ f, Stored d.runtimeHeads (List.range cfg.bucketCount) d.headsFile f ∧
        d'.headsFile = f.sync) ∨
    v = .any ∧ res = .error .io ∧ (d'.headsFile = d.headsFile ∨
      Stored d.runtimeHeads (List.range cfg.bucketCount) d.headsFile d'.headsFile)

theorem sync_spec (hr : cfg.Ready) (hi : Idle d)
    (h : Owned cfg d.store d.runtimeHeads chains ∅ ∅ ∅) (hf : v = .fair → 1 ≤ m.fuel) :
    (sync cfg m).wp v t (Synced cfg v d chains) d := by
  apply wp_shared hi.quiescence
  have hstore := syncStore_spec (v := v) (t := t) hr h hf
  rw [wp_bind, wp_onBody] at hstore
  rw [wp_bind, wp_onStore, wp_onBody]
  refine wp_mono hstore ?_
  rintro res c hc
  cases res with
  | error e =>
    obtain ⟨hflush, howned, hres⟩ := hc
    rcases hres with ⟨hres, -⟩ | ⟨hv, hres⟩
    · cases hres
    · cases hres
      exact ⟨rfl, by rw [← hi.quiescence], hflush, howned, Or.inr ⟨hv, rfl, Or.inl rfl⟩⟩
  | ok u =>
    rw [andThen_ok, wp_bind, wp_onStore]
    refine wp_mono hc ?_
    rintro _ s' ⟨hflush, howned, ⟨rfl, hbody, hblobs⟩ | ⟨hv, rfl⟩⟩
    · rw [andThen_ok, wp_bind]
      refine wp_mono persistRuntimeHeads_spec ?_
      rintro _ _ ⟨rfl, f, rfl, hstored⟩
      rw [andThen_ok, syncHeads, wp_bind, osCallTable, wp_choose]
      constructor
      · rw [if_neg (by decide), wp_pure, andThen_ok, wp_step]
        exact ⟨rfl, by rw [← hi.quiescence], hflush, howned,
          Or.inl ⟨rfl, hbody, hblobs, f, hstored, rfl⟩⟩
      · intro hv
        rw [if_pos rfl, wp_throw, andThen_error]
        exact ⟨rfl, by rw [← hi.quiescence], hflush, howned,
          Or.inr ⟨hv, rfl, Or.inr hstored⟩⟩
    · rw [andThen_error]
      exact ⟨rfl, by rw [← hi.quiescence], hflush, howned, Or.inr ⟨hv, rfl, Or.inl rfl⟩⟩

end FlorestaDb
