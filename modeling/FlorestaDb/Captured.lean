import FlorestaDb.Capture

/-! A whole checkpoint among other calls: bucket after bucket its chains are copied, validated,
made durable and named by a manifest, and what the bank holds then can be packed again. -/
namespace FlorestaDb
open Program Program.Prog Allocator Chain

variable {cfg : Config} {m : Machine} {v : Env} {t : Tid} {w w₁ w₂ : Disk} {bank b : Nat}
  {schains : Nat → List Nat}

section Buckets
variable {done rest : List Nat} {root : Nat}

/-- The buckets that are done: their nodes are all there is in the bank, and from the root of
each leads its chain. -/
structure Captured (cfg : Config) (w : Disk) (bank : Nat) (done : List Nat)
    (schains : Nat → List Nat) : Prop where
  copies : Copies cfg (w.banks bank).store (done.flatMap schains) none
  chain : ∀ b ∈ done, IsChain (w.banks bank).store.next (snapshotRoot cfg w.db.headsFile bank b)
    (schains b)

theorem Captured.aside (h : Captured cfg w bank done schains) (haside : Aside cfg bank w w₁) :
    Captured cfg w₁ bank done schains := by
  refine ⟨?_, ?_⟩
  · rw [haside.store]
    exact h.copies
  · intro b hb
    rw [haside.store, haside.rooted.roots b]
    exact h.chain b hb

/-- The root of one bucket is written. -/
structure RootSet (cfg : Config) (bank b root : Nat) (w w₁ : Disk) : Prop where
  steady : Steady bank w w₁
  store : (w₁.banks bank).store = (w.banks bank).store
  here : snapshotRoot cfg w₁.db.headsFile bank b = root
  others : ∀ b', b' ≠ b → snapshotRoot cfg w₁.db.headsFile bank b' =
    snapshotRoot cfg w.db.headsFile bank b'

theorem casRoot_amid (ha : cfg.Accepted) (hroot : root < 2 ^ 64) :
    (casRoot cfg bank b root).Yields (Others cfg) t
      (fun won w' => won = true → RootSet cfg bank b root w w') w := by
  rw [casRoot]
  apply yields_ofExcept
  intro offset hoffset
  apply (wlp_atomic _).mpr
  intro w₁ hR r w' hf won hwon htrue
  subst htrue
  have haside := hR.aside ha bank
  by_cases hzero : w₁.db.headsFile.words offset = 0
  · rw [if_pos hzero] at hf
    obtain ⟨-, rfl⟩ := Prod.mk.inj (Option.some.inj hf)
    have hbehind := (rootOffset_behind ha hoffset).1
    refine ⟨?_, haside.store, ?_, ?_⟩
    · refine ⟨?_, haside.rooted.steady.banks, haside.rooted.steady.present,
        haside.rooted.steady.generation⟩
      intro o hlt
      have hne : o ≠ offset := by omega
      rw [← haside.rooted.steady.words o hlt]
      exact Function.update_of_ne hne _ _
    · simp only [snapshotRoot, hoffset, HeadsFile.write, Function.update_self]
      exact UInt64.toNat_ofNat_of_lt' hroot
    · intro b' hne
      rw [← haside.rooted.roots b']
      simp only [snapshotRoot]
      cases hoffset' : rootOffset cfg bank b' with
      | error e => rfl
      | ok offset' =>
        have hne' := rootOffset_ne ha hoffset hoffset' hne
        exact congrArg UInt64.toNat (Function.update_of_ne hne' _ _)
  · rw [if_neg hzero] at hf
    obtain ⟨hfalse, -⟩ := Prod.mk.inj (Option.some.inj hf)
    rw [hwon] at hfalse
    cases hfalse

theorem flatMap_push {cur : List Nat} (hb : b ∉ done) :
    (done ++ [b]).flatMap (Function.update schains b cur) = done.flatMap schains ++ cur := by
  have hold : ∀ b' ∈ done, Function.update schains b cur b' = schains b' := fun b' hb' =>
    Function.update_of_ne (fun heq : b' = b => hb (heq ▸ hb')) _ _
  rw [List.flatMap_append, List.flatMap_singleton, Function.update_self]
  exact congrArg (· ++ cur) (List.flatMap_congr hold)

/-- One more bucket is done. -/
theorem Captured.push {cur : List Nat} (h : Captured cfg w bank done schains) (hb : b ∉ done)
    (hbeside : Beside cfg bank (done.flatMap schains) w w₁)
    (hcopies : Copies cfg (w₁.banks bank).store (done.flatMap schains ++ cur) none)
    (hchain : IsChain (w₁.banks bank).store.next root cur) (hset : RootSet cfg bank b root w₁ w₂) :
    Captured cfg w₂ bank (done ++ [b]) (Function.update schains b cur) := by
  refine ⟨?_, ?_⟩
  · rw [flatMap_push hb, hset.store]
    exact hcopies
  · intro b' hb'
    rw [hset.store]
    cases List.mem_append.mp hb' with
    | inl hin =>
      have hne : b' ≠ b := fun heq => hb (heq ▸ hin)
      rw [Function.update_of_ne hne, hset.others b' hne, hbeside.rooted.roots b']
      refine (h.chain b' hin).congr ?_
      intro o ho
      have hmem : o ∈ done.flatMap schains := List.mem_flatMap.mpr ⟨b', hin, ho⟩
      exact congrArg Slot.next (hbeside.keeps o hmem).1
    | inr hhere =>
      rw [List.mem_singleton.mp hhere, Function.update_self, hset.here]
      exact hchain

/-- The root of a copied chain fits its word. -/
theorem root_lt (hv : cfg.Valid) {s : Store} {nodes cur : List Nat} (h : Copies cfg s (nodes ++ cur) none)
    (hchain : IsChain s.next root cur) : root < 2 ^ 64 := by
  cases cur with
  | nil =>
    have hend : root = 0 := hchain
    omega
  | cons o cur =>
    obtain ⟨rfl, -, -⟩ := hchain
    have hlive : LiveNode cfg s root := h.liveNode (by simp)
    have hlt := (hlive.bounds hv h.body).2.2
    have hmask : nodePointerMask.toNat < 2 ^ 64 := by decide
    omega

theorem copyBuckets_amid (ha : cfg.Accepted) (h : Captured cfg w bank done schains)
    (hnd : (done ++ rest).Nodup) :
    (copyBuckets cfg m bank rest).Yields (Others cfg) t
      (fun _ w' => Steady bank w w' ∧ ∃ schains', Captured cfg w' bank (done ++ rest) schains') w := by
  induction rest generalizing w done schains with
  | nil =>
    rw [copyBuckets]
    refine yields_pure ⟨.refl bank w, schains, ?_⟩
    rw [List.append_nil]
    exact h
  | cons b rest ih =>
    have hb : b ∉ done := by
      intro hmem
      exact (List.nodup_append.mp hnd).2.2 b hmem b List.mem_cons_self rfl
    rw [copyBuckets]
    refine (copyBucketToSnapshot_amid ha h.copies).seq ?_
    intro root w₁ hroot
    obtain ⟨hbeside, cur, hcopies, hchain⟩ := hroot
    refine (casRoot_amid ha (root_lt ha.ready.valid hcopies hchain)).seq ?_
    intro won w₂ hwon
    cases won with
    | false =>
      rw [if_neg (by decide)]
      exact yields_throw _
    | true =>
      have hset := hwon rfl
      rw [if_pos rfl]
      rw [List.append_cons] at hnd ⊢
      refine (ih (h.push hb hbeside hcopies hchain hset) hnd).mono ?_
      intro _ w' hdone
      exact ⟨(hbeside.rooted.steady.trans hset.steady).trans hdone.1, hdone.2⟩

end Buckets

section Checksum
variable {buckets done : List Nat} {checksum : UInt64} {s : Store}

/-- Whatever the files hold, the checksum of a chain is that of an acceptable one. -/
theorem chainChecksum_spec {bucket root : Nat} :
    (chainChecksum cfg bucket root (maximumNodes cfg) root checksum).wp v t (fun r s' => s' = s ∧
      ∀ c, r = .ok c → ∃ l, ChainOk cfg s bucket root l ∧ c = mixChain s checksum l) s := by
  by_cases hok : ∃ l, ChainOk cfg s bucket root l
  · obtain ⟨l, hl⟩ := hok
    refine (chainChecksum_ok hl checksum).mpr ⟨rfl, fun c hc => ?_⟩
    exact ⟨l, hl, (Except.ok.inj hc).symm⟩
  · refine wp_mono (chainChecksum_root cfg s bucket root checksum) ?_
    intro r s' hr
    exact ⟨hr.1, fun c hc => absurd (hr.2 c hc) hok⟩

theorem Aside.symm (h : Aside cfg bank w w₁) : Aside cfg bank w₁ w where
  store := h.store.symm
  rooted := ⟨⟨fun offset hlt => (h.rooted.steady.words offset hlt).symm,
    fun b hb => ⟨(h.rooted.steady.banks b hb).1.symm, (h.rooted.steady.banks b hb).2.symm⟩, h.rooted.steady.present.symm,
    h.rooted.steady.generation.symm⟩, fun b => (h.rooted.roots b).symm⟩

theorem Aside.snapshotOk (haside : Aside cfg bank w w₁) (h : SnapshotOk cfg w bank buckets schains) :
    SnapshotOk cfg w₁ bank buckets schains := by
  refine ⟨h.root, ?_⟩
  intro b hb
  rw [haside.store, haside.rooted.roots b]
  exact h.chain b hb

theorem Aside.mixBuckets (haside : Aside cfg bank w w₁) :
    mixBuckets cfg w₁ bank schains buckets checksum = mixBuckets cfg w bank schains buckets checksum := by
  have hroots : ∀ b, snapshotRoot cfg w₁.db.headsFile bank b = snapshotRoot cfg w.db.headsFile bank b :=
    haside.rooted.roots
  simp only [FlorestaDb.mixBuckets, haside.store, hroots]

theorem readRoot_amid (ha : cfg.Accepted) :
    (readRoot cfg bank b).Yields (Others cfg) t (fun root w' => Aside cfg bank w w' ∧
      root = snapshotRoot cfg w.db.headsFile bank b ∧ ∃ offset, rootOffset cfg bank b = .ok offset) w := by
  rw [readRoot]
  apply yields_ofExcept
  intro offset hoffset
  apply (wlp_atomic _).mpr
  intro w₁ hR r w' hf root hroot
  obtain ⟨rfl, rfl⟩ := Prod.mk.inj (Option.some.inj hf)
  have haside := hR.aside ha bank
  refine ⟨haside, ?_, offset, hoffset⟩
  rw [← haside.rooted.roots b, snapshotRoot, hoffset]
  exact (Except.ok.inj hroot).symm

theorem bucketsChecksum_amid (ha : cfg.Accepted) (h : Captured cfg w bank done schains)
    (hsub : ∀ b ∈ buckets, b ∈ done) :
    (bucketsChecksum cfg bank buckets checksum).Yields (Others cfg) t
      (fun c w' => Aside cfg bank w w' ∧ SnapshotOk cfg w bank buckets schains ∧
        c = mixBuckets cfg w bank schains buckets checksum) w := by
  induction buckets generalizing w checksum with
  | nil =>
    rw [bucketsChecksum]
    exact yields_pure ⟨.refl cfg bank w, ⟨by simp, by simp⟩, rfl⟩
  | cons b rest ih =>
    rw [bucketsChecksum]
    refine (readRoot_amid ha).seq ?_
    intro root w₁ hroot
    obtain ⟨haside₁, rfl, hoffset⟩ := hroot
    refine yields_seq (wlp_bank ha chainChecksum_spec) ?_
    intro mixed w₂ hmixed
    obtain ⟨⟨hs₂, hok⟩, hroots₂⟩ := hmixed
    obtain ⟨l, hl, rfl⟩ := hok mixed rfl
    rw [haside₁.store] at hl
    have hl' : l = schains b := hl.chain.unique (h.chain b (hsub b List.mem_cons_self))
    subst hl'
    have haside : Aside cfg bank w w₂ := haside₁.trans ⟨hs₂, hroots₂⟩
    refine (ih (h.aside haside) fun b' hb' => hsub b' (List.mem_cons_of_mem _ hb')).mono ?_
    intro c w₃ hc
    obtain ⟨haside₃, hsnap, rfl⟩ := hc
    have hrest := haside.symm.snapshotOk hsnap
    refine ⟨haside.trans haside₃, ⟨?_, ?_⟩, ?_⟩
    · intro b' hb'
      cases List.mem_cons.mp hb' with
      | inl heq => exact heq ▸ hoffset
      | inr hin => exact hrest.root b' hin
    · intro b' hb'
      cases List.mem_cons.mp hb' with
      | inl heq => exact heq ▸ hl
      | inr hin => exact hrest.chain b' hin
    · rw [haside.mixBuckets, haside₁.store]
      rfl

end Checksum

section Flush
variable {s s' : Store} {nodes l : List Nat} {o root : Nat}

/-- A flush seals the open pages, and an opened file has none; what is live stays. -/
theorem Copies.flushed (h : Copies cfg s nodes none) (hs : Flushed s s')
    (hbody : Quiet cfg.bodyLayout s'.body) (hblobs : Quiet cfg.blobLayout s'.blobs)
    (hseal : s'.body = s.body ∨ s'.body.currentBlock = 0)
    (hseal' : s'.blobs = s.blobs ∨ s'.blobs.currentBlock = 0) : Copies cfg s' nodes none := by
  obtain ⟨gs, hgs⟩ := h.groups
  obtain ⟨bgs, hbgs⟩ := h.blob_groups
  have hgroups : ∃ gs, Grouped cfg.bodyLayout nodeAlignment s'.body gs := by
    cases hseal with
    | inl heq => exact ⟨gs, heq ▸ hgs⟩
    | inr hclosed => exact ⟨gs, hgs.sealed hs.body_live hclosed⟩
  have hgroups' : ∃ gs, Grouped cfg.blobLayout 8 s'.blobs gs := by
    cases hseal' with
    | inl heq => exact ⟨bgs, heq ▸ hbgs⟩
    | inr hclosed => exact ⟨bgs, hbgs.sealed hs.blobs_live hclosed⟩
  have hlive : s'.blobs.live.reverse = nodes.filterMap (nodeBlob cfg s) ++ none.toList := by
    rw [hs.blobs_live, h.blob_live]
  exact (h.kept s' hbody hblobs hgroups hgroups' hs.body_live hlive (fun o _ => by rw [hs.slots])
    fun o _ x _ i _ _ => by rw [hs.bytes]).1

theorem LiveBlob.blobOk (hr : cfg.Ready) (hq : Quiet cfg.blobLayout s.blobs) {bytes : List UInt8}
    (h : LiveBlob cfg s o bytes) : BlobOk cfg s o bytes := by
  have hL := hr.blob (mode_of_live_blob hr hq h.live)
  obtain ⟨hfor, hshort, hbound⟩ := h.fits hr hq
  have hheader := (live_range hL hq.pages h.live (Nat.le_refl _)
    (Nat.add_le_add_left (Nat.le_add_right blobHeaderSize bytes.length) _)).1
  have hcontent := (live_range hL hq.pages h.live (Nat.le_add_right o blobHeaderSize)
    (Nat.le_of_eq (Nat.add_assoc _ blobHeaderSize bytes.length))).1
  exact ⟨h.at_bytes, hheader, hcontent, ⟨_, hfor⟩, hshort, hbound⟩

/-- A copied value can be read back. -/
theorem Copies.decodes (hr : cfg.Ready) (h : Copies cfg s nodes none) (ho : o ∈ nodes)
    (hset : cfg.mode = .set → (s.slots o).value = 0) : Decodes cfg s (s.slots o).value := by
  refine ⟨hset, ?_⟩
  intro hb
  obtain ⟨bytes, hlive⟩ := h.liveBlob ho hb
  exact ⟨(h.word o ho hb).1, bytes, hlive.blobOk hr h.blobs⟩

/-- What the validator has accepted is acceptable wherever its nodes are copied. -/
theorem ChainOk.copied (hr : cfg.Ready) (h : ChainOk cfg s b root l) (hc : Copies cfg s' nodes none)
    (hsub : ∀ o ∈ l, o ∈ nodes) (hslots : s'.slots = s.slots) : ChainOk cfg s' b root l where
  chain := by
    have hnext : s'.next = s.next := by
      funext o
      exact congrArg (fun slots : Nat → Slot => (slots o).next) hslots
    rw [hnext]
    exact h.chain
  nodes := by
    intro o ho
    have hnode := h.nodes o ho
    have hset : cfg.mode = .set → (s'.slots o).value = 0 := by
      rw [hslots]
      exact hnode.decodes.set_value
    exact ⟨hc.readable hr.valid (hsub o ho), hnode.placed, hslots ▸ hnode.bucket,
      hc.decodes hr (hsub o ho) hset⟩
  distinct := hslots ▸ h.distinct
  length_le := h.length_le

end Flush

section Room
variable {s : Store} {nodes : List Nat}

/-- New files have room for what was copied. -/
theorem Copies.recoverable (h : Copies cfg s (snapshotNodes cfg schains) none) :
    Recoverable cfg s schains := by
  obtain ⟨gs, hgs⟩ := h.groups
  obtain ⟨bgs, hbgs⟩ := h.blob_groups
  have hbody := hgs.packs (by decide) h.body
  have hblobs := hbgs.packs (by decide) h.blobs
  have hsizes : ((snapshotNodes cfg schains).map (nodeAlloc cfg)).map Allocation.length =
      List.replicate (snapshotNodes cfg schains).length nodeSize := by
    have hconst : Allocation.length ∘ nodeAlloc cfg = fun _ => nodeSize := rfl
    rw [List.map_map, hconst, List.map_const']
  have hitems : ((snapshotNodes cfg schains).filterMap (nodeBlob cfg s)).map Allocation.length =
      blobItems cfg s (snapshotNodes cfg schains) := by
    have hword := h.word
    generalize snapshotNodes cfg schains = l at hword
    induction l with
    | nil => rfl
    | cons o l ih =>
      have hrest := ih fun z hz => hword z (List.mem_cons_of_mem _ hz)
      rw [blobItems, List.flatMap_cons, List.filterMap_cons, blobItem]
      rw [blobItems] at hrest
      cases hb : isBlob (s.slots o).value with
      | false =>
        have hnone : nodeBlob cfg s o = none := by
          rw [nodeBlob, blobOpt, hb]
          rfl
        rw [hnone, if_neg (by decide), List.nil_append]
        exact hrest
      | true =>
        obtain ⟨hm, bytes, hat⟩ := hword o List.mem_cons_self hb
        have hsome : nodeBlob cfg s o = some (blobAlloc cfg (blobOffset (s.slots o).value) bytes.length) := by
          rw [nodeBlob, blobOpt_eq_some, hat.blobLength_eq]
          exact ⟨hb, rfl⟩
        rw [hsome, if_pos rfl, valueAt_blob hm hb hat, List.map_cons, hrest]
        rfl
  rw [h.live, hsizes] at hbody
  rw [h.blob_live, Option.toList_none, List.append_nil, hitems] at hblobs
  exact ⟨hbody, fun _ => hblobs⟩

end Room

section Whole
variable {nodes : List Nat} {generation : Nat} {checksum : UInt64}

/-- The files of the bank are flushed. -/
structure Sealed (cfg : Config) (s : Store) (nodes : List Nat) : Prop where
  copies : Copies cfg s nodes none
  body : s.body.currentBlock = 0
  blobs : s.blobs.currentBlock = 0

theorem io_of_result {r : Except Error Unit} (h : r = .ok () ∨ v = .any ∧ r = .error .io) :
    ∀ e, r = .error e → e = .io := by
  intro e he
  cases h with
  | inl hok =>
    rw [hok] at he
    cases he
  | inr hio =>
    rw [hio.2] at he
    exact (Except.error.inj he).symm

theorem syncBody_spec (hr : cfg.Ready) {s : Store} (h : Copies cfg s nodes none) :
    (onBody (syncAllocator m cfg.bodyLayout)).wp .any t (fun r s' => (∀ e, r = .error e → e = .io) ∧
      Flushed s s' ∧ Copies cfg s' nodes none ∧ s'.body.currentBlock = 0) s := by
  rw [wp_onBody]
  refine wp_mono (syncAllocator_spec hr.valid.bodyLayout_ok h.body fun hv => by cases hv) ?_
  intro r c hc
  obtain ⟨hq, hlive, hclosed, hres⟩ := hc
  have hflush : Flushed s { s with body := c } := ⟨rfl, rfl, hlive, rfl⟩
  exact ⟨io_of_result hres, hflush, h.flushed hflush hq h.blobs (Or.inr hclosed) (Or.inl rfl), hclosed⟩

theorem syncBlobs_spec (hr : cfg.Ready) {s : Store} (h : Copies cfg s nodes none)
    (hbody : s.body.currentBlock = 0) :
    (syncBlobs cfg m).wp .any t (fun r s' => (∀ e, r = .error e → e = .io) ∧ Flushed s s' ∧
      Sealed cfg s' nodes) s := by
  rw [syncBlobs]
  by_cases hm : cfg.mode = .map
  · rw [if_pos hm, wp_onBlobs]
    refine wp_mono (syncAllocator_spec (hr.blob hm) h.blobs fun hv => by cases hv) ?_
    intro r c hc
    obtain ⟨hq, hlive, hclosed, hres⟩ := hc
    have hflush : Flushed s { s with blobs := c } := ⟨rfl, rfl, rfl, hlive⟩
    exact ⟨io_of_result hres, hflush, h.flushed hflush h.body hq (Or.inl rfl) (Or.inr hclosed), hbody, hclosed⟩
  · rw [if_neg hm, wp_pure]
    exact ⟨(fun e he => by cases he), ⟨rfl, rfl, rfl, rfl⟩, h, hbody, quiet_blobs_closed hr hm h.blobs⟩

/-- A step on the flags of the bank. -/
theorem aside_setBank (f : Bank → Bank) (hstore : (f (w.banks bank)).store = (w.banks bank).store)
    (hpresent : (f (w.banks bank)).present = (w.banks bank).present) :
    Aside cfg bank w (w.setBank bank f) := by
  have hhere : (w.setBank bank f).banks bank = f (w.banks bank) := Function.update_self _ _ _
  refine ⟨?_, ⟨fun _ _ => rfl, ?_, ?_, rfl⟩, fun _ => rfl⟩
  · rw [hhere]
    exact hstore
  · intro b hb
    have hother : (w.setBank bank f).banks b = w.banks b := Function.update_of_ne hb _ _
    rw [hother]
    exact ⟨rfl, rfl⟩
  · rw [hhere]
    exact hpresent

theorem syncSnapshot_amid (ha : cfg.Accepted) (h : Copies cfg (w.banks bank).store nodes none) :
    (syncSnapshot cfg m bank).Yields (Others cfg) t (fun _ w' => Rooted cfg bank w w' ∧
      Flushed (w.banks bank).store (w'.banks bank).store ∧
      Sealed cfg (w'.banks bank).store nodes) w := by
  rw [syncSnapshot]
  refine yields_seq (wlp_bank ha (syncBody_spec ha.ready h)) ?_
  intro _ w₁ hbody
  obtain ⟨⟨-, hflush₁, hcopies₁, hclosed₁⟩, hroots₁⟩ := hbody
  refine yields_seq (wlp_bank ha (syncBlobs_spec ha.ready hcopies₁ hclosed₁)) ?_
  intro _ w₂ hblobs
  obtain ⟨⟨-, hflush₂, hsealed⟩, hroots₂⟩ := hblobs
  apply (wlp_atomic _).mpr
  intro w₃ hR r w' hf _ _
  obtain ⟨-, rfl⟩ := Prod.mk.inj (Option.some.inj hf)
  have haside : Aside cfg bank w₂ (w₃.setBank bank fun b => { b with unsynced := false }) :=
    (hR.aside ha bank).trans (aside_setBank _ rfl rfl)
  refine ⟨(hroots₁.trans hroots₂).trans haside.rooted, ?_, ?_⟩
  · rw [haside.store]
    exact ⟨hflush₂.slots.trans hflush₁.slots, hflush₂.bytes.trans hflush₁.bytes,
      hflush₂.body_live.trans hflush₁.body_live, hflush₂.blobs_live.trans hflush₁.blobs_live⟩
  · rw [haside.store]
    exact hsealed

theorem osCallDisk_amid (bank : Nat) :
    osCallDisk.Yields (Others cfg) t (fun _ w' => Aside cfg bank w w') w := by
  intro b
  cases b with
  | false => exact yields_pure (.refl cfg bank w)
  | true => exact yields_throw _

theorem syncNamespace_amid (ha : cfg.Accepted) (bank : Nat) :
    syncNamespace.Yields (Others cfg) t (fun _ w' => Aside cfg bank w w') w := by
  rw [syncNamespace]
  refine (osCallDisk_amid bank).seq ?_
  intro _ w₁ haside₁
  apply (wlp_atomic _).mpr
  intro w₂ hR r w' hf _ _
  obtain ⟨-, rfl⟩ := Prod.mk.inj (Option.some.inj hf)
  refine (haside₁.trans (hR.aside ha bank)).trans ?_
  exact ⟨rfl, ⟨fun _ _ => rfl, fun _ _ => ⟨rfl, rfl⟩, rfl, rfl⟩, fun _ => rfl⟩

theorem syncHeads_amid (ha : cfg.Accepted) (bank : Nat) :
    (onDb syncHeads).Yields (Others cfg) t (fun _ w' => Aside cfg bank w w') w := by
  intro b
  cases b with
  | true => exact yields_throw _
  | false =>
    intro w₁ hR x hf _ _
    obtain ⟨y, hy, rfl⟩ := Option.map_eq_some_iff.mp hf
    obtain rfl := Option.some.inj hy
    refine (hR.aside ha bank).trans ?_
    exact ⟨rfl, ⟨fun _ _ => rfl, fun _ _ => ⟨rfl, rfl⟩, rfl, rfl⟩, fun _ => rfl⟩

/-- Since `w` the first page of the heads file became `g`, and the snapshot was left alone. -/
structure Penned (cfg : Config) (bank : Nat) (g : Nat → UInt64) (w w₁ : Disk) : Prop where
  words : ∀ offset < headsStart, w₁.db.headsFile.words offset = g offset
  roots : SameRoots cfg bank w.db.headsFile w₁.db.headsFile
  store : (w₁.banks bank).store = (w.banks bank).store
  present : (w₁.banks bank).present = (w.banks bank).present

theorem Penned.aside {g : Nat → UInt64} (h : Penned cfg bank g w w₁) (haside : Aside cfg bank w₁ w₂) :
    Penned cfg bank g w w₂ where
  words := fun offset hlt => (haside.rooted.steady.words offset hlt).trans (h.words offset hlt)
  roots := fun b => (haside.rooted.roots b).trans (h.roots b)
  store := haside.store.trans h.store
  present := haside.rooted.steady.present.trans h.present

theorem penned_refl (cfg : Config) (bank : Nat) (w : Disk) :
    Penned cfg bank w.db.headsFile.words w w :=
  ⟨fun _ _ => rfl, fun _ => rfl, rfl, rfl⟩

theorem casReplace_amid (ha : cfg.Accepted) {g : Nat → UInt64} {w₀ : Disk} {offset : Nat}
    {word : UInt64} (h : Penned cfg bank g w₀ w) (hlt : offset < headsStart) :
    (casReplace offset word).Yields (Others cfg) t
      (fun _ w' => Penned cfg bank (Function.update g offset word) w₀ w') w := by
  apply (wlp_atomic _).mpr
  intro w₁ hR r w' hf _ _
  obtain ⟨-, rfl⟩ := Prod.mk.inj (Option.some.inj hf)
  have h₁ := h.aside (hR.aside ha bank)
  refine ⟨?_, ?_, h₁.store, h₁.present⟩
  · intro o ho
    by_cases heq : o = offset
    · subst heq
      simp [HeadsFile.write]
    · simp [HeadsFile.write, Function.update_of_ne heq, h₁.words o ho]
  · have hkept : SameRoots cfg bank w₁.db.headsFile (w₁.db.headsFile.write offset word) := by
      apply sameRoots_of_words
      intro b o ho
      have hbehind := (rootOffset_behind ha ho).1
      exact Function.update_of_ne (by omega) _ _
    intro b
    exact (hkept b).trans (h₁.roots b)

/-- The manifest can be read, and the rest of the first page is as it was. -/
theorem writeManifest_amid (ha : cfg.Accepted) (hbank : bank ≤ 1) (hparity : generation % 2 = bank)
    (hgen : generation < u64Bound) :
    (writeManifest ⟨generation, bank, checksum⟩).Yields (Others cfg) t (fun _ w' =>
      ∃ g, Penned cfg bank g w w' ∧
        readManifest w'.db.headsFile bank = some ⟨generation, bank, checksum⟩) w := by
  have hoffset : manifestBase + bank * manifestStride + 32 < headsStart := by
    have hb := Nat.mul_le_mul_right manifestStride hbank
    simp only [manifestBase, manifestStride, headsStart, formatPageSize] at hb ⊢
    omega
  rw [writeManifest]
  apply yields_ofExcept
  intro offset hok
  rw [manifestOffset, if_neg (Nat.not_lt.mpr hbank)] at hok
  obtain rfl := Except.ok.inj hok
  generalize ho : manifestBase + bank * manifestStride = offset at hoffset
  refine (casReplace_amid ha (penned_refl cfg bank w) (by omega)).seq ?_
  intro _ w₁ h₁
  refine (casReplace_amid ha h₁ (by omega)).seq ?_
  intro _ w₂ h₂
  refine (casReplace_amid ha h₂ (by omega)).seq ?_
  intro _ w₃ h₃
  refine (casReplace_amid ha h₃ (by omega)).seq ?_
  intro _ w₄ h₄
  refine (casReplace_amid ha h₄ (by omega)).seq ?_
  intro _ w₅ h₅
  refine (casReplace_amid ha h₅ (by omega)).mono ?_
  intro _ w' h'
  refine ⟨_, h', ?_⟩
  have hwords : ∀ i ≤ 32, w'.db.headsFile.words (offset + i) = _ := fun i hi =>
    h'.words (offset + i) (by omega)
  have h0 := hwords 0 (by omega)
  have h8 := hwords 8 (by omega)
  have h16 := hwords 16 (by omega)
  have h24 := hwords 24 (by omega)
  have h32 := hwords 32 (by omega)
  simp at h0 h8 h16 h24 h32
  have hgen' : (UInt64.ofNat generation).toNat = generation := UInt64.toNat_ofNat_of_lt' hgen
  have hbank' : (UInt64.ofNat bank).toNat = bank := UInt64.toNat_ofNat_of_lt' (by
    rw [show UInt64.size = 18446744073709551616 from rfl]
    omega)
  simp only [readManifest, ho, h0, h8, h16, h24, h32, hgen', hbank', hparity]
  simp

/-- A snapshot that is durable and named by its manifest. -/
structure Saved (cfg : Config) (w : Disk) (generation : Nat) (schains : Nat → List Nat) : Prop where
  present : (w.banks (generation % 2)).present = true
  manifest : readManifest w.db.headsFile (generation % 2) =
    some ⟨generation, generation % 2, checksumOf cfg w (generation % 2) schains⟩
  validated : Validated cfg w (generation % 2) schains
  files : Sealed cfg (w.banks (generation % 2)).store (snapshotNodes cfg schains)

/-- A saved snapshot is its files, its roots and its manifest. -/
theorem Saved.congr (h : Saved cfg w generation schains)
    (hstore : (w₁.banks (generation % 2)).store = (w.banks (generation % 2)).store)
    (hpresent : (w₁.banks (generation % 2)).present = (w.banks (generation % 2)).present)
    (hroots : SameRoots cfg (generation % 2) w.db.headsFile w₁.db.headsFile)
    (hmanifest : readManifest w₁.db.headsFile (generation % 2) =
      readManifest w.db.headsFile (generation % 2)) : Saved cfg w₁ generation schains := by
  refine ⟨hpresent.trans h.present, ?_, ⟨h.validated.root, ?_⟩, hstore ▸ h.files⟩
  · have hroots' : ∀ b, snapshotRoot cfg w₁.db.headsFile (generation % 2) b =
        snapshotRoot cfg w.db.headsFile (generation % 2) b := hroots
    rw [hmanifest, h.manifest, checksumOf, checksumOf]
    simp only [mixBuckets, hstore, hroots']
  · intro b hb
    rw [hstore, hroots b]
    exact h.validated.chain b hb

theorem Saved.aside (h : Saved cfg w generation schains) (haside : Aside cfg (generation % 2) w w₁) :
    Saved cfg w₁ generation schains := by
  refine h.congr haside.store haside.rooted.steady.present haside.rooted.roots ?_
  apply Mapped.readManifest_words
  intro i hi
  apply haside.rooted.steady.words
  have hstart : headsStart = 65536 := rfl
  omega

/-- The rest of the handle does not matter. -/
theorem Saved.same (h : Saved cfg w generation schains) (hbanks : w₁.banks = w.banks)
    (hheads : w₁.db.headsFile = w.db.headsFile) : Saved cfg w₁ generation schains := by
  apply h.congr (by rw [hbanks]) (by rw [hbanks])
  · intro b
    rw [hheads]
  · rw [hheads]

theorem createSnapshot_amid : (createSnapshot cfg bank).Yields (Others cfg) t
    (fun _ w' => (w'.banks bank).store = Store.created ∧ (w'.banks bank).present = true) w := by
  rw [createSnapshot]
  apply yields_ofExcept
  intro _ _
  refine (osCallDisk_amid bank).seq ?_
  intro _ w₁ _
  apply (wlp_atomic _).mpr
  intro w₂ _ r w' hf _ _
  obtain ⟨-, rfl⟩ := Prod.mk.inj (Option.some.inj hf)
  have hhere : (w₂.setBank bank fun _ => ⟨Store.created, true, true, true⟩).banks bank =
      ⟨Store.created, true, true, true⟩ := Function.update_self _ _ _
  rw [hhere]
  exact ⟨rfl, rfl⟩

theorem captured_created (schains : Nat → List Nat) (h : (w.banks bank).store = Store.created) :
    Captured cfg w bank [] schains := by
  refine ⟨?_, by simp⟩
  rw [h]
  exact copies_created cfg

/-- What the files hold once they are flushed is what was validated. -/
theorem SnapshotOk.flushed (hr : cfg.Ready) {buckets : List Nat}
    (h : SnapshotOk cfg w bank buckets schains) (hroots : SameRoots cfg bank w.db.headsFile w₁.db.headsFile)
    (hflush : Flushed (w.banks bank).store (w₁.banks bank).store)
    (hc : Copies cfg (w₁.banks bank).store nodes none)
    (hsub : ∀ b ∈ buckets, ∀ o ∈ schains b, o ∈ nodes) :
    SnapshotOk cfg w₁ bank buckets schains ∧
      mixBuckets cfg w₁ bank schains buckets checksum = mixBuckets cfg w bank schains buckets checksum := by
  have hsame : ∀ b, snapshotRoot cfg w₁.db.headsFile bank b = snapshotRoot cfg w.db.headsFile bank b :=
    hroots
  refine ⟨⟨h.root, ?_⟩, ?_⟩
  · intro b hb
    rw [hsame b]
    exact (h.chain b hb).copied hr hc (hsub b hb) hflush.slots
  · have hmix : mixChain (w₁.banks bank).store = mixChain (w.banks bank).store := by
      funext checksum l
      simp only [mixChain, nodeAt, hflush.slots]
    simp only [mixBuckets, hsame, hmix]

/-- The manifest names what is in the files. -/
theorem publish_amid (ha : cfg.Accepted) {previous : Nat} (hgen : generation < u64Bound)
    (hval : Validated cfg w (generation % 2) schains)
    (hfiles : Sealed cfg (w.banks (generation % 2)).store (snapshotNodes cfg schains))
    (hpresent : (w.banks (generation % 2)).present = true) :
    (do
      syncNamespace
      onDb syncHeads
      writeManifest ⟨generation, generation % 2, checksumOf cfg w (generation % 2) schains⟩
      onDb syncHeads
      if ← casGeneration previous generation then return generation
      else throw (.corrupt "checkpoint generation changed unexpectedly") : DiskM Nat).Yields
      (Others cfg) t (fun g w' => g = generation ∧ w'.db.checkpointGeneration = generation ∧
        Saved cfg w' generation schains ∧
        (w'.banks (generation % 2)).store = (w.banks (generation % 2)).store) w := by
  refine (syncNamespace_amid ha (generation % 2)).seq ?_
  intro _ w₁ haside₁
  refine (syncHeads_amid ha (generation % 2)).seq ?_
  intro _ w₂ haside₂
  have haside := haside₁.trans haside₂
  refine (writeManifest_amid ha (by omega) rfl hgen).seq ?_
  intro _ w₃ hwritten
  obtain ⟨g, hpen, hread⟩ := hwritten
  have hroots : SameRoots cfg (generation % 2) w.db.headsFile w₃.db.headsFile := fun b =>
    (hpen.roots b).trans (haside.rooted.roots b)
  have hstore : (w₃.banks (generation % 2)).store = (w.banks (generation % 2)).store :=
    hpen.store.trans haside.store
  have hflush : Flushed (w.banks (generation % 2)).store (w₃.banks (generation % 2)).store := by
    rw [hstore]
    exact ⟨rfl, rfl, rfl, rfl⟩
  have hfiles₃ : Sealed cfg (w₃.banks (generation % 2)).store (snapshotNodes cfg schains) :=
    hstore ▸ hfiles
  obtain ⟨hval₃, hsum₃⟩ := hval.flushed ha.ready hroots hflush hfiles₃.copies
    (fun b hb o ho => List.mem_flatMap.mpr ⟨b, hb, ho⟩)
  have hsaved : Saved cfg w₃ generation schains := by
    refine ⟨?_, ?_, hval₃, hfiles₃⟩
    · rw [hpen.present, haside.rooted.steady.present]
      exact hpresent
    · rw [hread]
      exact congrArg (fun sum => some (Manifest.mk generation (generation % 2) sum)) hsum₃.symm
  refine (syncHeads_amid ha (generation % 2)).seq ?_
  intro _ w₄ haside₄
  refine Yields.seq (P := fun won w' => won = true → w'.db.checkpointGeneration = generation ∧
    Saved cfg w' generation schains ∧
    (w'.banks (generation % 2)).store = (w.banks (generation % 2)).store) ?_ ?_
  · apply (wlp_atomic _).mpr
    intro w₅ hR r w' hf won hwon htrue
    subst htrue
    have haside₅ := haside₄.trans (hR.aside ha _)
    have hsaved₅ := hsaved.aside haside₅
    by_cases hsame : w₅.db.checkpointGeneration = previous
    · rw [if_pos hsame] at hf
      obtain ⟨-, rfl⟩ := Prod.mk.inj (Option.some.inj hf)
      exact ⟨rfl, hsaved₅.same rfl rfl, haside₅.store.trans hstore⟩
    · rw [if_neg hsame] at hf
      obtain ⟨hfalse, -⟩ := Prod.mk.inj (Option.some.inj hf)
      rw [hwon] at hfalse
      cases hfalse
  · intro won w' hwon
    cases won with
    | false =>
      rw [if_neg (by decide)]
      exact yields_throw _
    | true =>
      rw [if_pos rfl]
      exact yields_pure ⟨rfl, hwon rfl⟩

/-- The part of a checkpoint behind the copies. -/
theorem finish_amid (ha : cfg.Accepted) {previous : Nat} (hgen : generation < u64Bound)
    (h : Captured cfg w (generation % 2) (List.range cfg.bucketCount) schains)
    (hpresent : (w.banks (generation % 2)).present = true) :
    (do
      let checksum ← snapshotChecksum cfg (generation % 2)
      syncSnapshot cfg m (generation % 2)
      syncNamespace
      onDb syncHeads
      writeManifest ⟨generation, generation % 2, checksum⟩
      onDb syncHeads
      if ← casGeneration previous generation then return generation
      else throw (.corrupt "checkpoint generation changed unexpectedly") : DiskM Nat).Yields
      (Others cfg) t (fun g w' => g = generation ∧ w'.db.checkpointGeneration = generation ∧
        Saved cfg w' generation schains ∧
        Flushed (w.banks (generation % 2)).store (w'.banks (generation % 2)).store) w := by
  refine (bucketsChecksum_amid ha h fun b hb => hb).seq ?_
  intro checksum w₁ hchecked
  obtain ⟨haside₁, hsnap, rfl⟩ := hchecked
  have hcopies₁ : Copies cfg (w₁.banks (generation % 2)).store (snapshotNodes cfg schains) none := by
    rw [haside₁.store]
    exact h.copies
  refine (syncSnapshot_amid ha hcopies₁).seq ?_
  intro _ w₂ hsynced
  obtain ⟨hroots₂, hflush₂, hfiles₂⟩ := hsynced
  obtain ⟨hval₂, hmix₂⟩ := (haside₁.snapshotOk hsnap).flushed ha.ready hroots₂.roots hflush₂
    hfiles₂.copies (fun b hb o ho => List.mem_flatMap.mpr ⟨b, hb, ho⟩)
  have hpresent₂ : (w₂.banks (generation % 2)).present = true := by
    rw [hroots₂.steady.present, haside₁.rooted.steady.present]
    exact hpresent
  rw [← haside₁.mixBuckets, ← hmix₂]
  refine (publish_amid ha hgen hval₂ hfiles₂ hpresent₂).mono ?_
  intro g w' hg
  obtain ⟨rfl, hcounter, hsaved, hstore⟩ := hg
  rw [hstore, ← haside₁.store]
  exact ⟨rfl, hcounter, hsaved, hflush₂⟩

theorem checkpointInner_amid (ha : cfg.Accepted) :
    (checkpointInner cfg m).Yields (Others cfg) t (fun generation w' =>
      generation = w.db.checkpointGeneration + 1 ∧ w'.db.checkpointGeneration = generation ∧
      ∃ schains, Saved cfg w' generation schains) w := by
  have hskip : ∀ {α : Type} (p : DiskM α) (w : Disk),
      p.wlp (Others cfg) t (fun _ _ => True) w := fun p w => wlp_trivial p fun _ _ => trivial
  rw [checkpointInner]
  refine Yields.seq (P := fun previous _ => previous = w.db.checkpointGeneration) ?_ ?_
  · apply (wlp_atomic _).mpr
    intro w₁ hR r w' hf previous hprevious
    obtain ⟨rfl, -⟩ := Prod.mk.inj (Option.some.inj hf)
    rw [← hR.generation]
    exact (Except.ok.inj hprevious).symm
  intro previous w₁ hprevious
  apply yields_ofExcept
  intro generation hgeneration
  obtain ⟨hbound, rfl⟩ := checkedAdd_some (okOr_ok hgeneration)
  subst hprevious
  generalize hgen : w.db.checkpointGeneration + 1 = generation at hbound
  -- nothing of what the bank held before is needed
  refine yields_seq (hskip _ w₁) ?_
  intro _ w₂ _
  refine yields_seq (hskip _ w₂) ?_
  intro _ w₃ _
  refine yields_seq (hskip _ w₃) ?_
  intro _ w₄ _
  refine yields_seq (hskip _ w₄) ?_
  intro _ w₅ _
  refine createSnapshot_amid.seq ?_
  intro _ w₆ hcreated
  refine (copyBuckets_amid ha (captured_created (fun _ => []) hcreated.1) (by simpa using List.nodup_range)).seq ?_
  intro _ w₇ hcopied
  obtain ⟨hsteady₇, schains, htaken⟩ := hcopied
  rw [List.nil_append] at htaken
  refine (finish_amid ha hbound htaken (hsteady₇.present.trans hcreated.2)).mono ?_
  intro g w' hg
  obtain ⟨rfl, hcounter, hsaved, -⟩ := hg
  exact ⟨rfl, hcounter, schains, hsaved⟩

/-- What a checkpoint that returned `generation` leaves behind. -/
def Completed (cfg : Config) (previous generation : Nat) (w : Disk) : Prop :=
  generation = previous + 1 ∧ w.db.checkpointGeneration = generation ∧
    ∃ schains, Saved cfg w generation schains

theorem Completed.aside {previous : Nat} (h : Completed cfg previous generation w)
    (haside : Aside cfg (generation % 2) w w₁) : Completed cfg previous generation w₁ := by
  obtain ⟨hgen, hcounter, schains, hsaved⟩ := h
  exact ⟨hgen, haside.rooted.steady.generation.trans hcounter, schains, hsaved.aside haside⟩

/-- A step on the state words or the lock of the handle. -/
theorem aside_handle {d : Db} (hheads : d.headsFile = w.db.headsFile)
    (hgen : d.checkpointGeneration = w.db.checkpointGeneration) : Aside cfg bank w { w with db := d } := by
  refine ⟨rfl, ⟨?_, fun _ _ => ⟨rfl, rfl⟩, rfl, hgen⟩, ?_⟩
  · intro offset _
    exact congrArg (fun f : HeadsFile => f.words offset) hheads
  · intro b
    exact congrArg (fun f => snapshotRoot cfg f bank b) hheads

theorem lockQuiescenceRead_amid (ha : cfg.Accepted) (bank : Nat) :
    (onDb lockQuiescenceRead).Yields (Others cfg) t (fun _ w' => Aside cfg bank w w') w := by
  intro w₁ hR x hf _ _
  obtain ⟨y, hy, rfl⟩ := Option.map_eq_some_iff.mp hf
  by_cases hfree : w₁.db.quiescence.writer = none
  · simp only [hfree, if_true] at hy
    obtain rfl := Option.some.inj hy
    exact (hR.aside ha bank).trans (aside_handle rfl rfl)
  · simp only [hfree, if_false] at hy
    cases hy

theorem unlockQuiescenceRead_amid (ha : cfg.Accepted) (bank : Nat) :
    (onDb unlockQuiescenceRead).Yields (Others cfg) t (fun _ w' => Aside cfg bank w w') w := by
  intro w₁ hR x hf _ _
  obtain ⟨y, hy, rfl⟩ := Option.map_eq_some_iff.mp hf
  obtain rfl := Option.some.inj hy
  exact (hR.aside ha bank).trans (aside_handle rfl rfl)

theorem storeCheckpointState_amid (ha : cfg.Accepted) (bank value : Nat) :
    (storeCheckpointState value).Yields (Others cfg) t (fun _ w' => Aside cfg bank w w') w := by
  apply (wlp_atomic _).mpr
  intro w₁ hR r w' hf _ _
  obtain ⟨-, rfl⟩ := Prod.mk.inj (Option.some.inj hf)
  exact (hR.aside ha bank).trans (aside_handle rfl rfl)

theorem acquireCheckpoint_amid (ha : cfg.Accepted) (bank : Nat) :
    acquireCheckpoint.Yields (Others cfg) t (fun _ w' => Aside cfg bank w w') w := by
  rw [acquireCheckpoint]
  refine Yields.seq (P := fun _ w' => Aside cfg bank w w') ?_ ?_
  · apply (wlp_atomic _).mpr
    intro w₁ hR r w' hf _ _
    have haside := hR.aside ha bank
    by_cases hstate : w₁.db.checkpointState = 0
    · rw [if_pos hstate] at hf
      obtain ⟨-, rfl⟩ := Prod.mk.inj (Option.some.inj hf)
      exact haside.trans (aside_handle rfl rfl)
    · rw [if_neg hstate] at hf
      obtain ⟨-, rfl⟩ := Prod.mk.inj (Option.some.inj hf)
      exact haside
  · intro won w₁ haside
    cases won with
    | false =>
      rw [if_neg (by decide)]
      exact yields_throw _
    | true =>
      rw [if_pos rfl]
      exact yields_pure haside

theorem checkpointChecked_amid (ha : cfg.Accepted) :
    (checkpointChecked cfg m).Yields (Others cfg) t
      (fun generation w' => Completed cfg w.db.checkpointGeneration generation w') w := by
  rw [checkpointChecked]
  refine Yields.seq (P := fun _ w' => w'.db.checkpointGeneration = w.db.checkpointGeneration) ?_ ?_
  · apply (wlp_atomic _).mpr
    intro w₁ hR r w' hf _ _
    obtain ⟨-, rfl⟩ := Prod.mk.inj (Option.some.inj hf)
    exact hR.generation
  intro compaction w₁ hgen₁
  by_cases hactive : compaction ≠ 0
  · rw [if_pos hactive]
    exact yields_throw _
  · rw [if_neg hactive]
    refine Yields.seq (P := fun _ w' => w'.db.checkpointGeneration = w.db.checkpointGeneration) ?_ ?_
    · apply (wlp_atomic _).mpr
      intro w₂ hR r w' hf _ _
      obtain ⟨-, rfl⟩ := Prod.mk.inj (Option.some.inj hf)
      exact hR.generation.trans hgen₁
    intro generation w₂ hgen₂
    apply yields_ofExcept
    intro failed _
    refine yields_attempt (checkpointInner_amid ha) ?_
    intro r w₃ hr
    cases r with
    | error e => exact yields_cleanup _ e
    | ok generation =>
      rw [hgen₂] at hr
      exact yields_pure (hr generation rfl)

theorem checkpoint_amid (ha : cfg.Accepted) :
    (checkpoint cfg m).Yields (Others cfg) t
      (fun generation w' => Completed cfg w.db.checkpointGeneration generation w') w := by
  have hkeep : ∀ {w₁ w₂ : Disk}, Aside cfg 0 w₁ w₂ →
      w₂.db.checkpointGeneration = w₁.db.checkpointGeneration := fun h => h.rooted.steady.generation
  refine yields_guarded (P := fun generation w' => Completed cfg w.db.checkpointGeneration generation w')
    (lockQuiescenceRead_amid ha 0) ?_ ?_
  · intro w₁ haside₁
    refine yields_guarded
      (P := fun generation w' => Completed cfg w.db.checkpointGeneration generation w')
      (acquireCheckpoint_amid ha 0) ?_ ?_
    · intro w₂ haside₂
      rw [← hkeep haside₁, ← hkeep haside₂]
      exact checkpointChecked_amid ha
    · intro generation w₃ hcompleted
      refine (storeCheckpointState_amid ha (generation % 2) 0).mono ?_
      intro _ w₄ haside₄
      exact hcompleted.aside haside₄
  · intro generation w₅ hcompleted
    refine (unlockQuiescenceRead_amid ha (generation % 2)).mono ?_
    intro _ w₆ haside₆
    exact hcompleted.aside haside₆

end Whole

end FlorestaDb
