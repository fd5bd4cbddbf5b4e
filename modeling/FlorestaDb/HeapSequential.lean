import FlorestaDb.Heap

/-! The calls that allocate, read and release nodes with their blobs, each with what it
does to the ownership of the store. -/
namespace FlorestaDb
open Program Program.Prog Allocator

variable {cfg : Config} {v : Env} {t : Tid} {s : Store} {N : Set Nat}
  {bare bareBlobs : Set Allocation} {fuel o : Nat} {x : Allocation}

/-- The allocation an optional blob stands for. -/
def optSet (blob : Option Allocation) : Set Allocation := {x | blob = some x}

@[simp] theorem optSet_none : optSet none = ∅ := by
  ext y
  simp [optSet]

@[simp] theorem optSet_some (x : Allocation) : optSet (some x) = {x} := by
  ext y
  simp only [optSet, Set.mem_ofPred_eq, Option.some.injEq, Set.mem_singleton_iff]
  exact eq_comm

theorem mode_set_or_map (cfg : Config) : cfg.mode = .set ∨ cfg.mode = .map := by
  cases cfg.mode
  · exact Or.inl rfl
  · exact Or.inr rfl

section BlobAccess

theorem loadBytes_spec (n o : Nat) {Q : Except Error (List UInt8) → Store → Prop} :
    (loadBytes n o).wp v t Q s ↔ Q (.ok (slice s.bytes o n)) s := by
  induction n generalizing o Q with
  | zero => exact Iff.rfl
  | succ n ih =>
    rw [loadBytes, wp_bind, wp_step, andThen_ok, wp_bind, ih]
    rfl

theorem storeBytes_spec (input : List UInt8) (o : Nat) {Q : Except Error Unit → Store → Prop} :
    (storeBytes input o).wp v t Q s ↔
      Q (.ok ()) { s with bytes := overwrite s.bytes o input } := by
  induction input generalizing s o with
  | nil =>
    have hself : overwrite s.bytes o [] = s.bytes := by
      funext i
      exact overwrite_outside _ _ (by simp; omega)
    rw [hself]
    exact Iff.rfl
  | cons b rest ih =>
    rw [storeBytes, wp_bind, wp_step, andThen_ok, ih, overwrite_cons]

theorem readBlobBytes_spec (hL : cfg.blobLayout.Ok) (hq : Quiet cfg.blobLayout s.blobs)
    (hx : x ∈ s.blobs.live) {offset length : Nat} (h1 : x.offset ≤ offset)
    (h2 : offset + length ≤ x.offset + x.length)
    {Q : Except Error (List UInt8) → Store → Prop} :
    (readBlobBytes cfg offset length).wp v t Q s ↔ Q (.ok (slice s.bytes offset length)) s := by
  have hr := (live_range hL hq.pages hx h1 h2).1
  rw [readBlobBytes, wp_bind, wp_step, hr, andThen_ok, loadBytes_spec]

theorem writeBlobBytes_spec (hL : cfg.blobLayout.Ok) (hq : Quiet cfg.blobLayout s.blobs)
    (hx : x ∈ s.blobs.live) {relative : Nat} {input : List UInt8}
    (h : relative + input.length ≤ x.length) {Q : Except Error Unit → Store → Prop} :
    (writeBlobBytes x relative input).wp v t Q s ↔
      Q (.ok ()) { s with bytes := overwrite s.bytes (x.offset + relative) input } := by
  have hr := (live_range hL hq.pages hx (Nat.le_add_right x.offset relative)
    (show x.offset + relative + input.length ≤ x.offset + x.length by omega)).2
  have hb : x.offset + relative < u64Bound := by
    obtain ⟨hfit, hlt⟩ := hq.pages.fits x hx
    have h1 := hfit.end_le
    have h2 := pageStart_mono cfg.blobLayout
      (Nat.le_trans (show x.block + 1 ≤ s.blobs.pages from hlt) hq.pages.pages_le)
    have h3 := hL.page_bound (Nat.le_refl cfg.blobLayout.blockCount)
    have h4 : u64Bound = 2 ^ 64 := rfl
    simp only [pageStart] at h1 h2
    omega
  have hw : writeRange s.blobs x relative input.length = .ok () := by
    rw [writeRange, if_neg (by omega), checkedAdd_of_lt hb, okOr_some]
    exact hr
  rw [writeBlobBytes, wp_bind, wp_step, hw, andThen_ok, storeBytes_spec]

/-- Writing header and content into a bare blob. -/
theorem writeFreshBlob_spec (hL : cfg.blobLayout.Ok) (h : Heap cfg s N bare bareBlobs)
    (hx : x ∈ bareBlobs) {value : List UInt8} (hlen : x.length = blobHeaderSize + value.length)
    (hlt : value.length < 2 ^ 32) :
    (writeFreshBlob cfg fuel x (headerOf value) value).wp v t (fun r s' => r = .ok () ∧
      (∃ bytes, s' = { s with bytes := bytes } ∧ BlobAt bytes x.offset value) ∧
      Heap cfg s' N bare bareBlobs ∧ Keeps cfg N s s') s := by
  have h8 : blobHeaderSize = 8 := rfl
  have hh := headerOf_length value
  have hxl : x ∈ s.blobs.live := (h.blob_iff x).mpr (Or.inr hx)
  have hw1 : 0 + (headerOf value).length ≤ x.length := by omega
  have hw2 : blobHeaderSize + value.length ≤ x.length := by omega
  rw [writeFreshBlob, wp_bind, wp_attempt, wp_bind, writeBlobBytes_spec hL h.blobs hxl hw1,
    andThen_ok]
  have hq : Quiet cfg.blobLayout
      { s with bytes := overwrite s.bytes (x.offset + 0) (headerOf value) }.blobs := h.blobs
  refine (writeBlobBytes_spec hL hq hxl hw2).mpr ?_
  simp only [andThen_ok, Nat.add_zero]
  rw [wp_pure]
  have hout : ∀ i, i < x.offset ∨ x.offset + x.length ≤ i →
      overwrite (overwrite s.bytes x.offset (headerOf value)) (x.offset + blobHeaderSize) value i =
        s.bytes i := by
    intro i hi
    rw [overwrite_outside _ _ (by omega), overwrite_outside _ _ (by omega)]
  have hat : BlobAt (overwrite (overwrite s.bytes x.offset (headerOf value))
      (x.offset + blobHeaderSize) value) x.offset value := by
    refine ⟨hlt, ?_, slice_overwrite _ _ _⟩
    rw [slice_congr fun i _ h2 => overwrite_outside _ _ (Or.inl h2), h8, ← hh]
    exact slice_overwrite _ _ _
  obtain ⟨hheap, hkeep⟩ := h.writeBytes hx hout
  exact ⟨rfl, ⟨_, rfl, hat⟩, hheap, hkeep⟩

/-- The value a call stores, as the mode of the database allows it. -/
def ValueFits (cfg : Config) (value : Option (List UInt8)) : Prop :=
  (cfg.mode = .set ∧ value = none) ∨ (cfg.mode = .map ∧ value.isSome = true)

/-- A value word ready for a new node: what it stands for and the blob it uses. -/
structure Encoded (cfg : Config) (s : Store) (value : Option (List UInt8))
    (blob : Option Allocation) (encoded : UInt64) : Prop where
  eq : encodedValue cfg value blob = .ok encoded
  ready : ValueReady cfg s (optSet blob) encoded
  uses : blobSet cfg s encoded = optSet blob
  content : valueAt cfg s encoded = value.getD []

theorem blobSet_inline {encoded : UInt64} (h : isBlob encoded = false) :
    blobSet cfg s encoded = ∅ := by
  ext y
  simp [blobSet, h]

theorem encoded_set (hm : cfg.mode = .set) : Encoded cfg s none none 0 := by
  have h0 : isBlob 0 = false := by decide
  refine ⟨by rw [encodedValue, if_pos hm]; rfl, ⟨fun _ => rfl, ?_, ?_⟩, ?_, ?_⟩
  · intro h
    rw [h0] at h
    cases h
  · rw [blobSet_inline h0]
    exact Set.empty_subset _
  · rw [blobSet_inline h0, optSet_none]
  · rw [valueAt, if_pos hm]
    rfl

theorem encoded_inline (hm : cfg.mode = .map) {value : List UInt8} {word : UInt64}
    (h : inlineValueWord value = some word) : Encoded cfg s (some value) none word := by
  obtain ⟨hb, hbytes⟩ := inlineValueWord_some h
  have hne : ¬cfg.mode = .set := by
    rw [hm]
    decide
  refine ⟨?_, ⟨fun hs => absurd hs hne, ?_, ?_⟩, ?_, ?_⟩
  · rw [encodedValue, if_neg hne, okOr_some]
    simp only [ok_bind, h]
    rfl
  · intro hb'
    rw [hb] at hb'
    cases hb'
  · rw [blobSet_inline hb]
    exact Set.empty_subset _
  · rw [blobSet_inline hb, optSet_none]
  · rw [valueAt, if_neg hne, hb, if_neg (by decide), hbytes]
    rfl

theorem encoded_blob (hm : cfg.mode = .map) {value : List UInt8}
    (hn : inlineValueWord value = none) (hoff : o < 2 ^ 63) (hat : BlobAt s.bytes o value) :
    Encoded cfg s (some value) (some (blobAlloc cfg o value.length))
      (valueBlobTag ||| UInt64.ofNat o) := by
  have hne : ¬cfg.mode = .set := by
    rw [hm]
    decide
  have hb := isBlob_word hoff
  have ho := blobOffset_word hoff
  have hlen := hat.blobLength_eq
  have huses : blobSet cfg s (valueBlobTag ||| UInt64.ofNat o) =
      optSet (some (blobAlloc cfg o value.length)) := by
    ext y
    simp only [blobSet, optSet, hb, ho, hlen, true_and, Set.mem_ofPred_eq, Option.some.injEq]
    exact eq_comm
  have hclear : ¬UInt64.ofNat o &&& ~~~valueOffsetMask ≠ 0 := by
    have hz : (UInt64.ofNat o &&& ~~~valueOffsetMask).toNat = 0 := by
      rw [Word.toNat_and_not_mask _ _ 63 (by decide) rfl, Word.toNat_ofNat_of_lt (by omega)]
      omega
    rw [not_not]
    exact UInt64.toNat_inj.mp hz
  refine ⟨?_, ⟨fun hs => absurd hs hne, ?_, ?_⟩, huses, ?_⟩
  · rw [encodedValue, if_neg hne, okOr_some]
    simp only [ok_bind, hn, okOr_some]
    rw [blobAlloc, if_neg hclear]
    rfl
  · intro _
    rw [ho]
    exact ⟨value, hat⟩
  · rw [huses]
  · rw [valueAt_blob hm hb (by rw [ho]; exact hat)]
    rfl

/-- `allocate_blob` followed by `encoded_value`: the blob is bare until a node takes it. -/
theorem allocateBlob_spec (hr : cfg.Ready) (h : Heap cfg s N bare bareBlobs)
    {value : Option (List UInt8)} (hfit : ValueFits cfg value) (hf : v = .fair → 3 ≤ fuel) :
    (allocateBlob cfg fuel value).wp v t (fun r s' => Keeps cfg N s s' ∧ s'.body = s.body ∧
      s'.slots = s.slots ∧
      ((∃ blob encoded, r = .ok blob ∧ Heap cfg s' N bare (bareBlobs ∪ optSet blob) ∧
          Encoded cfg s' value blob encoded ∧ ∀ x ∈ bareBlobs, x ∉ optSet blob) ∨
        ∃ e, r = .error e ∧ Refusal v e ∧ Heap cfg s' N bare bareBlobs)) s := by
  rcases hfit with ⟨hm, rfl⟩ | ⟨hm, hsome⟩
  · rw [allocateBlob, if_pos hm, wp_pure]
    refine ⟨.refl cfg N s, rfl, rfl, Or.inl ⟨none, 0, rfl, ?_, encoded_set hm, ?_⟩⟩
    · rw [optSet_none, Set.union_empty]
      exact h
    · simp
  · obtain ⟨value, rfl⟩ := Option.isSome_iff_exists.mp hsome
    have hne : ¬cfg.mode = .set := by
      rw [hm]
      decide
    rw [allocateBlob, if_neg hne, okOr_some, wp_bind, wp_ofExcept, andThen_ok]
    cases hin : inlineValueWord value with
    | some word =>
      rw [if_pos Option.isSome_some, wp_pure]
      refine ⟨.refl cfg N s, rfl, rfl, Or.inl ⟨none, word, rfl, ?_, encoded_inline hm hin, ?_⟩⟩
      · rw [optSet_none, Set.union_empty]
        exact h
      · simp
    | none =>
      have hL := hr.blob hm
      have hmin := hL.block_min
      have hpage : formatPageSize = 65536 := rfl
      rw [if_neg (by simp), wp_bind, wp_onBlobs]
      refine wp_mono (allocate_spec hL h.blobs (by decide) (by decide) (by omega) hf) ?_
      rintro r c ⟨hq, ⟨x, rfl, hfresh⟩ | ⟨e, rfl, he, hlive, -⟩⟩
      · obtain ⟨hfits, hblock⟩ := hq.pages.fits x (by rw [hfresh.live]; exact List.mem_cons_self)
        have hoff : x.offset < 2 ^ 63 ∧ value.length < 2 ^ 32 := by
          have h1 := hfits.end_le
          have h2 := hfits.start_le
          have h3 := hL.page_bound
            (Nat.le_trans (show x.block + 1 ≤ c.pages from hblock) hq.pages.pages_le)
          have h4 := hL.block_bound
          have h5 : blobHeaderSize = 8 := rfl
          have h6 := hfresh.length_eq
          have h7 : (x.block + 1) * cfg.blobLayout.blockSize =
              x.block * cfg.blobLayout.blockSize + cfg.blobLayout.blockSize := Nat.succ_mul _ _
          simp only [pageStart] at h1 h2
          omega
        have hx : x = blobAlloc cfg x.offset value.length := by
          obtain ⟨offset, length, block⟩ := x
          simp only [blobAlloc, Allocation.mk.injEq, true_and]
          exact ⟨hfresh.length_eq, block_of_fits hL hfits⟩
        have hheap := h.allocBlob hq hfresh.live
        have hmem : x ∈ insert x bareBlobs := Set.mem_insert x bareBlobs
        rw [andThen_ok, blobHeader, if_pos hoff.2, wp_bind, wp_ofExcept, andThen_ok, wp_bind]
        refine wp_mono (writeFreshBlob_spec hL hheap hmem hfresh.length_eq hoff.2) ?_
        rintro _ s' ⟨rfl, ⟨bytes, rfl, hat⟩, hheap', hkeep⟩
        rw [andThen_ok, wp_pure]
        have henc := encoded_blob (s := { s with blobs := c, bytes := bytes }) hm hin hoff.1 hat
        rw [← hx] at henc
        refine ⟨hkeep, rfl, rfl, Or.inl ⟨some x, _, rfl, ?_, henc, ?_⟩⟩
        · rw [optSet_some, Set.union_singleton]
          exact hheap'
        · intro y hy hyx
          rw [optSet_some, Set.mem_singleton_iff] at hyx
          subst hyx
          exact hq.pages.fresh_not_mem hfresh.live ((h.blob_iff y).mpr (Or.inr hy))
      · rw [andThen_error]
        exact ⟨keeps_cells cfg N s s.body c, rfl, rfl, Or.inr ⟨e, rfl, he.refusal, h.setBlobs hq hlive⟩⟩

end BlobAccess

section BlobRelease
variable {blob : Option Allocation} {c : Cells}

/-- Only a map has live blobs. -/
theorem mode_of_live_blob (hr : cfg.Ready) (hq : Quiet cfg.blobLayout s.blobs)
    (hx : x ∈ s.blobs.live) : cfg.mode = .map := by
  rcases mode_set_or_map cfg with hm | hm
  · have hlt := Nat.lt_of_lt_of_le (hq.pages.fits x hx).2 hq.pages.pages_le
    have hz : cfg.blobLayout.blockCount = 0 := by
      simp [Config.blobLayout, hr.valid.set_blob hm]
    omega
  · exact hm

/-- The live blobs once an optional one was given back. -/
def liveWithout (live : List Allocation) : Option Allocation → List Allocation
  | some x => live.erase x
  | none => live

theorem Heap.releaseOpt (h : Heap cfg s N bare bareBlobs) (hq : Quiet cfg.blobLayout c)
    (hl : c.live = liveWithout s.blobs.live blob) (hsub : optSet blob ⊆ bareBlobs) :
    Heap cfg { s with blobs := c } N bare (bareBlobs \ optSet blob) := by
  cases blob with
  | none =>
    rw [optSet_none, Set.sdiff_empty]
    exact h.setBlobs hq hl
  | some x =>
    rw [optSet_some]
    rw [optSet_some, Set.singleton_subset_iff] at hsub
    exact h.releaseBlob hq hsub hl

theorem releaseIfBlob_spec (hr : cfg.Ready) (hq : Quiet cfg.blobLayout s.blobs)
    (hlive : ∀ x ∈ optSet blob, x ∈ s.blobs.live) (hf : v = .fair → 1 ≤ fuel) :
    (releaseIfBlob cfg fuel blob).wp v t (fun r s' => r = .ok () ∧
      ∃ c, s' = { s with blobs := c } ∧ Quiet cfg.blobLayout c ∧
        c.live = liveWithout s.blobs.live blob) s := by
  cases blob with
  | none => exact ⟨rfl, s.blobs, rfl, hq, rfl⟩
  | some x =>
    have hx : x ∈ s.blobs.live := hlive x rfl
    have hm := mode_of_live_blob hr hq hx
    rw [releaseIfBlob, if_pos hm, wp_onBlobs]
    refine wp_mono (releaseCount_spec (hr.blob hm) hq hx hf) ?_
    rintro r c ⟨rfl, hq', hl, -, -⟩
    exact ⟨rfl, c, rfl, hq', hl⟩

theorem validateIfBlob_spec (hr : cfg.Ready) (hq : Quiet cfg.blobLayout s.blobs)
    (hlive : ∀ x ∈ optSet blob, x ∈ s.blobs.live) (hf : v = .fair → 1 ≤ fuel) :
    (validateIfBlob cfg fuel blob).wp v t (fun r s' => r = .ok () ∧ s' = s) s := by
  cases blob with
  | none => exact ⟨rfl, rfl⟩
  | some x =>
    have hx : x ∈ s.blobs.live := hlive x rfl
    have hm := mode_of_live_blob hr hq hx
    rw [validateIfBlob, if_pos hm, wp_onBlobs]
    refine wp_mono (validateRelease_spec (hr.blob hm) hq hx hf) ?_
    rintro r c ⟨rfl, rfl⟩
    exact ⟨rfl, rfl⟩

theorem releaseBlob_spec (hr : cfg.Ready) (hq : Quiet cfg.blobLayout s.blobs)
    (hx : x ∈ s.blobs.live) (hf : v = .fair → 1 ≤ fuel) :
    (releaseBlob cfg fuel x).wp v t (fun r s' => r = .ok () ∧
      ∃ c, s' = { s with blobs := c } ∧ Quiet cfg.blobLayout c ∧
        c.live = s.blobs.live.erase x) s := by
  have hm := mode_of_live_blob hr hq hx
  rw [releaseBlob, requireBlobs, if_pos hm, wp_bind, wp_ofExcept, andThen_ok, wp_onBlobs]
  refine wp_mono (releaseCount_spec (hr.blob hm) hq hx hf) ?_
  rintro r c ⟨rfl, hq', hl, -, -⟩
  exact ⟨rfl, c, rfl, hq', hl⟩

end BlobRelease

section Nodes

/-- A new node at `o`, in front of everything else that the store holds. -/
structure Placed (s s' : Store) (N : Set Nat) (o : Nat) (key : Key) (value : UInt64) : Prop where
  fresh : o ∉ N
  slot : s'.slots o = ⟨key, value, freshPointer key value⟩
  others : ∀ o', o' ≠ o → s'.slots o' = s.slots o'
  bytes : s'.bytes = s.bytes
  blobs : s'.blobs = s.blobs

/-- A word-aligned piece of a page is a node slot. -/
theorem slot_of_fits (hv : cfg.Valid) (hx : x.Fits cfg.bodyLayout) (hlen : x.length = nodeSize)
    (hal : ∃ k, x.offset = pageStart cfg.bodyLayout x.block + k * nodeAlignment) :
    x = nodeAlloc cfg x.offset ∧ x.offset % nodeAlignment = 0 := by
  have hL := hv.bodyLayout_ok
  refine ⟨?_, ?_⟩
  · have hb := block_of_fits hL hx
    obtain ⟨offset, length, block⟩ := x
    simp only [nodeAlloc, Allocation.mk.injEq, true_and]
    exact ⟨hlen, hb⟩
  · obtain ⟨k, hk⟩ := hal
    obtain ⟨e, he⟩ := hL.block_pow
    have hmin := hL.block_min
    have hpage : formatPageSize = 2 ^ 16 := rfl
    have h16 : 16 ≤ e := by
      rw [he, hpage] at hmin
      exact (Nat.pow_le_pow_iff_right (by decide)).mp hmin
    have hdvd : nodeAlignment ∣ cfg.bodyLayout.blockSize := by
      rw [he, show nodeAlignment = 2 ^ 5 from rfl]
      exact Nat.pow_dvd_pow 2 (by omega)
    apply Nat.mod_eq_zero_of_dvd
    rw [hk, pageStart]
    exact Nat.dvd_add (Nat.dvd_add (by decide) (Nat.dvd_mul_left_of_dvd hdvd _)) (Nat.dvd_mul_left _ _)

/-- A new node slot, whatever else the store holds. -/
theorem allocateNode_placed (hv : cfg.Valid) (hq : Quiet cfg.bodyLayout s.body) (key : Key)
    (value : UInt64) (hf : v = .fair → 3 ≤ fuel) :
    (allocateNode cfg fuel key value).wp v t (fun r s' => Quiet cfg.bodyLayout s'.body ∧
      ((∃ o, r = .ok (nodeAlloc cfg o) ∧ LiveNode cfg s' o ∧
          s' = { s with body := s'.body }.setSlot o
            (fun _ => ⟨key, value, freshPointer key value⟩) ∧
          Fresh cfg.bodyLayout nodeSize nodeAlignment s.body s'.body (nodeAlloc cfg o)) ∨
        ∃ e, r = .error e ∧ Refused cfg.bodyLayout v nodeSize nodeAlignment 1 s.body e ∧
          s' = { s with body := s'.body } ∧ Ungranted s.body s'.body)) s := by
  have hL := hv.bodyLayout_ok
  have hmin := hL.block_min
  have hpage : formatPageSize = 65536 := rfl
  have hnode : nodeAlignment = 32 := rfl
  rw [allocateNode, wp_bind, wp_onBody]
  refine wp_mono (allocate_spec hL hq (by decide) (by decide) (by omega) hf) ?_
  rintro r c ⟨hq', ⟨x, rfl, hfresh⟩ | ⟨e, rfl, he, hnone⟩⟩
  · have hxl : x ∈ c.live := by
      rw [hfresh.live]
      exact List.mem_cons_self
    obtain ⟨hslot, hal⟩ := slot_of_fits hv (hq'.pages.fits x hxl).1 hfresh.length_eq hfresh.aligned
    generalize x.offset = o at hslot hal
    subst hslot
    have hn : LiveNode cfg { s with body := c } o := ⟨hxl, hal⟩
    rw [andThen_ok, wp_bind, wp_attempt]
    refine (writeNode_spec hv hq' hn).mpr ?_
    rw [andThen_ok, wp_pure]
    exact ⟨hq', Or.inl ⟨o, rfl, ⟨hxl, hal⟩, rfl, hfresh⟩⟩
  · rw [andThen_error]
    exact ⟨hq', Or.inr ⟨e, rfl, he, rfl, hnone⟩⟩

theorem writeNode_fresh (hr : cfg.Ready) (h : Heap cfg s N bare bareBlobs)
    (hx : x ∈ bare) {key : Key} {value : UInt64} (hv : ValueReady cfg s bareBlobs value) :
    (writeNode x key value).wp v t (fun r s' => r = .ok () ∧ s'.body = s.body ∧
      Placed s s' N x.offset key value ∧
      Heap cfg s' (insert x.offset N) (bare \ {x}) (bareBlobs \ blobSet cfg s value) ∧
      Keeps cfg N s s') s := by
  obtain ⟨heq, hlive⟩ := h.liveBare hx
  have hfree := h.bare_free x hx
  generalize x.offset = o at heq hlive hfree
  subst heq
  rw [writeNode_spec hr.valid h.body hlive]
  obtain ⟨hheap, hkeep⟩ : _ ∧ Keeps cfg N s
      (s.setSlot o fun _ => ⟨key, value, freshPointer key value⟩) := h.writeEntry hx hv
  exact ⟨rfl, rfl, ⟨hfree, setSlot_slots_self s o _, fun _ h => setSlot_slots_ne s _ h, rfl, rfl⟩,
    hheap, hkeep⟩

theorem allocateNode_spec (hr : cfg.Ready) (h : Heap cfg s N bare bareBlobs) {key : Key}
    {value : UInt64} (hv : ValueReady cfg s bareBlobs value) (hf : v = .fair → 3 ≤ fuel) :
    (allocateNode cfg fuel key value).wp v t (fun r s' => Keeps cfg N s s' ∧
      ((∃ o, r = .ok (nodeAlloc cfg o) ∧ Placed s s' N o key value ∧
          Heap cfg s' (insert o N) bare (bareBlobs \ blobSet cfg s value) ∧
          Fresh cfg.bodyLayout nodeSize nodeAlignment s.body s'.body (nodeAlloc cfg o)) ∨
        ∃ e, r = .error e ∧ Refused cfg.bodyLayout v nodeSize nodeAlignment 1 s.body e ∧
          Heap cfg s' N bare bareBlobs ∧ s'.bytes = s.bytes ∧ s'.slots = s.slots ∧
          s'.blobs = s.blobs ∧ s'.body.live = s.body.live)) s := by
  have hL := hr.valid.bodyLayout_ok
  have hmin := hL.block_min
  have hpage : formatPageSize = 65536 := rfl
  have hnode : nodeAlignment = 32 := rfl
  rw [allocateNode, wp_bind, wp_onBody]
  refine wp_mono (allocate_spec hL h.body (by decide) (by decide) (by omega) hf) ?_
  rintro r c ⟨hq, ⟨x, rfl, hfresh⟩ | ⟨e, rfl, he, hlive, -⟩⟩
  · have hfits := (hq.pages.fits x (by rw [hfresh.live]; exact List.mem_cons_self)).1
    have hslot := slot_of_fits hr.valid hfits hfresh.length_eq hfresh.aligned
    have hheap : Heap cfg { s with body := c } N (insert x bare) bareBlobs := by
      have hxs := h.allocBody hq (show c.live = [x] ++ s.body.live from hfresh.live)
        (by simpa using hslot)
      have hins : bare ∪ {y | y ∈ [x]} = insert x bare := by
        ext y
        simp [or_comm]
      rwa [hins] at hxs
    have hnew : insert x bare \ {x} = bare := by
      refine Set.insert_sdiff_self_of_notMem ?_
      exact fun hx => hq.pages.fresh_not_mem hfresh.live ((h.live_iff x).mpr (Or.inr hx))
    rw [andThen_ok, wp_bind, wp_attempt]
    refine wp_mono (writeNode_fresh hr hheap (Set.mem_insert x bare) ⟨hv.set_value, hv.blob, hv.bare⟩)
      ?_
    rintro r s' ⟨rfl, hbody, hplaced, hheap', hkeep⟩
    rw [andThen_ok]
    rw [hnew] at hheap'
    refine ⟨hkeep, Or.inl ⟨x.offset, by rw [← hslot.1], ?_, hheap', ?_⟩⟩
    · exact ⟨hplaced.fresh, hplaced.slot, hplaced.others, hplaced.bytes, hplaced.blobs⟩
    · rw [← hslot.1, hbody]
      exact hfresh
  · rw [andThen_error]
    exact ⟨keeps_cells cfg N s c s.blobs, Or.inr ⟨e, rfl, he, h.setBody hq hlive, rfl, rfl, rfl,
      hlive⟩⟩

/-- A private node: it holds the entry, ends no chain yet, and its blob is known. -/
structure PrivateNode (cfg : Config) (s : Store) (o : Nat) (key : Key)
    (value : Option (List UInt8)) (blob : Option Allocation) : Prop where
  entry : entryAt cfg s o = (key, value.getD [])
  next : (s.slots o).next = 0
  blob : blobSet cfg s (s.slots o).value = optSet blob

theorem Placed.privateNode {s₁ s' : Store} {key : Key} {value : Option (List UInt8)}
    {blob : Option Allocation} {encoded : UInt64} (h : Placed s₁ s' N o key encoded)
    (henc : Encoded cfg s₁ value blob encoded) : PrivateNode cfg s' o key value blob := by
  refine ⟨?_, ?_, ?_⟩
  · rw [entryAt, h.slot, ← henc.content]
    simp only [valueAt, h.bytes]
  · rw [h.slot]
    exact fresh_next
  · rw [h.slot, ← henc.uses]
    simp only [blobSet, h.bytes]

theorem union_optSet_diff {blob : Option Allocation} (h : ∀ x ∈ bareBlobs, x ∉ optSet blob) :
    (bareBlobs ∪ optSet blob) \ optSet blob = bareBlobs := by
  ext y
  simp only [Set.mem_sdiff, Set.mem_union]
  constructor
  · rintro ⟨hy | hy, hn⟩
    · exact hy
    · exact absurd hy hn
  · intro hy
    exact ⟨Or.inl hy, h y hy⟩

theorem ValueReady.mono {value : UInt64} {B : Set Allocation} (h : ValueReady cfg s B value)
    (hB : B ⊆ bareBlobs) : ValueReady cfg s bareBlobs value :=
  ⟨h.set_value, h.blob, fun _ hx => hB (h.bare hx)⟩

theorem allocatePrivate_spec (hr : cfg.Ready) (h : Heap cfg s N bare bareBlobs) {key : Key}
    {value : Option (List UInt8)} (hfit : ValueFits cfg value) (hf : v = .fair → 3 ≤ fuel) :
    (allocatePrivate cfg fuel key value).wp v t (fun r s' => Keeps cfg N s s' ∧
      ((∃ o blob, r = .ok (nodeAlloc cfg o, blob) ∧ o ∉ N ∧
          PrivateNode cfg s' o key value blob ∧ Heap cfg s' (insert o N) bare bareBlobs) ∨
        ∃ e, r = .error e ∧ Refusal v e ∧ Heap cfg s' N bare bareBlobs)) s := by
  rw [allocatePrivate, wp_bind]
  refine wp_mono (allocateBlob_spec hr h hfit hf) ?_
  rintro r s₁ ⟨hkeep, -, -, ⟨blob, encoded, rfl, hheap, henc, hdis⟩ | ⟨e, rfl, he, hheap⟩⟩
  · rw [andThen_ok, henc.eq, wp_bind, wp_ofExcept, andThen_ok, wp_bind, wp_attempt]
    refine wp_mono (allocateNode_spec hr hheap
      (henc.ready.mono Set.subset_union_right) hf) ?_
    rintro r s₂ ⟨hkeep₂, ⟨o, rfl, hplaced, hheap₂, -⟩ | ⟨e, rfl, he, hheap₂, -, -, -, -⟩⟩
    · rw [henc.uses, union_optSet_diff hdis] at hheap₂
      rw [andThen_ok, wp_pure]
      exact ⟨hkeep.trans hkeep₂,
        Or.inl ⟨o, blob, rfl, hplaced.fresh, hplaced.privateNode henc, hheap₂⟩⟩
    · rw [andThen_ok]
      cases blob with
      | none =>
        rw [optSet_none, Set.union_empty] at hheap₂
        exact ⟨hkeep.trans hkeep₂, Or.inr ⟨e, rfl, he.refusal, hheap₂⟩⟩
      | some x =>
        have hx : x ∈ s₂.blobs.live := (hheap₂.blob_iff x).mpr (Or.inr (Or.inr rfl))
        rw [wp_bind, wp_attempt]
        refine wp_mono (releaseBlob_spec hr hheap₂.blobs hx fun hv => by have := hf hv; omega) ?_
        rintro _ s₃ ⟨rfl, c, rfl, hq, hl⟩
        have hheap₃ := hheap₂.releaseOpt hq
          (show c.live = liveWithout s₂.blobs.live (some x) from hl) Set.subset_union_right
        rw [union_optSet_diff hdis] at hheap₃
        exact ⟨(hkeep.trans hkeep₂).trans (keeps_cells cfg N s₂ s₂.body c),
          Or.inr ⟨e, rfl, he.refusal, hheap₃⟩⟩
  · rw [andThen_error]
    exact ⟨hkeep, Or.inr ⟨e, rfl, he, hheap⟩⟩

/-- A readable blob: allocated at its full length, header and content in place. -/
structure LiveBlob (cfg : Config) (s : Store) (o : Nat) (bytes : List UInt8) : Prop where
  live : blobAlloc cfg o bytes.length ∈ s.blobs.live
  at_bytes : BlobAt s.bytes o bytes

theorem Heap.liveBlob (h : Heap cfg s N bare bareBlobs) (ho : o ∈ N)
    (hb : isBlob (s.slots o).value = true) :
    ∃ bytes, LiveBlob cfg s (blobOffset (s.slots o).value) bytes := by
  obtain ⟨bytes, hat⟩ := (h.entry o ho).blob hb
  have hlive := h.blob_live ho hb
  rw [blobOf, hat.blobLength_eq] at hlive
  exact ⟨bytes, hlive, hat⟩

section LiveBlob
variable {bytes : List UInt8}

theorem LiveBlob.fits (hr : cfg.Ready) (hq : Quiet cfg.blobLayout s.blobs)
    (h : LiveBlob cfg s o bytes) :
    allocationFor cfg.blobLayout o (blobHeaderSize + bytes.length) =
      .ok (blobAlloc cfg o bytes.length) ∧
    blobHeaderSize + bytes.length < 2 ^ 32 ∧ o + blobHeaderSize < u64Bound := by
  have hL := hr.blob (mode_of_live_blob hr hq h.live)
  obtain ⟨hfits, hblock⟩ := hq.pages.fits _ h.live
  have hcount := Nat.lt_of_lt_of_le hblock hq.pages.pages_le
  refine ⟨allocationFor_fits hL hfits hcount, ?_⟩
  have h1 : o + (blobHeaderSize + bytes.length) ≤ _ := hfits.end_le
  have h2 : _ ≤ o := hfits.start_le
  have h3 := hL.block_bound
  have h4 := hL.page_bound (Nat.succ_le_of_lt hcount)
  have h5 : ((blobAlloc cfg o bytes.length).block + 1) * cfg.blobLayout.blockSize = _ :=
    Nat.succ_mul _ _
  have h6 : u64Bound = 2 ^ 64 := rfl
  simp only [pageStart] at h1 h2
  simp only [Nat.succ_eq_add_one] at h4
  omega

theorem readHeader_spec (hr : cfg.Ready) (hq : Quiet cfg.blobLayout s.blobs)
    (h : LiveBlob cfg s o bytes) {Q : Except Error (List UInt8) → Store → Prop} :
    (readBlobBytes cfg o blobHeaderSize).wp v t Q s ↔ Q (.ok (headerOf bytes)) s := by
  have hL := hr.blob (mode_of_live_blob hr hq h.live)
  have hle : o + blobHeaderSize ≤ (blobAlloc cfg o bytes.length).offset +
      (blobAlloc cfg o bytes.length).length := Nat.add_le_add_left (Nat.le_add_right _ _) o
  rw [readBlobBytes_spec hL hq h.live (Nat.le_refl o) hle, h.at_bytes.header]

theorem readBlob_live (hr : cfg.Ready) (hq : Quiet cfg.blobLayout s.blobs)
    (h : LiveBlob cfg s o bytes) {Q : Except Error (List UInt8) → Store → Prop} :
    (readBlob cfg o).wp v t Q s ↔ Q (.ok bytes) s := by
  have hm := mode_of_live_blob hr hq h.live
  obtain ⟨-, -, hlt⟩ := h.fits hr hq
  have hlo : (blobAlloc cfg o bytes.length).offset ≤ o + blobHeaderSize := Nat.le_add_right _ _
  have hhi : o + blobHeaderSize + bytes.length ≤ (blobAlloc cfg o bytes.length).offset +
      (blobAlloc cfg o bytes.length).length := Nat.le_of_eq (Nat.add_assoc _ _ _)
  rw [readBlob, requireBlobs, if_pos hm, wp_bind, wp_ofExcept, andThen_ok, wp_bind,
    readHeader_spec hr hq h, andThen_ok, decodeBlobHeader_headerOf h.at_bytes.length_lt,
    checkedAdd_of_lt hlt, okOr_some, wp_bind, wp_ofExcept, andThen_ok, wp_bind,
    readBlobBytes_spec (hr.blob hm) hq h.live hlo hhi, andThen_ok, h.at_bytes.content,
    if_neg (not_not.mpr rfl), wp_pure]

end LiveBlob

theorem blobAllocation_spec (hr : cfg.Ready) (h : Heap cfg s N bare bareBlobs) (ho : o ∈ N) :
    (blobAllocation cfg (s.slots o).value).wp v t (fun r s' => s' = s ∧
      ∃ blob, r = .ok blob ∧ optSet blob = blobSet cfg s (s.slots o).value) s := by
  cases hb : isBlob (s.slots o).value with
  | false =>
    have hset : ¬(cfg.mode = .set ∧ (s.slots o).value ≠ 0) := by
      rintro ⟨hm, hne⟩
      exact hne ((h.entry o ho).set_value hm)
    rw [blobAllocation, if_pos (by simp [hb]), if_neg hset, wp_pure]
    exact ⟨rfl, none, rfl, by rw [optSet_none, blobSet_inline hb]⟩
  | true =>
    obtain ⟨bytes, hblob⟩ := h.liveBlob ho hb
    have hm := mode_of_live_blob hr h.blobs hblob.live
    obtain ⟨hfor, hsmall, -⟩ := hblob.fits hr h.blobs
    rw [blobAllocation, if_neg (by simp [hb]), if_neg (not_not.mpr hm), wp_bind,
      readHeader_spec hr h.blobs hblob, andThen_ok,
      decodeBlobHeader_headerOf hblob.at_bytes.length_lt]
    have hsmall' : ¬blobHeaderSize + bytes.length ≥ 2 ^ 32 := Nat.not_le.mpr hsmall
    dsimp only
    rw [if_neg hsmall', wp_bind, hfor, wp_ofExcept, andThen_ok, wp_pure]
    refine ⟨rfl, _, rfl, ?_⟩
    rw [optSet_some]
    ext y
    simp [blobSet, hb, hblob.at_bytes.blobLength_eq]

theorem blobSet_live (h : Heap cfg s N bare bareBlobs) (ho : o ∈ N) :
    ∀ x ∈ blobSet cfg s (s.slots o).value, x ∈ s.blobs.live := by
  rintro x ⟨hb, rfl⟩
  exact h.blob_live ho hb

theorem nodeAllocations_spec (hr : cfg.Ready) (h : Heap cfg s N bare bareBlobs) (ho : o ∈ N)
    (hf : v = .fair → 1 ≤ fuel) :
    (nodeAllocations cfg fuel o (s.slots o).value).wp v t (fun r s' => s' = s ∧
      ∃ blob, r = .ok (nodeAlloc cfg o, blob) ∧
        optSet blob = blobSet cfg s (s.slots o).value) s := by
  have hL := hr.valid.bodyLayout_ok
  have hlive := (h.liveNode ho).live
  obtain ⟨hfits, hblock⟩ := h.body.pages.fits _ hlive
  have hfor : allocationFor cfg.bodyLayout o nodeSize = .ok (nodeAlloc cfg o) :=
    allocationFor_fits hL hfits (Nat.lt_of_lt_of_le hblock h.body.pages.pages_le)
  rw [nodeAllocations, wp_bind]
  refine wp_mono (blobAllocation_spec hr h ho) ?_
  rintro _ _ ⟨rfl, blob, rfl, hset⟩
  rw [andThen_ok, hfor, wp_bind, wp_ofExcept, andThen_ok, wp_bind, wp_onBody]
  refine wp_mono (validateRelease_spec hL h.body hlive hf) ?_
  rintro _ _ ⟨rfl, rfl⟩
  rw [andThen_ok, wp_bind]
  refine wp_mono (validateIfBlob_spec hr h.blobs ?_ hf) ?_
  · rw [hset]
    exact blobSet_live h ho
  · rintro _ _ ⟨rfl, rfl⟩
    rw [andThen_ok, wp_pure]
    exact ⟨rfl, blob, rfl, hset⟩

theorem readBlob_spec (hr : cfg.Ready) (h : Heap cfg s N bare bareBlobs) (ho : o ∈ N)
    (hb : isBlob (s.slots o).value = true) {Q : Except Error (List UInt8) → Store → Prop} :
    (readBlob cfg (blobOffset (s.slots o).value)).wp v t Q s ↔
      Q (.ok (entryAt cfg s o).2) s := by
  obtain ⟨bytes, hblob⟩ := h.liveBlob ho hb
  have hm := mode_of_live_blob hr h.blobs hblob.live
  have hval : (entryAt cfg s o).2 = bytes := valueAt_blob hm hb hblob.at_bytes
  rw [readBlob_live hr h.blobs hblob, hval]

theorem entryAt_inline (hm : cfg.mode = .map) (hb : isBlob (s.slots o).value = false) :
    (entryAt cfg s o).2 = inlineValueBytes (s.slots o).value := by
  simp [entryAt, valueAt, hm, hb]

theorem readValue_spec (hr : cfg.Ready) (h : Heap cfg s N bare bareBlobs) (ho : o ∈ N)
    (hm : cfg.mode = .map) {Q : Except Error (List UInt8) → Store → Prop} :
    (readValue cfg (s.slots o).value).wp v t Q s ↔ Q (.ok (entryAt cfg s o).2) s := by
  rw [readValue]
  cases hb : isBlob (s.slots o).value with
  | true => rw [if_pos rfl, readBlob_spec hr h ho hb]
  | false => rw [if_neg (by decide), wp_pure, entryAt_inline hm hb]

/-- The node at `o` is gone: tombstoned, its blob and its slot given back. -/
def Dropped (cfg : Config) (s s' : Store) (N : Set Nat) (bare bareBlobs : Set Allocation)
    (o : Nat) : Prop :=
  Heap cfg s' (N \ {o}) bare bareBlobs ∧ Keeps cfg (N \ {o}) s s'

/-- A tombstoned node whose blob and slot are given back, in whatever order. -/
theorem Heap.drop (h : Heap cfg s N bare bareBlobs) (ho : o ∈ N) {blob : Option Allocation}
    (hset : optSet blob = blobSet cfg s (s.slots o).value) {c d : Cells}
    (hq : Quiet cfg.bodyLayout c) (hl : c.live = s.body.live.erase (nodeAlloc cfg o))
    (hq' : Quiet cfg.blobLayout d) (hl' : d.live = liveWithout s.blobs.live blob) :
    Dropped cfg s { (s.setSlot o fun slot => { slot with pointer := 0 }) with
      body := c, blobs := d } N bare bareBlobs o := by
  obtain ⟨htomb, hkeep⟩ := h.tombstone ho
  rw [← hset] at htomb
  have hfreed := htomb.releaseOpt hq' hl' Set.subset_union_right
  have hdis : ∀ x ∈ bareBlobs, x ∉ optSet blob := by
    intro x hx hmem
    rw [hset] at hmem
    exact h.blob_free x hx o ho hmem.1 hmem.2
  rw [union_optSet_diff hdis] at hfreed
  have hzero : ((s.setSlot o fun slot => { slot with pointer := 0 }).slots o).checksum = 0 := by
    rw [setSlot_slots_self]
    exact tombstone_checksum _
  have hgone := hfreed.releaseBody hq (Set.mem_insert _ _) hzero hl
  have hnew : nodeAlloc cfg o ∉ bare := fun hx => h.bare_free _ hx ho
  rw [Set.insert_sdiff_self_of_notMem hnew] at hgone
  exact ⟨hgone, hkeep.trans (keeps_cells cfg _ _ c d)⟩

theorem releasePrivate_spec (hr : cfg.Ready) (h : Heap cfg s N bare bareBlobs) (ho : o ∈ N)
    {blob : Option Allocation} (hset : optSet blob = blobSet cfg s (s.slots o).value)
    (hf : v = .fair → 1 ≤ fuel) :
    (releasePrivate cfg fuel (nodeAlloc cfg o) blob).wp v t
      (fun r s' => r = .ok () ∧ Dropped cfg s s' N bare bareBlobs o) s := by
  have hL := hr.valid.bodyLayout_ok
  have hn := h.liveNode ho
  have hlive : ∀ x ∈ optSet blob, x ∈ s.blobs.live := by
    rw [hset]
    exact blobSet_live h ho
  rw [releasePrivate, wp_bind, wp_onBody]
  refine wp_mono (validateRelease_spec hL h.body hn.live hf) ?_
  rintro _ _ ⟨rfl, rfl⟩
  rw [andThen_ok, wp_bind]
  refine wp_mono (validateIfBlob_spec hr h.blobs hlive hf) ?_
  rintro _ _ ⟨rfl, rfl⟩
  rw [andThen_ok, wp_bind]
  refine wp_mono (releaseIfBlob_spec hr h.blobs hlive hf) ?_
  rintro _ _ ⟨rfl, d, rfl, hq', hl'⟩
  rw [andThen_ok, wp_bind]
  have hn' : LiveNode cfg { s with blobs := d } o := ⟨hn.live, hn.aligned⟩
  refine (tombstoneNode_spec hr.valid (show Quiet cfg.bodyLayout { s with blobs := d }.body from
    h.body) hn').mpr ?_
  rw [andThen_ok, wp_onBody]
  refine wp_mono (releaseCount_spec hL h.body hn.live hf) ?_
  rintro _ c ⟨rfl, hq, hl, -, -⟩
  exact ⟨rfl, h.drop ho hset hq hl hq' hl'⟩

end Nodes

end FlorestaDb
