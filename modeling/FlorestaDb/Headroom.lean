import FlorestaDb.HeadsFormat
import FlorestaDb.Ownership

/-! `ensure_runtime_body_headroom`: a closed database is given a larger body capacity by
rewriting its header in place. -/
namespace FlorestaDb
open Program Program.Prog Allocator

/-- `read_high_water` on the closed count file. -/
def readHighWater (c : Cells) : Except Error Nat := closedBlockValue c

def divCeil (a b : Nat) : Nat := (a + (b - 1)) / b

/-- The capacity the body needs for the headroom, if it is larger than the present one. -/
def headroomCapacity (dir : Directory) (headroom : Nat) : Except Error (Option Nat) := do
  validateMappingLength dir.headsLength
  let cfg ← readConfig dir.headsFile
  if headroom = 0 then .error (.invalidConfig "runtime body headroom must be nonzero")
  else
    let required ← okOr (checkedMul (divCeil headroom cfg.blockSize) cfg.blockSize)
      (.invalidConfig "runtime body headroom overflow")
    let nextBlock ← readHighWater dir.store.body
    if nextBlock > cfg.bodyCapacity / cfg.blockSize then
      .error (.corrupt "body allocator high-water mark is out of range")
    else
      let used ← okOr (checkedMul nextBlock cfg.blockSize)
        (.corrupt "body allocator used capacity overflow")
      let remaining ← okOr (checkedSub cfg.bodyCapacity used)
        (.corrupt "body allocator remaining capacity overflow")
      if remaining ≥ required then .ok none
      else
        let capacity ← okOr (checkedAdd used required)
          (.invalidConfig "runtime body capacity overflow")
        .ok (some capacity)

/-- The words of the header page. -/
def pageWords : Nat := 8192

/-- The header page with another body capacity and the checksum that goes with it. -/
def grownHeader (f : HeadsFile) (capacity : Nat) : List UInt64 :=
  let header := ((List.range pageWords).map fun i => f.words (i * 8)).set 5 (UInt64.ofNat capacity)
  header.set 12 (headerChecksum (header.take 12))

/-- The heads file once the new header page is copied in. -/
@[irreducible] def grownFile (f : HeadsFile) (capacity : Nat) : HeadsFile :=
  f.writeWords 0 (grownHeader f capacity)

/- `Database::ensure_runtime_body_headroom`. The page is written into the mapped file before
   it is flushed; `flushed` is what the operating system makes of the flush. -/
def ensureRuntimeBodyHeadroom (dir : Directory) (headroom : Nat) (flushed : Bool) :
    Except Error Bool × Directory :=
  match headroomCapacity dir headroom with
  | .error e => (.error e, dir)
  | .ok none => (.ok false, dir)
  | .ok (some capacity) =>
    let f := grownFile dir.headsFile capacity
    if flushed then (.ok true, { dir with headsFile := f.sync })
    else (.error .io, { dir with headsFile := f })

variable {cfg cfg' : Config} {d d' : Db} {dir : Directory} {chains : Nat → List Nat}
  {h capacity : Nat} {flushed : Bool}

/-- The bytes of the body below the high-water mark. -/
def Directory.used (cfg : Config) (dir : Directory) : Nat :=
  dir.store.body.highWater * cfg.blockSize

/-- The headroom in whole pages. -/
def required (cfg : Config) (h : Nat) : Nat := divCeil h cfg.blockSize * cfg.blockSize

/-- A directory that a clean `close` left. -/
structure Directory.Clean (cfg : Config) (dir : Directory) : Prop where
  accepted : cfg.Accepted
  mapping : validateMappingLength dir.headsLength = .ok ()
  length : FlorestaDb.headsLength cfg.bucketCount = .ok dir.headsLength
  config : readConfig dir.headsFile = .ok cfg
  body : Quiet cfg.bodyLayout dir.store.body
  blobs : Quiet cfg.blobLayout dir.store.blobs
  body_closed : dir.store.body.currentBlock = 0
  blobs_closed : dir.store.blobs.currentBlock = 0

theorem Closed.clean (ha : cfg.Accepted) (hc : Closed cfg d chains) : (d.directory cfg).Clean cfg := by
  obtain ⟨n, hlength, hmapping⟩ := ha.heads
  have hn : (d.directory cfg).headsLength = n := by
    rw [Db.directory, hlength]
    rfl
  rw [← hn] at hlength hmapping
  exact ⟨ha, hmapping, hlength, hc.config, hc.owned.heap.body, hc.owned.heap.blobs, hc.body, hc.blobs⟩

theorem Directory.Clean.used_le (hd : dir.Clean cfg) : dir.used cfg ≤ cfg.bodyCapacity := by
  have hle := hd.body.pages.pages_le
  rw [hd.body.pages_eq] at hle
  have hcap := hd.accepted.ready.valid.bodyLayout_ok.capacity_eq
  have hmul : dir.store.body.highWater * cfg.blockSize ≤
      cfg.bodyLayout.blockCount * cfg.bodyLayout.blockSize := Nat.mul_le_mul_right _ hle
  rw [← hcap] at hmul
  exact hmul

theorem le_required (cfg : Config) (hv : cfg.Valid) (h : Nat) : h ≤ required cfg h := by
  have hpos : 0 < cfg.blockSize := Nat.lt_of_lt_of_le (by decide) hv.block_min
  have hdiv := Nat.div_add_mod (h + (cfg.blockSize - 1)) cfg.blockSize
  have hmod := Nat.mod_lt (h + (cfg.blockSize - 1)) hpos
  rw [required, divCeil, Nat.mul_comm]
  omega

/-- What a clean directory is told: a rejection, room enough, or the new capacity. -/
theorem headroomCapacity_eq (hd : dir.Clean cfg) (h : Nat) :
    headroomCapacity dir h =
      if h = 0 then .error (.invalidConfig "runtime body headroom must be nonzero")
      else if u64Bound ≤ required cfg h then .error (.invalidConfig "runtime body headroom overflow")
      else if required cfg h ≤ cfg.bodyCapacity - dir.used cfg then .ok none
      else if u64Bound ≤ dir.used cfg + required cfg h then
        .error (.invalidConfig "runtime body capacity overflow")
      else .ok (some (dir.used cfg + required cfg h)) := by
  have hv := hd.accepted.ready.valid
  have hused := hd.used_le
  have hbound := hv.body_bound
  have hmask : nodePointerMask.toNat - dataStart < u64Bound := by decide
  have hpages := hd.body.pages.pages_le
  rw [hd.body.pages_eq] at hpages
  have hnext : readHighWater dir.store.body = .ok dir.store.body.highWater :=
    if_neg (Nat.not_le.mpr hd.body.settled)
  have hblocks : ¬dir.store.body.highWater > cfg.bodyCapacity / cfg.blockSize :=
    Nat.not_lt.mpr hpages
  rw [headroomCapacity, hd.mapping, ok_bind, hd.config, ok_bind]
  by_cases hzero : h = 0
  · rw [if_pos hzero, if_pos hzero]
  rw [if_neg hzero, if_neg hzero]
  by_cases hover : u64Bound ≤ required cfg h
  · have hnone : checkedMul (divCeil h cfg.blockSize) cfg.blockSize = none :=
      if_neg (Nat.not_lt.mpr hover)
    rw [if_pos hover, hnone]
    rfl
  have hmul : checkedMul (divCeil h cfg.blockSize) cfg.blockSize = some (required cfg h) :=
    checkedMul_of_lt (Nat.not_le.mp hover)
  have husedmul : checkedMul dir.store.body.highWater cfg.blockSize = some (dir.used cfg) := by
    apply checkedMul_of_lt
    rw [Directory.used] at hused
    omega
  rw [if_neg hover, hmul, okOr_some, ok_bind, hnext, ok_bind, if_neg hblocks, husedmul, okOr_some,
    ok_bind, checkedSub_of_le hused, okOr_some, ok_bind]
  by_cases hroom : required cfg h ≤ cfg.bodyCapacity - dir.used cfg
  · rw [if_pos hroom, if_pos hroom]
  rw [if_neg hroom, if_neg hroom]
  by_cases hsum : u64Bound ≤ dir.used cfg + required cfg h
  · have hnone : checkedAdd (dir.used cfg) (required cfg h) = none := if_neg (Nat.not_lt.mpr hsum)
    rw [if_pos hsum, hnone]
    rfl
  · rw [if_neg hsum, checkedAdd_of_lt (Nat.not_le.mp hsum), okOr_some, ok_bind]

section Header
variable {f : HeadsFile}

/-- The configuration with another body capacity. -/
def Config.withBody (cfg : Config) (capacity : Nat) : Config := { cfg with bodyCapacity := capacity }

theorem grownHeader_eq (f : HeadsFile) (capacity : Nat) :
    grownHeader f capacity = (((List.range pageWords).map fun i => f.words (i * 8)).set 5
      (UInt64.ofNat capacity)).set 12 (headerChecksum (f.header.set 5 (UInt64.ofNat capacity))) := by
  have hheader : ((List.range pageWords).map fun i => f.words (i * 8)).take 12 = f.header := by
    rw [← List.map_take, List.take_range]
    rfl
  rw [grownHeader, List.take_set, hheader]

theorem grownHeader_length (f : HeadsFile) (capacity : Nat) :
    (grownHeader f capacity).length = pageWords := by
  rw [grownHeader, List.length_set, List.length_set, List.length_map, List.length_range]

theorem getElem?_set_set (g : Nat → UInt64) (x y : UInt64) {n i : Nat} (hn : 12 < n) (hi : i < n) :
    ((((List.range n).map g).set 5 x).set 12 y)[i]? =
      some (if i = 12 then y else if i = 5 then x else g i) := by
  by_cases h12 : i = 12
  · subst h12
    simp [hn]
  · by_cases h5 : i = 5
    · subst h5
      simp [hi]
    · simp [h12, h5, Ne.symm h12, Ne.symm h5, hi]

theorem grownFile_eq (f : HeadsFile) (capacity : Nat) :
    grownFile f capacity = f.writeWords 0 (grownHeader f capacity) := by
  unfold grownFile
  rfl

/-- The words of the page after the rewrite. -/
theorem grown_word (f : HeadsFile) (capacity : Nat) {i : Nat} (hi : i < pageWords) :
    (grownFile f capacity).words (i * 8) =
      if i = 12 then headerChecksum (f.header.set 5 (UInt64.ofNat capacity))
      else if i = 5 then UInt64.ofNat capacity else f.words (i * 8) := by
  rw [grownFile_eq]
  have hlen : i < (grownHeader f capacity).length := by
    rw [grownHeader_length]
    exact hi
  have hget := @writeWords_get f (grownHeader f capacity) 0 i hlen
  have hset := getElem?_set_set (fun i => f.words (i * 8)) (UInt64.ofNat capacity)
    (headerChecksum (f.header.set 5 (UInt64.ofNat capacity))) (n := pageWords) (by decide) hi
  rw [← grownHeader_eq f capacity, List.getElem?_eq_getElem hlen] at hset
  rw [Nat.zero_add, Option.some.inj hset] at hget
  exact hget

/-- Every other word of the file is what it was: the manifests, the heads and the roots. -/
theorem grown_other (f : HeadsFile) (capacity : Nat) {o : Nat} (h40 : o ≠ 40) (h96 : o ≠ 96) :
    (grownFile f capacity).words o = f.words o := by
  by_cases hpage : ∃ i < pageWords, o = i * 8
  · obtain ⟨i, hi, rfl⟩ := hpage
    rw [grown_word f capacity hi, if_neg (by omega), if_neg (by omega)]
  · rw [grownFile_eq]
    apply writeWords_other
    intro i hi heq
    rw [grownHeader_length] at hi
    exact hpage ⟨i, hi, by omega⟩

theorem grown_manifests (f : HeadsFile) (capacity : Nat) :
    readManifests (grownFile f capacity).sync = readManifests f := by
  have hkept : ∀ bank, readManifest (grownFile f capacity).sync bank = readManifest f bank := by
    intro bank
    apply Mapped.readManifest_words
    intro i hi
    have h96 : headerChecksumOffset = 96 := rfl
    exact grown_other f capacity (by omega) (by omega)
  simp only [readManifests, hkept]

theorem grown_header (f : HeadsFile) (capacity : Nat) :
    (grownFile f capacity).header = f.header.set 5 (UInt64.ofNat capacity) := by
  apply List.ext_getElem
  · simp [HeadsFile.header]
  · intro i hi hi'
    have hlt : i < 12 := by simpa [HeadsFile.header] using hi
    simp only [HeadsFile.header, List.getElem_map, List.getElem_range, List.getElem_set]
    rw [grown_word f capacity (Nat.lt_trans hlt (by decide)), if_neg (by omega)]
    by_cases h5 : i = 5
    · simp [h5]
    · simp [h5, Ne.symm h5]

/-- The rewritten header is read back, if the larger capacity is one that is accepted. -/
theorem readConfig_grown {f : HeadsFile} (h : readConfig f = .ok cfg)
    (hvalid : (cfg.withBody capacity).validate = .ok ()) (hlt : capacity < 2 ^ 64) :
    readConfig (grownFile f capacity) = .ok (cfg.withBody capacity) := by
  have hword : ∀ i < 12, i ≠ 5 → (grownFile f capacity).words (i * 8) = f.words (i * 8) := by
    intro i hi hne
    rw [grown_word f capacity (Nat.lt_trans hi (by decide)), if_neg (by omega), if_neg hne]
  have h40 : ((grownFile f capacity).words 40).toNat = capacity := by
    have hget := grown_word f capacity (i := 5) (by decide)
    rw [if_neg (by decide), if_pos rfl] at hget
    rw [show (40 : Nat) = 5 * 8 from rfl, hget]
    exact UInt64.toNat_ofNat_of_lt' hlt
  have h96 : (grownFile f capacity).words headerChecksumOffset =
      headerChecksum (grownFile f capacity).header := by
    have hget := grown_word f capacity (i := 12) (by decide)
    rw [if_pos rfl] at hget
    rw [grown_header, show headerChecksumOffset = 12 * 8 from rfl]
    exact hget
  have h0 := hword 0 (by decide) (by decide)
  have h8 := hword 1 (by decide) (by decide)
  have h16 := hword 2 (by decide) (by decide)
  have h24 := hword 3 (by decide) (by decide)
  have h32 := hword 4 (by decide) (by decide)
  have h48 := hword 6 (by decide) (by decide)
  have h56 := hword 7 (by decide) (by decide)
  have h72 := hword 9 (by decide) (by decide)
  have h80 := hword 10 (by decide) (by decide)
  have h88 := hword 11 (by decide) (by decide)
  simp only [Nat.reduceMul] at h0 h8 h16 h24 h32 h48 h56 h72 h80 h88
  rw [readConfig] at h ⊢
  simp only [guard_ok] at h ⊢
  obtain ⟨hmagic, hversion, -, h⟩ := h
  obtain ⟨mode, hmode, h⟩ := bind_ok h
  simp only [guard_ok] at h
  obtain ⟨hkey, hinline, h⟩ := h
  obtain ⟨_, -, h⟩ := bind_ok h
  simp only [guard_ok] at h
  obtain ⟨hnode, h⟩ := h
  cases h
  rw [h0, h8, h16, h24, h32, h48, h56, h72, h80, h88, h40, h96, hmode, ok_bind]
  refine ⟨hmagic, hversion, not_not.mpr rfl, ?_⟩
  simp only [guard_ok]
  refine ⟨hkey, hinline, ?_⟩
  simp only [Config.withBody] at hvalid ⊢
  rw [hvalid, ok_bind]
  simp only [guard_ok]
  exact ⟨hnode, trivial⟩

end Header

section Wider
variable {L : Layout} {c : Cells}

/-- A mapping with more pages: everything that is allocated stays where it is. -/
theorem Allocator.Quiet.widen (hq : Quiet L c) {capacity blockCount : Nat} (hle : L.blockCount ≤ blockCount) :
    Quiet { L with capacity := capacity, blockCount := blockCount } c where
  pages := by
    have hp := hq.pages
    have hlens := hp.lengths
    have hcounts : (L.blockCount * 2 + countsStart + 65535) / 65536 * 65536 ≤
        (blockCount * 2 + countsStart + 65535) / 65536 * 65536 :=
      Nat.mul_le_mul_right _ (Nat.div_le_div_right (by omega))
    have hdata : pageStart L L.blockCount ≤ pageStart L blockCount := pageStart_mono L hle
    refine ⟨?_, hp.apart, hp.counted, hp.count_le, hp.claimed_lt, hp.claimed_one,
      Nat.le_trans hp.pages_le hle, hp.counts_mapped, hp.data_mapped, hlens.counts_aligned,
      Nat.le_trans hlens.counts_le hcounts, hlens.data_aligned, Nat.le_trans hlens.data_le hdata⟩
    intro x hx
    obtain ⟨hfits, hlt⟩ := hp.fits x hx
    exact ⟨⟨hfits.length_pos, hfits.start_le, hfits.end_le⟩, hlt⟩
  current := by
    cases hq.current with
    | closed hblock hnone => exact .closed hblock hnone
    | opened b used live ho =>
      exact .opened b used live ⟨ho.block, ho.marked, ho.word, ho.used_le, ho.live_eq, ho.live_le,
        ho.below⟩
  unlocked := hq.unlocked
  settled := hq.settled

theorem Config.Valid.validate (hv : cfg.Valid) : cfg.validate = .ok () := by
  have hsize : nodeSize ≤ cfg.blockSize := Nat.le_trans (by decide) hv.block_min
  have hpos := hv.bucket_pos
  have hpos' := hv.body_pos
  simp only [Config.validate, guard_ok]
  refine ⟨by omega, by omega, Nat.not_lt.mpr hv.body_bound, ?_, ?_, ?_, ?_, ?_, ?_, by omega, trivial⟩
  · intro hm
    exact Nat.ne_of_gt (hv.map_blob hm.1) hm.2
  · intro hm
    exact hm.2 (hv.set_blob hm.1)
  · have hmin := hv.block_min
    simp only [hv.block_pow, Bool.not_true, Bool.false_eq_true, or_false]
    exact Nat.not_lt.mpr hmin
  · have hbound := hv.block_bound
    omega
  · exact not_not.mpr hv.body_aligned
  · exact not_not.mpr hv.blob_aligned

/-- A layout that can be represented is one that `BlockAllocator::create` accepts. -/
theorem create_of_layout {capacity blockSize : Nat} (hpow : isPowerOfTwo blockSize = true)
    (halign : capacity % blockSize = 0)
    (hL : Layout.Ok ⟨capacity, blockSize, capacity / blockSize⟩) :
    ∃ r, Allocator.create capacity blockSize = .ok r := by
  have hmin := hL.block_min
  have hblock := hL.block_bound
  have hpos := hL.count_pos
  have hcount := hL.count_bound
  have hpage := hL.page_bound (Nat.le_refl _)
  have hcap : capacity ≠ 0 := by
    intro hz
    rw [hz, Nat.zero_div] at hpos
    exact Nat.lt_irrefl _ hpos
  simp only at hmin hblock hpos hcount hpage
  have hlayout : validateLayout capacity blockSize = .ok () := by
    simp only [validateLayout, guard_ok, hpow, halign]
    refine ⟨?_, ?_, ?_, trivial⟩
    · simp only [Bool.not_true, Bool.false_eq_true, or_false]
      omega
    · omega
    · omega
  have hlengths : fileLengths capacity blockSize = .ok
      (pageStart ⟨capacity, blockSize, capacity / blockSize⟩ (capacity / blockSize),
        (capacity / blockSize * 2 + countsStart + 65535) / 65536 * 65536, capacity / blockSize) := by
    have hdata := dataFileLength_ok hL (Nat.le_refl _)
    simp only at hdata
    rw [fileLengths, hdata, ok_bind, countFileLength_ok hcount, ok_bind]
    rfl
  have hg : growingBit = 2 ^ 63 := rfl
  have hs : countsStart = 65536 := rfl
  have hd : dataStart = 65536 := rfl
  have hmapped : validateMappingLength (pageStart ⟨capacity, blockSize, capacity / blockSize⟩
      (capacity / blockSize)) = .ok () := by
    refine mappingLength_ok ?_ (pageStart_aligned hL _) ?_
    · rw [pageStart]
      omega
    · rw [pageStart]
      exact hpage
  have hmapped' : validateMappingLength
      ((capacity / blockSize * 2 + countsStart + 65535) / 65536 * 65536) = .ok () :=
    mappingLength_ok (by omega) (Nat.mul_mod_left _ _) (by omega)
  rw [Allocator.create, hlayout, ok_bind, hlengths, ok_bind]
  simp only
  rw [hmapped, ok_bind, hmapped', ok_bind]
  exact ⟨_, rfl⟩

end Wider

section Growth

/-- The new capacity stays inside the range of packed node pointers. -/
def InRange (capacity : Nat) : Prop := capacity ≤ nodePointerMask.toNat - dataStart

/- What growing the body is to do. A call that returns `Ok(true)` has changed the body
   capacity alone, to one that leaves the headroom, and the database can be opened with it;
   any other call has changed nothing; and a second call has nothing left to do. -/
structure KeepsOpenable (cfg : Config) (dir : Directory) (h : Nat) (flushed : Bool) : Prop where
  grown : ∀ dir', ensureRuntimeBodyHeadroom dir h flushed = (.ok true, dir') →
    ∃ capacity, readConfig dir'.headsFile = .ok (cfg.withBody capacity) ∧
      cfg.bodyCapacity < capacity ∧ dir.used cfg + h ≤ capacity ∧
      (∃ d, openRuntime dir' = .ok (cfg.withBody capacity, d)) ∧
      (∀ offset, offset ≠ 40 → offset ≠ headerChecksumOffset →
        dir'.headsFile.words offset = dir.headsFile.words offset) ∧
      readManifests dir'.headsFile = readManifests dir.headsFile ∧ dir'.store = dir.store
  unchanged : ∀ res dir', ensureRuntimeBodyHeadroom dir h flushed = (res, dir') → res ≠ .ok true →
    dir'.headsFile.words = dir.headsFile.words
  again : ∀ grew dir' flushed', ensureRuntimeBodyHeadroom dir h flushed = (.ok grew, dir') →
    ensureRuntimeBodyHeadroom dir' h flushed' = (.ok false, dir')

/- When it does: the request is turned down before anything is written, or there is room
   already, or the capacity with the headroom in whole pages is still in the range of packed
   pointers and the rewritten header is flushed. -/
def HeadroomFits (cfg : Config) (dir : Directory) (h : Nat) (flushed : Bool) : Prop :=
  h = 0 ∨ required cfg h ≤ cfg.bodyCapacity - dir.used cfg ∨
    u64Bound ≤ dir.used cfg + required cfg h ∨
    InRange (dir.used cfg + required cfg h) ∧ flushed = true

/-- The only case that writes. -/
structure Grows (cfg : Config) (dir : Directory) (h : Nat) : Prop where
  nonzero : h ≠ 0
  short : cfg.bodyCapacity - dir.used cfg < required cfg h
  bound : dir.used cfg + required cfg h < u64Bound

theorem ensure_grows (hd : dir.Clean cfg) (hg : Grows cfg dir h) (flushed : Bool) :
    ensureRuntimeBodyHeadroom dir h flushed =
      if flushed then (.ok true, { dir with
        headsFile := (grownFile dir.headsFile (dir.used cfg + required cfg h)).sync })
      else (.error .io, { dir with
        headsFile := (grownFile dir.headsFile (dir.used cfg + required cfg h)) }) := by
  have hbound := hg.bound
  rw [ensureRuntimeBodyHeadroom, headroomCapacity_eq hd, if_neg hg.nonzero, if_neg (by omega),
    if_neg (Nat.not_le.mpr hg.short), if_neg (Nat.not_le.mpr hg.bound)]

/-- A call that does not grow the body leaves the directory alone. -/
theorem ensure_rests (hd : dir.Clean cfg) (hg : ¬Grows cfg dir h) (flushed : Bool) :
    ((∃ e, ensureRuntimeBodyHeadroom dir h flushed = (.error e, dir)) ∨
      required cfg h ≤ cfg.bodyCapacity - dir.used cfg ∧
        ensureRuntimeBodyHeadroom dir h flushed = (.ok false, dir)) := by
  rw [ensureRuntimeBodyHeadroom, headroomCapacity_eq hd]
  by_cases hzero : h = 0
  · rw [if_pos hzero]
    exact Or.inl ⟨_, rfl⟩
  rw [if_neg hzero]
  by_cases hover : u64Bound ≤ required cfg h
  · rw [if_pos hover]
    exact Or.inl ⟨_, rfl⟩
  rw [if_neg hover]
  by_cases hroom : required cfg h ≤ cfg.bodyCapacity - dir.used cfg
  · rw [if_pos hroom]
    exact Or.inr ⟨hroom, rfl⟩
  rw [if_neg hroom]
  by_cases hsum : u64Bound ≤ dir.used cfg + required cfg h
  · rw [if_pos hsum]
    exact Or.inl ⟨_, rfl⟩
  · exact absurd ⟨hzero, Nat.not_le.mp hroom, Nat.not_le.mp hsum⟩ hg

theorem Config.Valid.withBody (hv : cfg.Valid) (hpos : 0 < capacity) (hrange : InRange capacity)
    (halign : capacity % cfg.blockSize = 0) : (cfg.withBody capacity).Valid :=
  ⟨hv.bucket_pos, hpos, hrange, hv.map_blob, hv.set_blob, hv.block_min, hv.block_pow,
    hv.block_bound, halign, hv.blob_aligned⟩

theorem Config.Accepted.withBody (ha : cfg.Accepted) (hpos : 0 < capacity)
    (hrange : InRange capacity) (halign : capacity % cfg.blockSize = 0) :
    (cfg.withBody capacity).Accepted := by
  have hv := ha.ready.valid.withBody hpos hrange halign
  obtain ⟨-, hblob⟩ := createStore_create ha.store
  obtain ⟨r, hbody⟩ := create_of_layout hv.block_pow hv.body_aligned hv.bodyLayout_ok
  refine ⟨hv.validate, ha.heads, ?_⟩
  rw [createStore, hbody, ok_bind]
  change (if cfg.mode = .map then _ else _) = _
  by_cases hm : cfg.mode = .map
  · obtain ⟨r', hblob⟩ := hblob hm
    have hcreate : Allocator.create (cfg.withBody capacity).blobCapacity
        (cfg.withBody capacity).blockSize = .ok r' := hblob
    rw [if_pos hm, hcreate, ok_bind]
    rfl
  · rw [if_neg hm]
    rfl

theorem Directory.Clean.opens (hd : dir.Clean cfg) : ∃ d, openRuntime dir = .ok (cfg, d) := by
  obtain ⟨s, hstore, -⟩ :=
    openStore_ok hd.accepted hd.body hd.blobs hd.body_closed hd.blobs_closed
  rw [openRuntime, hd.mapping, ok_bind, hd.config, ok_bind, hd.length, ok_bind, if_neg (not_not.mpr rfl),
    hstore, ok_bind]
  exact ⟨_, rfl⟩

theorem required_aligned (cfg : Config) (dir : Directory) (h : Nat) :
    (dir.used cfg + required cfg h) % cfg.blockSize = 0 := by
  rw [Directory.used, required, ← Nat.add_mul]
  exact Nat.mul_mod_left _ _

theorem Grows.lt (hg : Grows cfg dir h) (hused : dir.used cfg ≤ cfg.bodyCapacity) :
    cfg.bodyCapacity < dir.used cfg + required cfg h := by
  have hshort := hg.short
  omega

/-- The directory after the rewrite is a clean one for the larger capacity. -/
theorem Directory.Clean.grown (hd : dir.Clean cfg) (hg : Grows cfg dir h)
    (hrange : InRange (dir.used cfg + required cfg h)) :
    Directory.Clean (cfg.withBody (dir.used cfg + required cfg h))
      { dir with headsFile := (grownFile dir.headsFile (dir.used cfg + required cfg h)).sync } := by
  have hlt := hg.lt hd.used_le
  have hbound := hg.bound
  have haccepted := hd.accepted.withBody (by omega) hrange (required_aligned cfg dir h)
  refine ⟨haccepted, hd.mapping, hd.length, ?_, ?_, hd.blobs, hd.body_closed, hd.blobs_closed⟩
  · rw [← readConfig_grown hd.config haccepted.validate hbound]
    exact readConfig_words fun _ _ => rfl
  exact hd.body.widen (Nat.div_le_div_right (Nat.le_of_lt hlt))

/-- What `read_config` returns was validated, and its capacity is the one in the file. -/
theorem ensure_again (hd : dir.Clean cfg) (hzero : h ≠ 0) (hover : required cfg h < u64Bound)
    (hroom : required cfg h ≤ cfg.bodyCapacity - dir.used cfg) (flushed : Bool) :
    ensureRuntimeBodyHeadroom dir h flushed = (.ok false, dir) := by
  rw [ensureRuntimeBodyHeadroom, headroomCapacity_eq hd, if_neg hzero,
    if_neg (Nat.not_le.mpr hover), if_pos hroom]

theorem keepsOpenable_rests (hd : dir.Clean cfg) (hg : ¬Grows cfg dir h) :
    KeepsOpenable cfg dir h flushed := by
  rcases ensure_rests hd hg flushed with ⟨e, heq⟩ | ⟨hroom, heq⟩
  · rw [Prod.ext_iff] at heq
    constructor
    · intro dir' hres
      rw [hres] at heq
      cases heq.1
    · intro res dir' hres _
      rw [hres] at heq
      exact congrArg (fun x => x.headsFile.words) heq.2
    · intro grew dir' flushed' hres
      rw [hres] at heq
      cases heq.1
  · constructor
    · intro dir' hres
      rw [heq] at hres
      cases congrArg Prod.fst hres
    · intro res dir' hres _
      rw [heq] at hres
      exact congrArg (fun x => x.2.headsFile.words) hres.symm
    · intro grew dir' flushed' hres
      rw [heq] at hres
      cases hres
      rcases ensure_rests hd hg flushed' with ⟨e, heq'⟩ | ⟨-, heq'⟩
      · -- rejections do not depend on the flush
        rw [ensureRuntimeBodyHeadroom] at heq heq'
        cases hcap : headroomCapacity dir h with
        | error e' =>
          rw [hcap] at heq
          cases congrArg Prod.fst heq
        | ok o =>
          cases o with
          | none =>
            rw [hcap] at heq'
            cases congrArg Prod.fst heq'
          | some capacity =>
            rw [hcap] at heq
            cases flushed with
            | false => cases congrArg Prod.fst heq
            | true => cases congrArg Prod.fst heq
      · exact heq'

theorem keepsOpenable_grows (hd : dir.Clean cfg) (hg : Grows cfg dir h)
    (hrange : InRange (dir.used cfg + required cfg h)) : KeepsOpenable cfg dir h true := by
  have heq := ensure_grows hd hg true
  rw [if_pos rfl] at heq
  have hclean := hd.grown hg hrange
  have hbound := hg.bound
  constructor
  · intro dir' hres
    rw [heq] at hres
    cases hres
    refine ⟨dir.used cfg + required cfg h, hclean.config,
      hg.lt hd.used_le, ?_, hclean.opens, ?_, grown_manifests _ _, rfl⟩
    · exact Nat.add_le_add_left (le_required cfg hd.accepted.ready.valid h) _
    · intro offset h40 h96
      exact grown_other _ _ h40 h96
  · intro res dir' hres hne
    rw [heq] at hres
    exact absurd (congrArg Prod.fst hres).symm hne
  · intro grew dir' flushed' hres
    rw [heq] at hres
    cases hres
    refine ensure_again hclean hg.nonzero ?_ ?_ flushed'
    · change required cfg h < u64Bound
      omega
    · change required cfg h ≤ dir.used cfg + required cfg h - dir.used cfg
      omega

/-- Past the range of packed pointers the header that was written is not accepted. -/
theorem grows_range (hd : dir.Clean cfg) (hg : Grows cfg dir h)
    (hk : KeepsOpenable cfg dir h flushed) :
    InRange (dir.used cfg + required cfg h) ∧ flushed = true := by
  have heq := ensure_grows hd hg flushed
  have hbound := hg.bound
  have hu : u64Bound = 2 ^ 64 := rfl
  have hlt := hg.lt hd.used_le
  have hword : (grownFile dir.headsFile (dir.used cfg + required cfg h)).words 40 =
      UInt64.ofNat (dir.used cfg + required cfg h) := by
    have hget := grown_word dir.headsFile (dir.used cfg + required cfg h) (i := 5) (by decide)
    rw [if_neg (by decide), if_pos rfl] at hget
    exact hget
  have htoNat : (UInt64.ofNat (dir.used cfg + required cfg h)).toNat =
      dir.used cfg + required cfg h := UInt64.toNat_ofNat_of_lt' hbound
  cases flushed with
  | true =>
    rw [if_pos rfl] at heq
    obtain ⟨capacity, hread, -⟩ := hk.grown _ heq
    obtain ⟨hvalid, hcap⟩ := readConfig_body hread
    have hrange := (Config.validate_ok hvalid).body_bound
    rw [hcap] at hrange
    have hsync : ((grownFile dir.headsFile (dir.used cfg + required cfg h)).sync.words 40).toNat =
        dir.used cfg + required cfg h := by
      rw [HeadsFile.sync, hword, htoNat]
    rw [hsync] at hrange
    exact ⟨hrange, rfl⟩
  | false =>
    -- the capacity is already in the mapped file when the flush fails
    rw [if_neg (by decide)] at heq
    have hsame := hk.unchanged _ _ heq (fun hne => by cases hne)
    have hold : (dir.headsFile.words 40).toNat = cfg.bodyCapacity :=
      (readConfig_body hd.config).2.symm
    have hnew : (dir.headsFile.words 40).toNat = dir.used cfg + required cfg h := by
      rw [← congrFun hsame 40]
      exact (congrArg UInt64.toNat hword).trans htoNat
    omega

theorem headroom_iff (hd : dir.Clean cfg) :
    KeepsOpenable cfg dir h flushed ↔ HeadroomFits cfg dir h flushed := by
  by_cases hg : Grows cfg dir h
  · constructor
    · intro hk
      exact Or.inr (Or.inr (Or.inr (grows_range hd hg hk)))
    · intro hfits
      rcases hfits with hzero | hroom | hover | ⟨hrange, rfl⟩
      · exact absurd hzero hg.nonzero
      · exact absurd hroom (Nat.not_le.mpr hg.short)
      · exact absurd hover (Nat.not_le.mpr hg.bound)
      · exact keepsOpenable_grows hd hg hrange
  · constructor
    · intro _
      by_cases hzero : h = 0
      · exact Or.inl hzero
      · by_cases hroom : required cfg h ≤ cfg.bodyCapacity - dir.used cfg
        · exact Or.inr (Or.inl hroom)
        · refine Or.inr (Or.inr (Or.inl ?_))
          by_contra hover
          exact hg ⟨hzero, Nat.not_le.mp hroom, Nat.not_le.mp hover⟩
    · intro _
      exact keepsOpenable_rests hd hg

/-- The chains of a store are those of the same store with a larger body capacity. -/
theorem Owned.widen {s : Store} {heads : Nat → Nat} (ho : Owned cfg s heads chains ∅ ∅ ∅)
    (hle : cfg.bodyCapacity ≤ capacity) : Owned (cfg.withBody capacity) s heads chains ∅ ∅ ∅ where
  heap :=
    { body := ho.heap.body.widen (Nat.div_le_div_right hle)
      blobs := ho.heap.blobs
      shape := ho.heap.shape
      live_iff := ho.heap.live_iff
      bare_free := ho.heap.bare_free
      entry := fun o hN => ⟨(ho.heap.entry o hN).checksum, (ho.heap.entry o hN).set_value, (ho.heap.entry o hN).blob⟩
      blob_iff := ho.heap.blob_iff
      blob_free := ho.heap.blob_free
      blob_inj := ho.heap.blob_inj
      zero := ho.heap.zero }
  chain := ho.chain
  home := ho.home
  priv_free := ho.priv_free

/-- A directory is opened under the configuration in its header. -/
theorem openRuntime_config (hopen : openRuntime dir = .ok (cfg, d)) : readConfig dir.headsFile = .ok cfg := by
  obtain ⟨_, -, hopen⟩ := bind_ok hopen
  obtain ⟨c, hread, hopen⟩ := bind_ok hopen
  obtain ⟨_, -, hopen⟩ := bind_ok hopen
  obtain ⟨-, hopen⟩ := guard_ok.mp hopen
  obtain ⟨_, -, hopen⟩ := bind_ok hopen
  obtain ⟨rfl, -⟩ := Prod.mk.inj (Except.ok.inj hopen)
  exact hread

/-- If the rewritten directory opens, the new capacity is in range and its files are closed ones. -/
theorem Closed.widened (ha : cfg.Accepted) (hc : Closed cfg d chains) {res : Except Error Bool}
    (hres : ensureRuntimeBodyHeadroom (d.directory cfg) h flushed = (res, dir))
    (hopen : openRuntime dir = .ok (cfg', d')) :
    ∃ f, cfg'.Accepted ∧ Closed cfg' { d with headsFile := f } chains ∧
      dir = Db.directory cfg' { d with headsFile := f } := by
  have hd := hc.clean ha
  have hread := openRuntime_config hopen
  by_cases hg : Grows cfg (d.directory cfg) h
  · have heq := ensure_grows hd hg flushed
    generalize hcapacity : Directory.used cfg (d.directory cfg) + required cfg h = capacity at heq
    have hbound : capacity < 2 ^ 64 := hcapacity ▸ hg.bound
    have hle : cfg.bodyCapacity < capacity := hcapacity ▸ hg.lt hd.used_le
    obtain ⟨f, hwords, rfl⟩ : ∃ f : HeadsFile, (∀ o, f.words o = (grownFile d.headsFile capacity).words o) ∧
        dir = ⟨f, (d.directory cfg).headsLength, d.store⟩ := by
      rw [heq] at hres
      cases flushed with
      | true => exact ⟨(grownFile d.headsFile capacity).sync, fun _ => rfl, (Prod.mk.inj hres).2.symm⟩
      | false => exact ⟨grownFile d.headsFile capacity, fun _ => rfl, (Prod.mk.inj hres).2.symm⟩
    rw [readConfig_words fun i _ => hwords (i * 8)] at hread
    have h40 : ((grownFile d.headsFile capacity).words 40).toNat = capacity := by
      have hget := grown_word d.headsFile capacity (i := 5) (by decide)
      rw [if_neg (by decide), if_pos rfl] at hget
      exact (congrArg UInt64.toNat hget).trans (UInt64.toNat_ofNat_of_lt' hbound)
    obtain ⟨hvalid, hcap⟩ := readConfig_body hread
    rw [h40] at hcap
    have hrange : InRange capacity := hcap ▸ (Config.validate_ok hvalid).body_bound
    have haccepted : (cfg.withBody capacity).Accepted :=
      ha.withBody (by omega) hrange (hcapacity ▸ required_aligned cfg (d.directory cfg) h)
    have hgrown := readConfig_grown hc.config haccepted.validate hbound
    obtain rfl := Except.ok.inj (hgrown.symm.trans hread)
    refine ⟨f, haccepted, ⟨hc.owned.widen hle.le, ?_, ?_, hc.body, hc.blobs⟩, rfl⟩
    · rw [← hgrown]
      exact readConfig_words fun i _ => hwords (i * 8)
    · intro b hb
      have hstart : headsStart = 65536 := rfl
      have h96 : headerChecksumOffset = 96 := rfl
      rw [← hc.stored b hb]
      exact (hwords _).trans ( grown_other _ _ (by omega) (by omega))
  · have hdir : dir = d.directory cfg := by
      rcases ensure_rests hd hg flushed with ⟨e, heq⟩ | ⟨-, heq⟩
      · exact (Prod.mk.inj (hres.symm.trans heq)).2
      · exact (Prod.mk.inj (hres.symm.trans heq)).2
    subst hdir
    obtain rfl := Except.ok.inj (hc.config.symm.trans hread)
    exact ⟨d.headsFile, ha, hc, rfl⟩

end Growth

end FlorestaDb
