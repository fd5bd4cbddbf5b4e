import FlorestaDb.AllocatorScan

/-! One specification for each allocator call made by a single thread. -/
namespace FlorestaDb.Allocator
open Program Program.Prog

variable {L : Layout} {v : Env} {t : Tid} {c : Cells}

section StepRules
variable {α : Type}

@[simp] theorem wp_loadCurrentBlock {Q : Except Error Nat → Cells → Prop} :
    loadCurrentBlock.wp v t Q c ↔ Q (.ok c.currentBlock) c := by
  simp [loadCurrentBlock, wp_atomic]

@[simp] theorem wp_storeCurrentBlock {n : Nat} {Q : Except Error Unit → Cells → Prop} :
    (storeCurrentBlock n).wp v t Q c ↔ Q (.ok ()) { c with currentBlock := n } := by
  simp [storeCurrentBlock, wp_atomic]

@[simp] theorem wp_casCurrentBlock {e n : Nat} {Q : Except Error Bool → Cells → Prop} :
    (casCurrentBlock e n).wp v t Q c ↔
      if c.currentBlock = e then Q (.ok true) { c with currentBlock := n } else Q (.ok false) c := by
  simp only [casCurrentBlock, wp_atomic]
  split <;> simp

@[simp] theorem wp_loadCurrentWord {Q : Except Error UInt64 → Cells → Prop} :
    loadCurrentWord.wp v t Q c ↔ Q (.ok c.currentWord) c := by
  simp [loadCurrentWord, wp_atomic]

@[simp] theorem wp_storeCurrentWord {n : UInt64} {Q : Except Error Unit → Cells → Prop} :
    (storeCurrentWord n).wp v t Q c ↔ Q (.ok ()) { c with currentWord := n } := by
  simp [storeCurrentWord, wp_atomic]

@[simp] theorem wp_casCurrentWord {e n : UInt64} {record : List Allocation → List Allocation}
    {Q : Except Error Bool → Cells → Prop} :
    (casCurrentWord e n record).wp v t Q c ↔
      if c.currentWord = e then
        Q (.ok true) { c with currentWord := n, live := record c.live }
      else Q (.ok false) c := by
  simp only [casCurrentWord, wp_atomic]
  split <;> simp

@[simp] theorem wp_loadHighWater {Q : Except Error Nat → Cells → Prop} :
    loadHighWater.wp v t Q c ↔ Q (.ok c.highWater) c := by
  simp [loadHighWater, wp_atomic]

@[simp] theorem wp_casHighWater {e n : Nat} {Q : Except Error Bool → Cells → Prop} :
    (casHighWater e n).wp v t Q c ↔
      if c.highWater = e then Q (.ok true) { c with highWater := n } else Q (.ok false) c := by
  simp only [casHighWater, wp_atomic]
  split <;> simp

theorem countRange_ok (hp : Pages L c) (hL : L.Ok) {b : Nat} (hb : b < c.pages) :
    countRange L c b = .ok () := by
  have h1 := hp.pages_le
  have h2 := hL.count_bound
  have h3 := hp.counts_mapped
  have h4 : countsStart = 65536 := rfl
  have hlt : ¬b ≥ L.blockCount := by omega
  have hb64 : u64Bound = 2 ^ 64 := rfl
  have hr : ¬b * 2 + countsStart + 2 > c.countsLength := by omega
  rw [countRange, if_neg hlt, checkedMul_of_lt (by omega), Option.bind_some,
    checkedAdd_of_lt (by omega), okOr_some, ok_bind, checkedRange, checkedAdd_of_lt (by omega),
    okOr_some, ok_bind, if_neg hr]

theorem wp_readCount (hp : Pages L c) (hL : L.Ok) {b : Nat} (hb : b < c.pages)
    {Q : Except Error Nat → Cells → Prop} :
    (readCount L b).wp v t Q c ↔ Q (.ok (c.counts b)) c := by
  simp [readCount, wp_atomic, countRange_ok hp hL hb, Except.map]

theorem wp_casCount (hp : Pages L c) (hL : L.Ok) {b e n : Nat} (hb : b < c.pages)
    {record : List Allocation → List Allocation} {Q : Except Error Bool → Cells → Prop} :
    (casCount L b e n record).wp v t Q c ↔
      if c.counts b = e then Q (.ok true) { c.setCount b n with live := record c.live }
      else Q (.ok false) c := by
  simp only [casCount, wp_atomic, countRange_ok hp hL hb]
  split <;> simp

theorem wp_storeCount (hp : Pages L c) (hL : L.Ok) {b n : Nat} (hb : b < c.pages)
    {Q : Except Error Unit → Cells → Prop} :
    (storeCount L b n).wp v t Q c ↔ Q (.ok ()) (c.setCount b n) := by
  simp [storeCount, wp_atomic, countRange_ok hp hL hb]

/-- A guarded body of a single thread: the guard is free again afterwards. -/
theorem wp_withRead (hg : c.guard = RwLock.free) {body : AllocM α}
    {Q : Except Error α → Cells → Prop}
    (h : body.wp v t (fun r c' => c'.guard = ⟨[t], none⟩ ∧
      Q r { c' with guard := RwLock.free }) { c with guard := ⟨[t], none⟩ }) :
    (withRead body).wp v t Q c := by
  rw [withRead, wp_guarded, lockRead, wp_atomic]
  refine ⟨.ok (), { c with guard := ⟨[t], none⟩ }, ?_, ?_⟩
  · simp [hg, RwLock.free]
  · rw [andThen_ok, wp_bind, wp_attempt]
    refine wp_mono h ?_
    rintro r c' ⟨hg', hQ⟩
    rw [andThen_ok, wp_bind, unlockRead, wp_atomic]
    refine ⟨.ok (), _, rfl, ?_⟩
    rw [andThen_ok, wp_ofExcept, hg']
    simpa [RwLock.free] using hQ

theorem wp_withWrite (hg : c.guard = RwLock.free) {body : AllocM α}
    {Q : Except Error α → Cells → Prop}
    (h : body.wp v t (fun r c' => c'.guard = ⟨[], some t⟩ ∧
      Q r { c' with guard := RwLock.free }) { c with guard := ⟨[], some t⟩ }) :
    (withWrite body).wp v t Q c := by
  rw [withWrite, wp_guarded, lockWrite, wp_atomic]
  refine ⟨.ok (), { c with guard := ⟨[], some t⟩ }, ?_, ?_⟩
  · simp [hg, RwLock.free]
  · rw [andThen_ok, wp_bind, wp_attempt]
    refine wp_mono h ?_
    rintro r c' ⟨hg', hQ⟩
    rw [andThen_ok, wp_bind, unlockWrite, wp_atomic]
    refine ⟨.ok (), _, rfl, ?_⟩
    rw [andThen_ok, wp_ofExcept, hg']
    simpa [RwLock.free] using hQ

end StepRules

section Arithmetic

theorem alignUp_eq {value alignment : Nat} (hpow : isPowerOfTwo alignment = true)
    (hpos : 0 < alignment) (hb : value + (alignment - 1) < u64Bound) :
    alignUp value alignment = some ((value + (alignment - 1)) / alignment * alignment) := by
  have hnot : ¬(alignment = 0 ∨ (!isPowerOfTwo alignment) = true) := by
    rw [hpow]
    simp
    omega
  rw [alignUp, if_neg hnot, checkedAdd_of_lt hb, Option.map_some]

theorem roundUp_bounds (value : Nat) {alignment : Nat} (hpos : 0 < alignment) :
    value ≤ (value + (alignment - 1)) / alignment * alignment ∧
      (value + (alignment - 1)) / alignment * alignment ≤ value + (alignment - 1) := by
  have h1 := Nat.div_add_mod (value + (alignment - 1)) alignment
  have h2 := Nat.mod_lt (value + (alignment - 1)) hpos
  rw [Nat.mul_comm] at h1
  omega

theorem dataOffset_ok (hL : L.Ok) {p : Nat} (hp : p ≤ L.blockCount) :
    dataOffset L p = .ok (pageStart L p) := by
  have h1 := hL.page_bound hp
  have h2 : u64Bound = 2 ^ 64 := rfl
  rw [dataOffset, checkedMul_of_lt (by omega), Option.bind_some, checkedAdd_of_lt (by omega),
    okOr_some, pageStart]

/-- The checked arguments of one reservation. -/
structure Request (L : Layout) (length alignment stride requested : Nat) : Prop where
  length_pos : 0 < length
  length_le : length ≤ L.blockSize
  align_pow : isPowerOfTwo alignment = true
  align_pos : 0 < alignment
  align_le : alignment ≤ L.blockSize
  stride_eq : alignUp length alignment = some stride
  requested_pos : 0 < requested
  requested_le : requested ≤ maxLive

variable {length alignment stride requested : Nat}

theorem Request.stride_bounds (hL : L.Ok) (hr : Request L length alignment stride requested) :
    length ≤ stride ∧ stride < 2 ^ 32 ∧ stride % alignment = 0 := by
  have h1 := hL.block_bound
  have h2 := hr.length_le
  have h3 := hr.align_le
  have h4 := hr.stride_eq
  rw [alignUp_eq hr.align_pow hr.align_pos (by simp only [u64Bound]; omega)] at h4
  have h5 := roundUp_bounds length hr.align_pos
  obtain rfl := Option.some.inj h4
  exact ⟨h5.1, by omega, Nat.mul_mod_left _ _⟩

/-- The first aligned position at or after the cursor of the page. -/
def alignedStart (used alignment : Nat) : Nat := (used + (alignment - 1)) / alignment * alignment

/-- How many pieces the page can still take, as `allocate_batch` computes it. -/
def carvedCount (L : Layout) (used live length alignment stride requested : Nat) : Nat :=
  min (min requested
    (min (1 + (L.blockSize - (alignedStart used alignment + length)) / stride) (2 ^ 32 - 1)))
    (maxLive - live)

/-- The pieces fit behind one another in the page, and at least one does. -/
theorem carvedCount_bounds {used live : Nat} (stride : Nat) (hpos : 0 < requested) (hlive : live < maxLive)
    (hfit : alignedStart used alignment + length ≤ L.blockSize) :
    0 < carvedCount L used live length alignment stride requested ∧
      live + carvedCount L used live length alignment stride requested ≤ maxLive ∧
      (carvedCount L used live length alignment stride requested - 1) * stride +
        (alignedStart used alignment + length) ≤ L.blockSize := by
  have hdiv := Nat.div_mul_le_self (L.blockSize - (alignedStart used alignment + length)) stride
  unfold carvedCount
  generalize (L.blockSize - (alignedStart used alignment + length)) / stride = q at hdiv ⊢
  have hle : min (min requested (min (1 + q) (2 ^ 32 - 1))) (maxLive - live) - 1 ≤ q := by omega
  have hmul := Nat.mul_le_mul_right stride hle
  refine ⟨by omega, by omega, ?_⟩
  omega

end Arithmetic

section ReserveOnce
variable {length alignment stride requested b used live : Nat}

theorem reserveOnce_closed (h : c.currentBlock = 0) {Q : Except Error Reserve → Cells → Prop}
    (hQ : Q (.ok .install) c) :
    (reserveOnce L length alignment stride requested).wp v t Q c := by
  have hne : ¬(0 : Nat) = currentInstalling := by decide
  rw [reserveOnce, wp_bind, wp_loadCurrentBlock, andThen_ok, h, if_neg hne, if_pos rfl]
  exact wp_pure _ |>.mpr hQ

/-- The page was full for this request: nothing happened. -/
def PageFull (L : Layout) (used live length alignment : Nat) : Prop :=
  L.blockSize < alignedStart used alignment + length ∨ live = maxLive

/-- What a successful reservation on the open page leaves behind. -/
structure Reserved (L : Layout) (c c' : Cells) (b used live length alignment stride requested : Nat)
    (batch : AllocationBatch) : Prop where
  carved : Carved L batch (alignedStart used alignment)
    (alignedStart used alignment + (batch.count - 1) * stride + length)
  block : batch.block = b
  length_eq : batch.length = length
  stride_eq : batch.stride = stride
  count_eq : batch.count = carvedCount L used live length alignment stride requested
  fresh : ∃ word, packCurrent .opened
      (alignedStart used alignment + (batch.count - 1) * stride + length)
      (live + batch.count) = .ok word ∧
    c' = { c with currentWord := word, live := batch.allocations ++ c.live }

/-- One pass over an open page, from what its word says. -/
theorem reserveOnce_word (hL : L.Ok) (hblock : c.currentBlock = b + 1) (hb : b < L.blockCount)
    (hstate : currentState c.currentWord = .ok .opened) (hused : currentUsed c.currentWord = used)
    (hheld : currentLive c.currentWord = live) (hul : used ≤ L.blockSize) (hlive : live ≤ maxLive)
    (hr : Request L length alignment stride requested) :
    (reserveOnce L length alignment stride requested).wp v t
      (fun r c' => (PageFull L used live length alignment ∧ r = .ok (.full (b + 1)) ∧ c' = c) ∨
        ¬PageFull L used live length alignment ∧ ∃ batch, r = .ok (.reserved batch) ∧
          Reserved L c c' b used live length alignment stride requested batch) c := by
  have hbs := hL.block_bound
  have hcb := hL.count_bound
  have hal := hr.align_le
  have hap := hr.align_pos
  have hll := hr.length_le
  have hlp := hr.length_pos
  have hrp := hr.requested_pos
  obtain ⟨hsl, hs32, -⟩ := hr.stride_bounds hL
  have hne1 : ¬b + 1 = currentInstalling := by
    have : currentInstalling = 2 ^ 64 - 1 := rfl
    omega
  have hne2 : ¬b + 1 = 0 := by omega
  have hu64 : u64Bound = 2 ^ 64 := rfl
  have hsb := roundUp_bounds used hap
  have hstart : alignUp used alignment = some (alignedStart used alignment) :=
    alignUp_eq hr.align_pow hap (by omega)
  have hsle : used ≤ alignedStart used alignment := hsb.1
  have hsub : alignedStart used alignment ≤ used + (alignment - 1) := hsb.2
  rw [reserveOnce, wp_bind, wp_loadCurrentBlock, andThen_ok, hblock, if_neg hne1, if_neg hne2,
    decodeBlock, checkedSub_of_le (by omega), okOr_some, wp_bind, wp_ofExcept, andThen_ok, wp_bind,
    wp_loadCurrentWord, andThen_ok, hstate, wp_bind, wp_ofExcept,
    andThen_ok, if_neg (by simp), hused, hstart, okOr_some, wp_bind,
    wp_ofExcept, andThen_ok, hheld, checkedAdd_of_lt (by omega), okOr_some,
    wp_bind, wp_ofExcept, andThen_ok, Nat.add_sub_cancel]
  by_cases hfull : alignedStart used alignment + length > L.blockSize ∨ live = maxLive
  · rw [if_pos hfull, wp_pure]
    exact Or.inl ⟨hfull, rfl, rfl⟩
  · rw [if_neg hfull]
    rw [not_or] at hfull
    have hfit : alignedStart used alignment + length ≤ L.blockSize := by omega
    have hdiv : (L.blockSize - (alignedStart used alignment + length)) / stride ≤ L.blockSize :=
      Nat.le_trans (Nat.div_le_self _ _) (Nat.sub_le _ _)
    have hlt : live < maxLive := Nat.lt_of_le_of_ne hlive hfull.2
    obtain ⟨hpos, hsum, hlast⟩ := carvedCount_bounds stride hrp hlt hfit
    rw [checkedAdd_of_lt (by omega), okOr_some, wp_bind, wp_ofExcept, andThen_ok]
    generalize hn : carvedCount L used live length alignment stride requested = n
      at hpos hsum hlast
    have hn' : min (min requested
        (min (1 + (L.blockSize - (alignedStart used alignment + length)) / stride) (2 ^ 32 - 1)))
        (maxLive - live) = n := hn
    simp only [hn']
    have hmax : maxLive = 65534 := rfl
    have hcl : claimed = 65535 := rfl
    have hmin : min ((n - 1) * stride) (u64Bound - 1) = (n - 1) * stride := by omega
    have hnot : ¬(n > claimed ∨ live + n > claimed) := by omega
    have hu32 : alignedStart used alignment + (n - 1) * stride + length < 2 ^ 32 := by omega
    obtain ⟨word, hword⟩ := packCurrent_ok .opened (live + n) hu32
    have hbase : dataStart + b * L.blockSize < 2 ^ 63 := hL.page_bound (by omega)
    have hds : dataStart = 65536 := rfl
    have hfresh : dataOffset L b = .ok (dataStart + b * L.blockSize) :=
      dataOffset_ok hL (by omega)
    rw [hmin, checkedAdd_of_lt (by omega), Option.bind_some, checkedAdd_of_lt (by omega),
      okOr_some, wp_bind, wp_ofExcept, andThen_ok, if_neg hnot, hword, wp_bind, wp_ofExcept,
      andThen_ok, wp_bind, wp_casCurrentWord, if_pos rfl, andThen_ok, if_pos rfl, hfresh, wp_bind,
      wp_ofExcept, andThen_ok, checkedAdd_of_lt (by omega), okOr_some, wp_bind, wp_ofExcept,
      andThen_ok, if_neg (by omega), if_neg (by omega), wp_pure]
    refine Or.inr ⟨by simp only [PageFull]; omega, _, rfl, ?_⟩
    refine ⟨⟨rfl, hlp, hsl, hpos, rfl, by simp only; omega⟩, rfl, rfl, rfl, hn.symm, word, hword, rfl⟩

theorem reserveOnce_open (hL : L.Ok) (hp : Pages L c) (ho : OpenPage L c b used live)
    (hr : Request L length alignment stride requested) :
    (reserveOnce L length alignment stride requested).wp v t
      (fun r c' => (PageFull L used live length alignment ∧ r = .ok (.full (b + 1)) ∧ c' = c) ∨
        ¬PageFull L used live length alignment ∧ ∃ batch, r = .ok (.reserved batch) ∧
          Reserved L c c' b used live length alignment stride requested batch) c := by
  have hl16 : live < 2 ^ 16 := Nat.lt_of_le_of_lt ho.live_le (by decide)
  have hb : b < L.blockCount := Nat.lt_of_lt_of_le (hp.claimed_lt b ho.marked) hp.pages_le
  exact reserveOnce_word hL ho.block hb (currentState_pack hl16 ho.word)
    (currentUsed_pack hl16 ho.word) (currentLive_pack hl16 ho.word) ho.used_le ho.live_le hr

end ReserveOnce

section Growth

theorem wp_osCall {Q : Except Error Unit → Cells → Prop} :
    osCall.wp v t Q c ↔ Q (.ok ()) c ∧ (v = .any → Q (.error .io) c) := by
  rw [osCall, wp_choose]
  rfl

theorem countFileLength_ok {n : Nat} (hn : n < 2 ^ 32) :
    countFileLength n = .ok ((n * 2 + countsStart + 65535) / 65536 * 65536) := by
  have h1 : countsStart = 65536 := rfl
  have h2 : u64Bound = 2 ^ 64 := rfl
  have h3 : formatPageSize = 65536 := rfl
  rw [countFileLength, checkedMul_of_lt (by omega), Option.bind_some, checkedAdd_of_lt (by omega),
    Option.bind_some, alignUp_eq (by decide) (by decide) (by omega), okOr_some, h3]

theorem dataFileLength_ok (hL : L.Ok) {n : Nat} (hn : n ≤ L.blockCount) :
    dataFileLength n L.blockSize = .ok (pageStart L n) := by
  have h1 := hL.page_bound hn
  have h2 : u64Bound = 2 ^ 64 := rfl
  rw [dataFileLength, checkedMul_of_lt (by omega), Option.bind_some, checkedAdd_of_lt (by omega),
    okOr_some, pageStart, Nat.add_comm]

theorem pageStart_aligned (hL : L.Ok) (n : Nat) : pageStart L n % 65536 = 0 := by
  obtain ⟨k, hk⟩ := hL.block_pow
  have hmin := hL.block_min
  have h16 : (65536 : Nat) = 2 ^ 16 := by decide
  have hle : 16 ≤ k := by
    by_contra hlt
    have : (2 : Nat) ^ k < 2 ^ 16 := Nat.pow_lt_pow_right (by decide) (by omega)
    have h1 : formatPageSize = 65536 := rfl
    omega
  have hdvd : 65536 ∣ L.blockSize := by
    rw [hk, h16]
    exact Nat.pow_dvd_pow 2 hle
  have h2 : 65536 ∣ n * L.blockSize := Nat.dvd_trans hdvd (Nat.dvd_mul_left _ _)
  have h3 : dataStart = 65536 := rfl
  rw [pageStart, h3]
  omega

theorem growRange_ok {mapping length : Nat} (hpos : 0 < length) (ha : length % 65536 = 0)
    (hb : length < growingBit) (hm : length ≤ mapping) : growRange mapping length = .ok () := by
  have h1 : formatPageSize = 65536 := rfl
  have hv : validateMappingLength length = .ok () := by
    rw [validateMappingLength, h1, if_neg (by omega)]
  rw [growRange, hv, ok_bind, if_neg (by omega)]

theorem growCounts_spec {n : Nat} (hL : L.Ok) (hn : n ≤ L.blockCount)
    {Q : Except Error Unit → Cells → Prop}
    (hok : Q (.ok ()) { c with
      countsLength := max c.countsLength ((n * 2 + countsStart + 65535) / 65536 * 65536) })
    (hio : v = .any → Q (.error .io) c) :
    (growCounts L ((n * 2 + countsStart + 65535) / 65536 * 65536)).wp v t Q c := by
  have hcb := hL.count_bound
  have hg : growingBit = 2 ^ 63 := rfl
  have hcs : countsStart = 65536 := rfl
  have hmono : (n * 2 + countsStart + 65535) / 65536 * 65536 ≤
      (L.blockCount * 2 + countsStart + 65535) / 65536 * 65536 :=
    Nat.mul_le_mul_right _ (Nat.div_le_div_right (by omega))
  have hrange : growRange ((L.blockCount * 2 + countsStart + 65535) / 65536 * 65536)
      ((n * 2 + countsStart + 65535) / 65536 * 65536) = .ok () :=
    growRange_ok (by omega) (Nat.mul_mod_left _ _) (by omega) hmono
  rw [growCounts, countFileLength_ok hcb, wp_bind, wp_ofExcept, andThen_ok, hrange, wp_bind,
    wp_ofExcept, andThen_ok, wp_bind, wp_osCall]
  exact ⟨(wp_atomic _).mpr ⟨.ok (), _, rfl, hok⟩, hio⟩

theorem growData_spec {n : Nat} (hL : L.Ok) (hn : n ≤ L.blockCount)
    {Q : Except Error Unit → Cells → Prop}
    (hok : Q (.ok ()) { c with dataLength := max c.dataLength (pageStart L n) })
    (hio : v = .any → Q (.error .io) c) : (growData L (pageStart L n)).wp v t Q c := by
  have hpb := hL.page_bound hn
  have hg : growingBit = 2 ^ 63 := rfl
  have hps : pageStart L n = dataStart + n * L.blockSize := rfl
  have hds : dataStart = 65536 := rfl
  have hrange : growRange (pageStart L L.blockCount) (pageStart L n) = .ok () :=
    growRange_ok (by omega) (pageStart_aligned hL n) (by omega) (pageStart_mono L hn)
  rw [growData, dataFileLength_ok hL (Nat.le_refl _), wp_bind, wp_ofExcept, andThen_ok, hrange,
    wp_bind, wp_ofExcept, andThen_ok, wp_bind, wp_osCall]
  exact ⟨(wp_atomic _).mpr ⟨.ok (), _, rfl, hok⟩, hio⟩

theorem reserveData_spec {offset length : Nat} (hle : offset + length ≤ c.dataLength)
    (hb : offset + length < u64Bound) {Q : Except Error Unit → Cells → Prop}
    (hok : Q (.ok ()) c) (hio : v = .any → Q (.error .io) c) :
    (reserveData offset length).wp v t Q c := by
  rw [reserveData, wp_bind, wp_atomic]
  refine ⟨.ok (), c, ?_, ?_⟩
  · rw [checkedRange, checkedAdd_of_lt hb, okOr_some, ok_bind, if_neg (by omega)]
  · rw [andThen_ok, wp_osCall]
    exact ⟨hok, hio⟩

/-- Only the file lengths differ, and they grew. -/
structure Extended (L : Layout) (c c' : Cells) : Prop where
  eq : c' = { c with countsLength := c'.countsLength, dataLength := c'.dataLength }
  counts_le : c.countsLength ≤ c'.countsLength
  data_le : c.dataLength ≤ c'.dataLength
  lengths : Lengths L c'.countsLength c'.dataLength

theorem max_mod {a b k : Nat} (ha : a % k = 0) (hb : b % k = 0) : max a b % k = 0 := by
  rcases Nat.le_total a b with hle | hle
  · rw [Nat.max_eq_right hle]
    exact hb
  · rw [Nat.max_eq_left hle]
    exact ha

theorem Lengths.counts {cl dl n : Nat} (h : Lengths L cl dl) (hn : n ≤ L.blockCount) :
    Lengths L (max cl ((n * 2 + countsStart + 65535) / 65536 * 65536)) dl := by
  have hmono : (n * 2 + countsStart + 65535) / 65536 * 65536 ≤
      (L.blockCount * 2 + countsStart + 65535) / 65536 * 65536 :=
    Nat.mul_le_mul_right _ (Nat.div_le_div_right (by omega))
  exact ⟨max_mod h.counts_aligned (Nat.mul_mod_left _ _), Nat.max_le.mpr ⟨h.counts_le, hmono⟩,
    h.data_aligned, h.data_le⟩

theorem Lengths.data {cl dl n : Nat} (hL : L.Ok) (h : Lengths L cl dl) (hn : n ≤ L.blockCount) :
    Lengths L cl (max dl (pageStart L n)) :=
  ⟨h.counts_aligned, h.counts_le, max_mod h.data_aligned (pageStart_aligned hL n),
    Nat.max_le.mpr ⟨h.data_le, pageStart_mono L hn⟩⟩

/-- The extension of both files to `new` pages, before they are published. -/
theorem growFiles_spec (hL : L.Ok) {old new pages : Nat} (hnew : new = old + pages)
    (hle : new ≤ L.blockCount) (hlen : Lengths L c.countsLength c.dataLength) :
    (growFiles L old new pages).wp v t (fun r c' => Extended L c c' ∧
      (r = .ok () ∧ countsStart + 2 * new ≤ c'.countsLength ∧ pageStart L new ≤ c'.dataLength ∨
        r = .error .io ∧ v = .any)) c := by
  have hcb := hL.count_bound
  have hcs : countsStart = 65536 := rfl
  have hu : u64Bound = 2 ^ 64 := rfl
  have hdata := hL.page_bound hle
  have hsplit : pageStart L new = pageStart L old + pages * L.blockSize := by
    simp only [pageStart]
    rw [hnew, Nat.add_mul]
    omega
  have hps : pageStart L new = dataStart + new * L.blockSize := rfl
  have hc : countsStart + 2 * new ≤ (new * 2 + countsStart + 65535) / 65536 * 65536 := by omega
  rw [growFiles, countFileLength_ok (by omega), wp_bind, wp_ofExcept, andThen_ok, wp_bind]
  refine growCounts_spec hL hle ?_
    fun hv => ⟨⟨rfl, Nat.le_refl _, Nat.le_refl _, hlen⟩, Or.inr ⟨rfl, hv⟩⟩
  rw [andThen_ok, dataFileLength_ok hL hle, wp_bind, wp_ofExcept, andThen_ok, wp_bind]
  refine growData_spec hL hle ?_
    fun hv => ⟨⟨rfl, Nat.le_max_left _ _, Nat.le_refl _, hlen.counts hle⟩, Or.inr ⟨rfl, hv⟩⟩
  rw [andThen_ok, dataOffset_ok hL (by omega), wp_bind, wp_ofExcept, andThen_ok]
  have hext : Extended L c { c with
      countsLength := max c.countsLength ((new * 2 + countsStart + 65535) / 65536 * 65536),
      dataLength := max c.dataLength (pageStart L new) } :=
    ⟨rfl, Nat.le_max_left _ _, Nat.le_max_left _ _, (hlen.counts hle).data hL hle⟩
  refine reserveData_spec ?_ (by omega) ⟨hext, Or.inl ⟨rfl, ?_, Nat.le_max_right _ _⟩⟩
    fun hv => ⟨hext, Or.inr ⟨rfl, hv⟩⟩
  · rw [← hsplit]
    exact Nat.le_max_right _ _
  · exact Nat.le_trans hc (Nat.le_max_right _ _)

end Growth

/-- Why an allocation can be refused: no room, or the system refused to extend a file. -/
def Refusal (v : Env) (e : Error) : Prop := e.isCapacity = true ∨ v = .any ∧ e = .io

/-- A refusal for lack of pages, which only happens when `full` holds. -/
def Shortage (v : Env) (full : Prop) (e : Error) : Prop :=
  (e = .capacityExhausted "mapped file" ∧ full) ∨ v = .any ∧ e = .io

theorem Shortage.refusal {full : Prop} {e : Error} (h : Shortage v full e) : Refusal v e := by
  rcases h with ⟨rfl, -⟩ | h
  · exact Or.inl rfl
  · exact Or.inr h

theorem Shortage.mono {full full' : Prop} {e : Error} (h : Shortage v full e)
    (himp : full → full') : Shortage v full' e := by
  rcases h with ⟨rfl, hfull⟩ | h
  · exact Or.inl ⟨rfl, himp hfull⟩
  · exact Or.inr h

section Claim
variable {fuel requestedBytes : Nat}

/-- More pages may have been published; nothing else changed. -/
structure Grown (L : Layout) (c c' : Cells) : Prop where
  eq : c' = { c with highWater := c'.highWater, countsLength := c'.countsLength,
                     dataLength := c'.dataLength }
  pages : Pages L c'
  settled : c'.highWater < growingBit

theorem Grown.refl (hp : Pages L c) (hs : c.highWater < growingBit) : Grown L c c :=
  ⟨rfl, hp, hs⟩

theorem Grown.trans {c' c'' : Cells} (h : Grown L c c') (h' : Grown L c' c'') : Grown L c c'' := by
  refine ⟨?_, h'.pages, h'.settled⟩
  rw [h'.eq, h.eq]

theorem grow_spec (hL : L.Ok) (hp : Pages L c) (hs : c.highWater < growingBit)
    (hb : requestedBytes < 2 ^ 63) (hf : v = .fair → 1 ≤ fuel) :
    (grow L requestedBytes fuel).wp v t (fun r c' => Grown L c c' ∧
      (r = .ok () ∧ c.highWater < c'.highWater ∨
        ∃ e, r = .error e ∧ Shortage v (L.blockCount ≤ c.highWater) e)) c := by
  cases fuel with
  | zero =>
    cases v with
    | fair => exact absurd (hf rfl) (by decide)
    | any => exact rfl
  | succ fuel =>
    have hpages : c.pages = c.highWater := Nat.mod_eq_of_lt hs
    have hbs := hL.block_bound
    have hcb := hL.count_bound
    have hu : u64Bound = 2 ^ 64 := rfl
    have hg : growingBit = 2 ^ 63 := rfl
    rw [grow, wp_bind, wp_loadHighWater, andThen_ok, if_neg (by omega)]
    by_cases hfull : c.highWater ≥ L.blockCount
    · rw [if_pos hfull, wp_throw]
      exact ⟨.refl hp hs, Or.inr ⟨_, rfl, Or.inl ⟨rfl, hfull⟩⟩⟩
    · rw [if_neg hfull, checkedAdd_of_lt (by omega), okOr_some, wp_bind, wp_ofExcept, andThen_ok]
      generalize (requestedBytes + (L.blockSize - 1)) / L.blockSize = q
      have hn : 0 < min (max q 1) (L.blockCount - c.highWater) := by omega
      have hn' : min (max q 1) (L.blockCount - c.highWater) ≤ L.blockCount - c.highWater :=
        Nat.min_le_right _ _
      generalize min (max q 1) (L.blockCount - c.highWater) = n at hn hn'
      simp only
      rw [checkedAdd_of_lt (by omega), okOr_some, wp_bind, wp_ofExcept, andThen_ok, wp_bind,
        wp_casHighWater, if_pos rfl, andThen_ok, if_pos rfl, wp_bind, wp_attempt]
      refine wp_mono (growFiles_spec hL rfl (by omega) hp.lengths) ?_
      rintro r c' ⟨hext, hr⟩
      have hhw : c'.highWater = c.highWater + growingBit := by rw [hext.eq]
      rw [andThen_ok, wp_bind, wp_casHighWater, if_pos hhw, andThen_ok, if_pos rfl, wp_ofExcept]
      obtain ⟨rfl, hcl, hdl⟩ | ⟨rfl, hv⟩ := hr
      · have hle : c.highWater + n ≤ L.blockCount := by omega
        have hge : c.pages ≤ c.highWater + n := by omega
        refine ⟨⟨?_, ?_, ?_⟩, Or.inl ⟨rfl, ?_⟩⟩
        · rw [hext.eq]
        · rw [hext.eq]
          exact hp.grow hge hle hL hcl hdl hext.lengths
        · change c.highWater + n < growingBit
          omega
        · change c.highWater < c.highWater + n
          omega
      · refine ⟨⟨?_, ?_, hs⟩, Or.inr ⟨_, rfl, Or.inr ⟨hv, rfl⟩⟩⟩
        · rw [hext.eq]
        · have hle := hp.pages_le
          have hge := Nat.le_of_eq hpages
          have hc1 := hp.counts_mapped
          have hc2 := hp.data_mapped
          rw [hpages] at hc1 hc2 hle
          rw [hext.eq]
          exact hp.grow hge hle hL (Nat.le_trans hc1 hext.counts_le)
            (Nat.le_trans hc2 hext.data_le) hext.lengths

theorem loadCounts_spec (n i : Nat) {Q : Except Error (List Nat) → Cells → Prop} :
    (loadCounts n i).wp v t Q c ↔ Q (.ok ((List.range' i n).map c.counts)) c := by
  induction n generalizing i Q with
  | zero => exact Iff.rfl
  | succ n ih =>
    rw [loadCounts, wp_bind, wp_atomic]
    simp only [Option.some.injEq, Prod.mk.injEq, exists_eq_left', and_assoc, exists_and_left,
      andThen_ok]
    rw [wp_bind, ih]
    rfl

theorem countSnapshot_spec (hL : L.Ok) (hp : Pages L c) {n : Nat} (hn : n ≤ c.pages)
    {Q : Except Error (List Nat) → Cells → Prop} :
    (countSnapshot n).wp v t Q c ↔ Q (.ok ((List.range n).map c.counts)) c := by
  have h1 := hp.pages_le
  have h2 := hL.count_bound
  have h3 := hp.counts_mapped
  have h4 : u64Bound = 2 ^ 64 := rfl
  have h5 : countsStart = 65536 := rfl
  have hr : checkedRange c.countsLength countsStart (n * 2) = .ok () := by
    rw [checkedRange, checkedAdd_of_lt (by omega), okOr_some, ok_bind, if_neg (by omega)]
  rw [countSnapshot, checkedMul_of_lt (by omega), okOr_some, wp_bind, wp_ofExcept, andThen_ok,
    wp_bind, wp_atomic]
  simp only [hr, Option.some.injEq, Prod.mk.injEq, exists_eq_left', and_assoc, exists_and_left,
    andThen_ok]
  rw [loadCounts_spec, List.range_eq_range']

theorem nextBlockValue_spec (hs : c.highWater < growingBit) (hf : v = .fair → 1 ≤ fuel)
    {Q : Except Error Nat → Cells → Prop} (hQ : Q (.ok c.highWater) c) :
    (nextBlockValue fuel).wp v t Q c := by
  cases fuel with
  | zero =>
    cases v with
    | fair => exact absurd (hf rfl) (by decide)
    | any => exact rfl
  | succ fuel =>
    rw [nextBlockValue, wp_bind, wp_loadHighWater, andThen_ok, if_pos hs, wp_pure]
    exact hQ

theorem getD_counts (counts : Nat → Nat) {n i : Nat} (hi : i < n) :
    ((List.range n).map counts).getD i 0 = counts i := by
  simp [List.getD, hi]

theorem Pages.counts_beyond (hp : Pages L c) {p : Nat} (h : c.pages ≤ p) : c.counts p = 0 := by
  have hne : c.counts p ≠ claimed := fun hc => absurd (hp.claimed_lt p hc) (by omega)
  rw [hp.counted p hne, liveIn, List.countP_eq_zero]
  intro x hx
  have := (hp.fits x hx).2
  simp only [decide_eq_true_eq]
  omega

/-- One pass over the counts when a page counts nothing: it is claimed. -/
theorem claimPage_free (hL : L.Ok) (hp : Pages L c) (hs : c.highWater < growingBit)
    (hnone : ∀ p, c.counts p ≠ claimed) (hfree : ∃ p < c.pages, c.counts p = 0)
    (hf : v = .fair → 1 ≤ fuel) :
    (claimPage L requestedBytes fuel).wp v t (fun r c' => ∃ b, r = .ok b ∧ b < c.pages ∧
      c.counts b = 0 ∧ c' = c.setCount b claimed) c := by
  cases fuel with
  | zero =>
    cases v with
    | fair => exact absurd (hf rfl) (by decide)
    | any => exact rfl
  | succ fuel =>
    have hpages : c.pages = c.highWater := Nat.mod_eq_of_lt hs
    obtain ⟨p, hlt, hz⟩ := hfree
    rw [claimPage, wp_bind]
    refine nextBlockValue_spec hs (fun _ => Nat.le_add_left _ _) ?_
    rw [andThen_ok, wp_bind, countSnapshot_spec hL hp (by omega), andThen_ok]
    have hnone' : ∀ j, ((List.range c.highWater).map c.counts).getD j 0 ≠ claimed := by
      intro j
      by_cases hj : j < c.highWater
      · rw [getD_counts _ hj]
        exact hnone j
      · simp [List.getD, hj, claimed]
    have hlt' : p < c.highWater := by omega
    have hlen : p < ((List.range c.highWater).map c.counts).length := by simpa using hlt'
    obtain ⟨b, hb⟩ := longestZeroRun_found hlen (by rwa [getD_counts _ hlt']) hnone'
    obtain ⟨hbl, hbz⟩ := longestZeroRun_zero hb
    have hbl' : b < c.highWater := by simpa using hbl
    rw [getD_counts _ hbl'] at hbz
    simp only [hb]
    rw [wp_bind, wp_casCount hp hL (by omega), if_pos hbz, andThen_ok, if_pos rfl, wp_pure]
    exact ⟨b, rfl, by omega, hbz, rfl⟩

/-- Without a marked page, a page that counts nothing is found or added, and marked. -/
theorem claimPage_spec (hL : L.Ok) (hp : Pages L c) (hs : c.highWater < growingBit)
    (hnone : ∀ p, c.counts p ≠ claimed) (hb : requestedBytes < 2 ^ 63)
    (hf : v = .fair → 2 ≤ fuel) :
    (claimPage L requestedBytes fuel).wp v t (fun r c' => ∃ d, Grown L c d ∧
      ((∃ b, r = .ok b ∧ b < d.pages ∧ d.counts b = 0 ∧ c' = d.setCount b claimed) ∨
        ∃ e, r = .error e ∧ c' = d ∧
          Shortage v (L.blockCount ≤ c.pages ∧ ∀ p < c.pages, c.counts p ≠ 0) e)) c := by
  by_cases hfree : ∃ p < c.pages, c.counts p = 0
  · refine wp_mono (claimPage_free hL hp hs hnone hfree fun hv => Nat.le_of_succ_le (hf hv)) ?_
    rintro r c' ⟨b, rfl, hlt, hz, rfl⟩
    exact ⟨c, .refl hp hs, Or.inl ⟨b, rfl, hlt, hz, rfl⟩⟩
  · cases fuel with
    | zero =>
      cases v with
      | fair => exact absurd (hf rfl) (by decide)
      | any => exact rfl
    | succ fuel =>
      have hpages : c.pages = c.highWater := Nat.mod_eq_of_lt hs
      have hscan : longestZeroRun ((List.range c.highWater).map c.counts) = none := by
        cases hrun : longestZeroRun ((List.range c.highWater).map c.counts) with
        | none => rfl
        | some b =>
          obtain ⟨hbl, hbz⟩ := longestZeroRun_zero hrun
          have hbl' : b < c.highWater := by simpa using hbl
          rw [getD_counts _ hbl'] at hbz
          exact absurd ⟨b, by omega, hbz⟩ hfree
      rw [claimPage, wp_bind]
      refine nextBlockValue_spec hs (fun _ => Nat.le_add_left _ _) ?_
      rw [andThen_ok, wp_bind, countSnapshot_spec hL hp (by omega), andThen_ok]
      simp only [hscan]
      rw [wp_bind]
      refine wp_mono (grow_spec hL hp hs hb fun _ => Nat.le_add_left _ _) ?_
      rintro r d ⟨hgrown, ⟨rfl, hlt⟩ | ⟨e, rfl, he⟩⟩
      · have hcounts : d.counts = c.counts := by rw [hgrown.eq]
        have hdp : d.pages = d.highWater := Nat.mod_eq_of_lt hgrown.settled
        rw [andThen_ok]
        refine wp_mono (claimPage_free hL hgrown.pages hgrown.settled ?_
          ⟨c.highWater, by omega, ?_⟩ fun hv => Nat.le_of_succ_le_succ (hf hv)) ?_
        · rw [hcounts]
          exact hnone
        · rw [hcounts]
          exact hp.counts_beyond (by omega)
        · rintro r c' ⟨b, rfl, hlt, hz, rfl⟩
          exact ⟨d, hgrown, Or.inl ⟨b, rfl, hlt, hz, rfl⟩⟩
      · rw [andThen_error]
        refine ⟨d, hgrown, Or.inr ⟨e, rfl, rfl, he.mono fun hfull => ⟨by omega, ?_⟩⟩⟩
        exact fun p hp hz => hfree ⟨p, hp, hz⟩

end Claim

end FlorestaDb.Allocator
