import FlorestaDb.Allocator
import FlorestaDb.Lib.Word
import Mathlib.Data.List.Pairwise

/-! The page bookkeeping of the allocator: what the counts, the unfinished page and
the live allocations have to do with one another, and that each commit keeps it. -/
namespace FlorestaDb.Allocator
open Program Program.Prog

section Word
variable {state : CurrentState} {used live : Nat} {word : UInt64}

theorem code_toNat (state : CurrentState) : state.code.toNat ≤ 2 := by
  cases state <;> decide

theorem packCurrent_toNat (hl : live < 2 ^ 16) (h : packCurrent state used live = .ok word) :
    word.toNat = state.code.toNat * 2 ^ 56 + live * 2 ^ 32 + used ∧ used < 2 ^ 32 := by
  unfold packCurrent at h
  split at h
  · rename_i hu
    cases h
    have hs := code_toNat state
    have h1 : (state.code <<< 56).toNat = state.code.toNat * 2 ^ 56 :=
      Word.toNat_shiftLeft _ _ (by decide) (by change state.code.toNat * 2 ^ 56 < _; omega)
    have hn : (UInt64.ofNat live).toNat = live := Word.toNat_ofNat_of_lt (by omega)
    have h2 : (UInt64.ofNat live <<< 32).toNat = live * 2 ^ 32 := by
      rw [Word.toNat_shiftLeft _ _ (by decide) (by rw [hn]; change live * 2 ^ 32 < _; omega), hn]
      rfl
    have h3 : (UInt64.ofNat used).toNat = used := Word.toNat_ofNat_of_lt (by omega)
    have h4 := Word.toNat_or_disjoint _ _ 56 _ h1 (by rw [h2]; omega)
    rw [h2] at h4
    have h5 : state.code.toNat * 2 ^ 56 + live * 2 ^ 32 =
        (state.code.toNat * 2 ^ 24 + live) * 2 ^ 32 := by omega
    have h6 := Word.toNat_or_disjoint _ _ 32 _ (h4.trans h5) (by rw [h3]; exact hu)
    rw [h3, ← h5] at h6
    exact ⟨h6, hu⟩
  · cases h

theorem currentUsed_pack (hl : live < 2 ^ 16) (h : packCurrent state used live = .ok word) :
    currentUsed word = used := by
  obtain ⟨hw, hu⟩ := packCurrent_toNat hl h
  rw [currentUsed, Word.toNat_and_mask _ _ 32 (by decide), hw]
  omega

theorem currentLive_pack (hl : live < 2 ^ 16) (h : packCurrent state used live = .ok word) :
    currentLive word = live := by
  obtain ⟨hw, hu⟩ := packCurrent_toNat hl h
  rw [currentLive, Word.toNat_field _ _ _ 16 (by decide) (by decide), hw]
  change _ / 2 ^ 32 % 2 ^ 16 = live
  omega

theorem currentState_pack (hl : live < 2 ^ 16) (h : packCurrent state used live = .ok word) :
    currentState word = .ok state := by
  obtain ⟨hw, hu⟩ := packCurrent_toNat hl h
  have hc : (word >>> 56).toNat = state.code.toNat := by
    rw [Word.toNat_shiftRight _ _ (by decide), hw]
    change _ / 2 ^ 56 = _
    omega
  rw [currentState, hc]
  cases state <;> rfl

theorem packCurrent_ok (state : CurrentState) (live : Nat) (hu : used < 2 ^ 32) :
    ∃ word, packCurrent state used live = .ok word := by
  rw [packCurrent, if_pos hu]
  exact ⟨_, rfl⟩

end Word

/-- What a layout accepted by `validate_layout` promises. -/
structure Layout.Ok (L : Layout) : Prop where
  block_min : formatPageSize ≤ L.blockSize
  block_pow : ∃ k, L.blockSize = 2 ^ k
  block_bound : L.blockSize ≤ 2 ^ 31
  count_pos : 0 < L.blockCount
  count_bound : L.blockCount < 2 ^ 32
  capacity_eq : L.capacity = L.blockCount * L.blockSize

theorem Layout.ok_of_validate {capacity blockSize : Nat}
    (h : validateLayout capacity blockSize = .ok ()) :
    Layout.Ok ⟨capacity, blockSize, capacity / blockSize⟩ := by
  simp only [validateLayout, guard_ok, not_or, Bool.not_eq_eq_eq_not, Bool.not_true,
    Bool.not_eq_false] at h
  obtain ⟨⟨h1, h2, h3⟩, ⟨h4, h5⟩, ⟨h6, h7⟩, -⟩ := h
  obtain ⟨k, hk⟩ := isPowerOfTwo_exists (by simpa using h3)
  refine ⟨Nat.not_lt.mp h2, ⟨k, hk⟩, ?_, Nat.pos_of_ne_zero h6,
    Nat.lt_of_le_of_lt (Nat.not_lt.mp h7) (by decide), ?_⟩
  · have hlt : 2 ^ k < 2 ^ 32 := by omega
    have hk31 : k ≤ 31 := by
      have := (Nat.pow_lt_pow_iff_right (by decide : 1 < 2)).mp hlt
      omega
    simp only [hk]
    exact Nat.pow_le_pow_right (by decide) hk31
  · simp only
    have := Nat.div_add_mod capacity blockSize
    rw [Nat.mul_comm] at this
    omega

variable {L : Layout}

theorem Layout.Ok.block_pos (hL : L.Ok) : 0 < L.blockSize :=
  Nat.lt_of_lt_of_le (by decide) hL.block_min

/-- All addresses of the mapping stay below the growing flag. -/
theorem Layout.Ok.page_bound (hL : L.Ok) {p : Nat} (hp : p ≤ L.blockCount) :
    dataStart + p * L.blockSize < 2 ^ 63 := by
  have h1 : p * L.blockSize ≤ (2 ^ 32 - 1) * 2 ^ 31 :=
    Nat.mul_le_mul (by have := hL.count_bound; omega) hL.block_bound
  have h2 : dataStart = 65536 := rfl
  omega

def pageStart (L : Layout) (page : Nat) : Nat := dataStart + page * L.blockSize

theorem pageStart_succ (L : Layout) (page : Nat) :
    pageStart L (page + 1) = pageStart L page + L.blockSize := by
  simp only [pageStart, Nat.succ_mul]
  omega

theorem pageStart_mono (L : Layout) {p q : Nat} (h : p ≤ q) : pageStart L p ≤ pageStart L q := by
  have := Nat.mul_le_mul_right L.blockSize h
  simp only [pageStart]
  omega

/-- A nonempty allocation inside the page it names. -/
structure Allocation.Fits (L : Layout) (x : Allocation) : Prop where
  length_pos : 0 < x.length
  start_le : pageStart L x.block ≤ x.offset
  end_le : x.offset + x.length ≤ pageStart L (x.block + 1)

def Apart (x y : Allocation) : Prop :=
  x.offset + x.length ≤ y.offset ∨ y.offset + y.length ≤ x.offset

theorem Apart.symm {x y : Allocation} (h : Apart x y) : Apart y x := Or.symm h

theorem apart_of_block_ne {x y : Allocation} (hx : x.Fits L) (hy : y.Fits L)
    (h : x.block ≠ y.block) : Apart x y := by
  have h1 := hx.end_le
  have h2 := hy.start_le
  have h3 := hy.end_le
  have h4 := hx.start_le
  rcases Nat.lt_or_gt_of_ne h with hlt | hgt
  · have := pageStart_mono L (show x.block + 1 ≤ y.block from hlt)
    exact Or.inl (by omega)
  · have := pageStart_mono L (show y.block + 1 ≤ x.block from hgt)
    exact Or.inr (by omega)

def liveIn (live : List Allocation) (page : Nat) : Nat := live.countP (·.block = page)

/-- Published pages; the growing flag is not a page. -/
def Cells.pages (c : Cells) : Nat := c.highWater % growingBit

/-- The lengths of the two files: whole format pages, inside the reserved mappings. -/
structure Lengths (L : Layout) (countsLength dataLength : Nat) : Prop where
  counts_aligned : countsLength % 65536 = 0
  counts_le : countsLength ≤ (L.blockCount * 2 + countsStart + 65535) / 65536 * 65536
  data_aligned : dataLength % 65536 = 0
  data_le : dataLength ≤ pageStart L L.blockCount

theorem lengths_created (L : Layout) : Lengths L countsStart dataStart where
  counts_aligned := by decide
  counts_le := by
    have h1 : countsStart = 65536 := rfl
    omega
  data_aligned := by decide
  data_le := Nat.le_add_right _ _

/- Page bookkeeping that holds between any two atomic steps, whoever holds the guard:
   a page without the claimed mark counts exactly its live allocations. -/
structure Pages (L : Layout) (c : Cells) : Prop where
  fits : ∀ x ∈ c.live, x.Fits L ∧ x.block < c.pages
  apart : c.live.Pairwise Apart
  counted : ∀ p, c.counts p ≠ claimed → c.counts p = liveIn c.live p
  count_le : ∀ p, c.counts p ≤ claimed
  claimed_lt : ∀ p, c.counts p = claimed → p < c.pages
  claimed_one : ∀ p q, c.counts p = claimed → c.counts q = claimed → p = q
  pages_le : c.pages ≤ L.blockCount
  counts_mapped : countsStart + 2 * c.pages ≤ c.countsLength
  data_mapped : pageStart L c.pages ≤ c.dataLength
  lengths : Lengths L c.countsLength c.dataLength

/-- The open page `b`: its cursor and live count are those of the packed word. -/
structure OpenPage (L : Layout) (c : Cells) (b used live : Nat) : Prop where
  block : c.currentBlock = b + 1
  marked : c.counts b = claimed
  word : packCurrent .opened used live = .ok c.currentWord
  used_le : used ≤ L.blockSize
  live_eq : live = liveIn c.live b
  live_le : live ≤ maxLive
  below : ∀ x ∈ c.live, x.block = b → x.offset + x.length ≤ pageStart L b + used

/-- The pairing that the guard protects: no page is open, or exactly one is. -/
inductive Current (L : Layout) (c : Cells) : Prop where
  | closed (block : c.currentBlock = 0) (unmarked : ∀ p, c.counts p ≠ claimed)
  | opened (b used live : Nat) (h : OpenPage L c b used live)

/-- The state between two calls of one thread. -/
structure Quiet (L : Layout) (c : Cells) : Prop where
  pages : Pages L c
  current : Current L c
  unlocked : c.guard = RwLock.free
  settled : c.highWater < growingBit

theorem Quiet.pages_eq {c : Cells} (h : Quiet L c) : c.pages = c.highWater :=
  Nat.mod_eq_of_lt h.settled

theorem quiet_created (L : Layout) : Quiet L Cells.created where
  pages := by
    refine ⟨by simp [Cells.created], by simp [Cells.created], ?_, ?_, ?_, ?_, ?_, ?_, ?_, ?_⟩
    · intro p _
      rfl
    · intro p
      simp [Cells.created]
    · intro p h
      simp [Cells.created, claimed] at h
    · intro p q h
      simp [Cells.created, claimed] at h
    · simp [Cells.created, Cells.pages]
    · simp [Cells.created, Cells.pages]
    · simp [Cells.created, Cells.pages, pageStart]
    · exact lengths_created L
  current := .closed rfl (by simp [Cells.created, claimed])
  unlocked := rfl
  settled := by decide

theorem liveIn_append (xs ys : List Allocation) (p : Nat) :
    liveIn (xs ++ ys) p = liveIn xs p + liveIn ys p := by
  simp [liveIn, List.countP_append]

theorem liveIn_erase {live : List Allocation} {x : Allocation} (hx : x ∈ live) (p : Nat) :
    liveIn (live.erase x) p = if x.block = p then liveIn live p - 1 else liveIn live p := by
  have hp := (List.perm_cons_erase hx).countP_eq (fun y => decide (y.block = p))
  simp only [liveIn]
  rw [hp, List.countP_cons]
  by_cases hb : x.block = p <;> simp [hb]

theorem liveIn_pos {live : List Allocation} {x : Allocation} (hx : x ∈ live) :
    0 < liveIn live x.block := by
  simp only [liveIn, List.countP_pos_iff]
  exact ⟨x, hx, by simp⟩

theorem liveIn_zero {live : List Allocation} {p : Nat} (h : liveIn live p = 0) :
    ∀ x ∈ live, x.block ≠ p := by
  intro x hx hb
  have := liveIn_pos hx
  rw [hb] at this
  omega

instance : Std.Symm Apart := ⟨fun _ _ h => h.symm⟩

theorem Pages.apart_of_ne {c : Cells} (hp : Pages L c) {x y : Allocation}
    (hx : x ∈ c.live) (hy : y ∈ c.live) (hne : x ≠ y) : Apart x y :=
  hp.apart.forall hx hy hne

theorem Pages.not_apart_self {c : Cells} (hp : Pages L c) {x : Allocation} (hx : x ∈ c.live) :
    ¬Apart x x := by
  have := (hp.fits x hx).1.length_pos
  rintro (h | h) <;> omega

theorem Pages.nodup {c : Cells} (hp : Pages L c) : c.live.Nodup := by
  refine hp.apart.imp_of_mem ?_
  intro x y hx _ hxy heq
  subst heq
  exact hp.not_apart_self hx hxy

/-- What was just added to the live allocations was not live before. -/
theorem Pages.fresh_not_mem {c : Cells} (hp : Pages L c) {x : Allocation} {live : List Allocation}
    (h : c.live = x :: live) : x ∉ live := by
  have := hp.nodup
  rw [h] at this
  exact (List.nodup_cons.mp this).1

theorem mem_erase_live {c : Cells} (hp : Pages L c) (x y : Allocation) :
    y ∈ c.live.erase x ↔ y ≠ x ∧ y ∈ c.live := hp.nodup.mem_erase_iff

section Commit
variable {c : Cells}

/-- A release on the open page: one live allocation fewer in the word. -/
theorem Quiet.release_open (hq : Quiet L c) {b used live : Nat} (ho : OpenPage L c b used live)
    {x : Allocation} (hx : x ∈ c.live) (hb : x.block = b) {word : UInt64}
    (hw : packCurrent .opened used (live - 1) = .ok word) :
    Quiet L { c with currentWord := word, live := c.live.erase x } where
  pages := by
    have hp := hq.pages
    refine ⟨fun y hy => hp.fits y (List.mem_of_mem_erase hy),
      hp.apart.sublist (List.erase_sublist), ?_, hp.count_le, hp.claimed_lt, hp.claimed_one,
      hp.pages_le,
      hp.counts_mapped, hp.data_mapped, hp.lengths⟩
    intro p hc
    have hpb : x.block ≠ p := by
      rintro rfl
      exact hc (hb ▸ ho.marked)
    simpa [liveIn_erase hx, hpb] using hp.counted p hc
  current := by
    refine .opened b used (live - 1) ⟨ho.block, ho.marked, hw, ho.used_le, ?_, ?_, ?_⟩
    · simp [liveIn_erase hx, hb, ho.live_eq]
    · have := ho.live_le
      omega
    · intro y hy
      exact ho.below y (List.mem_of_mem_erase hy)
  unlocked := hq.unlocked
  settled := hq.settled

/-- A release on a sealed page: its count goes down with its live allocations. -/
theorem Pages.release_sealed (hp : Pages L c) {x : Allocation} (hx : x ∈ c.live)
    (hc : c.counts x.block ≠ claimed) :
    Pages L { c.setCount x.block (c.counts x.block - 1) with live := c.live.erase x } := by
  have hpos := liveIn_pos hx
  have hcount := hp.counted _ hc
  refine ⟨fun y hy => hp.fits y (List.mem_of_mem_erase hy),
    hp.apart.sublist (List.erase_sublist), ?_, ?_, ?_, ?_, hp.pages_le, hp.counts_mapped,
    hp.data_mapped, hp.lengths⟩
  · intro p hne
    by_cases hpb : p = x.block
    · subst hpb
      simp [Cells.setCount, liveIn_erase hx, hcount]
    · simp only [Cells.setCount, Function.update_of_ne hpb] at hne ⊢
      rw [hp.counted p hne, liveIn_erase hx, if_neg (Ne.symm hpb)]
  · intro p
    have hle := hp.count_le
    by_cases hpb : p = x.block
    · subst hpb
      have := hle x.block
      simp only [Cells.setCount, Function.update_self]
      omega
    · simpa only [Cells.setCount, Function.update_of_ne hpb] using hle p
  · intro p h
    by_cases hpb : p = x.block
    · rw [hpb]
      exact (hp.fits x hx).2
    · simp only [Cells.setCount, Function.update_of_ne hpb] at h
      exact hp.claimed_lt p h
  · intro p q h1 h2
    have key : ∀ r, (Function.update c.counts x.block (c.counts x.block - 1)) r = claimed →
        c.counts r = claimed := by
      intro r hr
      by_cases hrb : r = x.block
      · subst hrb
        rw [Function.update_self] at hr
        have := hp.count_le x.block
        omega
      · rwa [Function.update_of_ne hrb] at hr
    exact hp.claimed_one p q (key p h1) (key q h2)

/-- A release on a sealed page leaves the current page as it is. -/
theorem Quiet.release_sealed_current (hq : Quiet L c) {x : Allocation} (hx : x ∈ c.live)
    (hc : c.counts x.block ≠ claimed) :
    Current L { c.setCount x.block (c.counts x.block - 1) with live := c.live.erase x } := by
  have hle := hq.pages.count_le x.block
  cases hq.current with
  | closed hb hnone =>
    refine .closed hb ?_
    intro p
    by_cases hpb : p = x.block
    · subst hpb
      simp only [Cells.setCount, Function.update_self]
      omega
    · simp only [Cells.setCount, Function.update_of_ne hpb]
      exact hnone p
  | opened b used live ho =>
    have hbx : x.block ≠ b := fun h => hc (h ▸ ho.marked)
    refine .opened b used live ⟨ho.block, ?_, ho.word, ho.used_le, ?_, ho.live_le, ?_⟩
    · simp only [Cells.setCount, Function.update_of_ne (Ne.symm hbx)]
      exact ho.marked
    · rw [liveIn_erase hx, if_neg hbx]
      exact ho.live_eq
    · intro y hy
      exact ho.below y (List.mem_of_mem_erase hy)

/-- The part of a reservation that lies in the page: `count` pieces of `length` bytes,
`stride` apart, from `start` up to `last`. -/
structure Carved (L : Layout) (batch : AllocationBatch) (start last : Nat) : Prop where
  offset : batch.offset = pageStart L batch.block + start
  length_pos : 0 < batch.length
  length_le : batch.length ≤ batch.stride
  count_pos : 0 < batch.count
  last_eq : last = start + (batch.count - 1) * batch.stride + batch.length
  last_le : last ≤ L.blockSize

section Carve
variable {batch : AllocationBatch} {start last : Nat}

theorem mem_allocations {x : Allocation} (hx : x ∈ batch.allocations) :
    ∃ i < batch.count, x = ⟨batch.offset + i * batch.stride, batch.length, batch.block⟩ := by
  simp only [AllocationBatch.allocations, List.mem_map, List.mem_range] at hx
  obtain ⟨i, hi, rfl⟩ := hx
  exact ⟨i, hi, rfl⟩

theorem Carved.bounds (h : Carved L batch start last) {x : Allocation}
    (hx : x ∈ batch.allocations) :
    x.block = batch.block ∧ x.length = batch.length ∧
      pageStart L batch.block + start ≤ x.offset ∧
      x.offset + x.length ≤ pageStart L batch.block + last := by
  obtain ⟨i, hi, rfl⟩ := mem_allocations hx
  have hmul : i * batch.stride ≤ (batch.count - 1) * batch.stride :=
    Nat.mul_le_mul_right _ (by omega)
  have h1 := h.offset
  have h2 := h.last_eq
  refine ⟨rfl, rfl, ?_, ?_⟩ <;> simp only <;> omega

theorem Carved.fits (h : Carved L batch start last) {x : Allocation}
    (hx : x ∈ batch.allocations) : x.Fits L := by
  obtain ⟨hb, hl, h1, h2⟩ := h.bounds hx
  have h3 := h.last_le
  have h4 := h.length_pos
  have h5 := pageStart_succ L batch.block
  refine ⟨by omega, ?_, ?_⟩ <;> rw [hb] <;> omega

theorem Carved.apart (h : Carved L batch start last) : batch.allocations.Pairwise Apart := by
  rw [AllocationBatch.allocations, List.pairwise_map]
  refine List.pairwise_lt_range.imp ?_
  intro i j hij
  have hmul : (i + 1) * batch.stride ≤ j * batch.stride := Nat.mul_le_mul_right _ hij
  have h1 := h.length_le
  rw [Nat.succ_mul] at hmul
  refine Or.inl ?_
  simp only
  omega

theorem Carved.liveIn (h : Carved L batch start last) (p : Nat) :
    liveIn batch.allocations p = if batch.block = p then batch.count else 0 := by
  have hall : ∀ x ∈ batch.allocations, x.block = batch.block := fun x hx => (h.bounds hx).1
  have hlen : batch.allocations.length = batch.count := by simp [AllocationBatch.allocations]
  by_cases hp : batch.block = p
  · rw [if_pos hp, Allocator.liveIn, List.countP_eq_length.mpr, hlen]
    intro x hx
    simp [hall x hx, hp]
  · rw [if_neg hp, Allocator.liveIn, List.countP_eq_zero]
    intro x hx
    simp [hall x hx, hp]

end Carve

/-- A reservation on the open page. -/
theorem Pages.reserve (hp : Pages L c) {b used live : Nat} (ho : OpenPage L c b used live)
    {batch : AllocationBatch} {start last : Nat} (hc : Carved L batch start last)
    (hb : batch.block = b) (hs : used ≤ start) (word : UInt64) :
    Pages L { c with currentWord := word, live := batch.allocations ++ c.live } := by
  refine ⟨?_, ?_, ?_, hp.count_le, hp.claimed_lt, hp.claimed_one, hp.pages_le,
    hp.counts_mapped, hp.data_mapped, hp.lengths⟩
  · intro x hx
    rcases List.mem_append.mp hx with hx | hx
    · refine ⟨hc.fits hx, ?_⟩
      rw [(hc.bounds hx).1, hb]
      exact hp.claimed_lt b ho.marked
    · exact hp.fits x hx
  · refine List.pairwise_append.mpr ⟨hc.apart, hp.apart, ?_⟩
    intro x hx y hy
    by_cases hyb : y.block = b
    · have h1 := ho.below y hy hyb
      have h2 := (hc.bounds hx).2.2.1
      rw [hb] at h2
      exact Or.inr (by omega)
    · refine apart_of_block_ne (hc.fits hx) (hp.fits y hy).1 ?_
      rw [(hc.bounds hx).1, hb]
      exact Ne.symm hyb
  · intro p hne
    have hpb : b ≠ p := by
      rintro rfl
      exact hne ho.marked
    rw [liveIn_append, hc.liveIn, if_neg (hb ▸ hpb), Nat.zero_add]
    exact hp.counted p hne

theorem OpenPage.reserve {b used live : Nat} (ho : OpenPage L c b used live)
    {batch : AllocationBatch} {start last : Nat} (hc : Carved L batch start last)
    (hb : batch.block = b) (hs : used ≤ start) (hlive : live + batch.count ≤ maxLive)
    {word : UInt64} (hw : packCurrent .opened last (live + batch.count) = .ok word) :
    OpenPage L { c with currentWord := word, live := batch.allocations ++ c.live } b last
      (live + batch.count) := by
  refine ⟨ho.block, ho.marked, hw, hc.last_le, ?_, hlive, ?_⟩
  · rw [liveIn_append, hc.liveIn, if_pos hb, ← ho.live_eq, Nat.add_comm]
  · intro x hx hxb
    rcases List.mem_append.mp hx with hx | hx
    · exact hb ▸ (hc.bounds hx).2.2.2
    · have h1 := ho.below x hx hxb
      have h2 := hc.last_eq
      omega

/-- Claiming a page that counts nothing. -/
theorem Pages.claim (hp : Pages L c) {b : Nat} (hb : b < c.pages) (hz : c.counts b = 0)
    (hnone : ∀ p, c.counts p ≠ claimed) : Pages L (c.setCount b claimed) := by
  refine ⟨hp.fits, hp.apart, ?_, ?_, ?_, ?_, hp.pages_le, hp.counts_mapped, hp.data_mapped, hp.lengths⟩
  · intro p hne
    by_cases hpb : p = b
    · subst hpb
      simp [Cells.setCount] at hne
    · simp only [Cells.setCount, Function.update_of_ne hpb] at hne ⊢
      exact hp.counted p hne
  · intro p
    by_cases hpb : p = b
    · subst hpb
      simp [Cells.setCount]
    · simpa only [Cells.setCount, Function.update_of_ne hpb] using hp.count_le p
  · intro p h
    by_cases hpb : p = b
    · exact hpb ▸ hb
    · simp only [Cells.setCount, Function.update_of_ne hpb] at h
      exact absurd h (hnone p)
  · have key : ∀ r, (c.setCount b claimed).counts r = claimed → r = b := by
      intro r hr
      by_contra hrb
      simp only [Cells.setCount, Function.update_of_ne hrb] at hr
      exact hnone r hr
    intro p q h1 h2
    rw [key p h1, key q h2]

theorem seal_unmarked (hp : Pages L c) {b n : Nat} (hm : c.counts b = claimed)
    (hle : n ≤ maxLive) (p : Nat) : (c.setCount b n).counts p ≠ claimed := by
  intro h
  by_cases hpb : p = b
  · subst hpb
    have : maxLive < claimed := by decide
    simp only [Cells.setCount, Function.update_self] at h
    omega
  · simp only [Cells.setCount, Function.update_of_ne hpb] at h
    exact hpb (hp.claimed_one p b h hm)

/-- Sealing the marked page with its exact live count. -/
theorem Pages.seal (hp : Pages L c) {b n : Nat} (hm : c.counts b = claimed)
    (hn : n = liveIn c.live b) (hle : n ≤ maxLive) : Pages L (c.setCount b n) := by
  have key := seal_unmarked hp hm hle
  refine ⟨hp.fits, hp.apart, ?_, ?_, fun p h => absurd h (key p), fun p _ h => absurd h (key p),
    hp.pages_le, hp.counts_mapped, hp.data_mapped, hp.lengths⟩
  · intro p _
    by_cases hpb : p = b
    · subst hpb
      simpa only [Cells.setCount, Function.update_self] using hn
    · simp only [Cells.setCount, Function.update_of_ne hpb]
      exact hp.counted p fun h => hpb (hp.claimed_one p b h hm)
  · intro p
    by_cases hpb : p = b
    · subst hpb
      have : maxLive < claimed := by decide
      simp only [Cells.setCount, Function.update_self]
      omega
    · simpa only [Cells.setCount, Function.update_of_ne hpb] using hp.count_le p

/-- A page is opened at cursor zero only when it holds no live allocation. -/
theorem OpenPage.fresh {b : Nat} {word : UInt64} (hblock : c.currentBlock = b + 1)
    (hm : c.counts b = claimed) (hword : c.currentWord = word)
    (hw : packCurrent .opened 0 0 = .ok word) (hz : liveIn c.live b = 0) :
    OpenPage L c b 0 0 :=
  ⟨hblock, hm, by rw [hw, hword], Nat.zero_le _, hz.symm, Nat.zero_le _,
    fun x hx hb => absurd hb (liveIn_zero hz x hx)⟩

/-- Publishing more pages; the files were extended first. -/
theorem Pages.grow (hp : Pages L c) {new : Nat} (hge : c.pages ≤ new) (hle : new ≤ L.blockCount)
    (hL : L.Ok) {cl dl : Nat} (hcl : countsStart + 2 * new ≤ cl) (hdl : pageStart L new ≤ dl)
    (hlen : Lengths L cl dl) :
    Pages L { c with highWater := new, countsLength := cl, dataLength := dl } := by
  have hnew : new % growingBit = new := by
    have h1 := hL.count_bound
    have h2 : growingBit = 2 ^ 63 := rfl
    exact Nat.mod_eq_of_lt (by omega)
  refine ⟨?_, hp.apart, hp.counted, hp.count_le, ?_, hp.claimed_one, ?_, ?_, ?_, hlen⟩
  · intro x hx
    refine ⟨(hp.fits x hx).1, ?_⟩
    rw [Cells.pages, hnew]
    exact Nat.lt_of_lt_of_le (hp.fits x hx).2 hge
  · intro p h
    rw [Cells.pages, hnew]
    exact Nat.lt_of_lt_of_le (hp.claimed_lt p h) hge
  · rw [Cells.pages, hnew]
    exact hle
  · rw [Cells.pages, hnew]
    exact hcl
  · rw [Cells.pages, hnew]
    exact hdl

end Commit

end FlorestaDb.Allocator
