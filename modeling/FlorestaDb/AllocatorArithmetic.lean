import FlorestaDb.NodeSequential
import Mathlib.Order.Bounds.Defs

/-! The arithmetic of `allocate_batch`: the batch carved from a page is the largest that
fits, nothing overflows on the way, and the offsets it yields fit the packed pointers and
the tagged values. -/
namespace FlorestaDb
open Program Program.Prog

namespace Allocator

variable {L : Layout} {v : Env} {t : Tid} {c : Cells} {fuel : Nat}
  {length alignment stride requested maximumCount used live : Nat}

section Carve

/-- Rounding up gives the least multiple of the alignment. -/
theorem alignedStart_least (used : Nat) (hpos : 0 < alignment) :
    IsLeast {m | used ≤ m ∧ alignment ∣ m} (alignedStart used alignment) := by
  have hround := roundUp_bounds used hpos
  refine ⟨⟨hround.1, Nat.dvd_mul_left _ _⟩, ?_⟩
  rintro m ⟨hle, k, rfl⟩
  rw [alignedStart, Nat.mul_comm]
  apply Nat.mul_le_mul_left
  rw [← Nat.lt_succ_iff, Nat.div_lt_iff_lt_mul hpos, Nat.succ_mul, Nat.mul_comm k]
  omega

/-- Pieces of `length` bytes, `stride` apart from `start` on, that end inside the page. -/
def PiecesFit (L : Layout) (start length stride n : Nat) : Prop :=
  ∀ i < n, start + i * stride + length ≤ L.blockSize

theorem piecesFit_of_last {start n : Nat}
    (h : start + (n - 1) * stride + length ≤ L.blockSize) : PiecesFit L start length stride n := by
  intro i hi
  have hmul : i * stride ≤ (n - 1) * stride := Nat.mul_le_mul_right _ (by omega)
  omega

/-- The page is full exactly when not even one piece may be carved from it. -/
theorem carve_full (hfull : PageFull L used live length alignment) :
    IsGreatest {n | n ≤ min maximumCount (maxLive - live) ∧
      PiecesFit L (alignedStart used alignment) length stride n} 0 := by
  refine ⟨⟨Nat.zero_le _, fun i hi => absurd hi (Nat.not_lt_zero i)⟩, ?_⟩
  rintro n ⟨hle, hfit⟩
  rcases hfull with hspace | hmax
  · by_contra hpos
    have hfirst := hfit 0 (by omega)
    omega
  · omega

theorem carve_greatest (hpos : 0 < stride) (hcount : 0 < maximumCount) (hlive : live ≤ maxLive)
    (hL : L.Ok) (hroom : ¬PageFull L used live length alignment) :
    IsGreatest {n | n ≤ min maximumCount (maxLive - live) ∧
      PiecesFit L (alignedStart used alignment) length stride n}
      (carvedCount L used live length alignment stride
        (min (min maximumCount (2 ^ 32 - 1)) maxLive)) := by
  simp only [PageFull, not_or] at hroom
  have hmax : maxLive = 65534 := rfl
  have hbs := hL.block_bound
  have hfit : alignedStart used alignment + length ≤ L.blockSize := by omega
  have hreq : 0 < min (min maximumCount (2 ^ 32 - 1)) maxLive := by omega
  obtain ⟨hcarved, hsum, hlast⟩ := carvedCount_bounds stride hreq
    (Nat.lt_of_le_of_ne hlive hroom.2) hfit
  refine ⟨⟨?_, piecesFit_of_last (by omega)⟩, ?_⟩
  · rw [carvedCount]
    omega
  · rintro n ⟨hle, hpieces⟩
    by_cases hn : n = 0
    · omega
    · have hend := hpieces (n - 1) (by omega)
      have hdiv : n - 1 ≤ (L.blockSize - (alignedStart used alignment + length)) / stride := by
        rw [Nat.le_div_iff_mul_le hpos]
        omega
      have hle' : (L.blockSize - (alignedStart used alignment + length)) / stride ≤ 2 ^ 31 :=
        Nat.le_trans (Nat.div_le_self _ _) (by omega)
      rw [carvedCount]
      omega

end Carve

section Pass

/-- The arguments of a call that passes its checks. -/
theorem allocateBatch_request (hL : L.Ok) (hlength : 0 < length) (hfits : length ≤ L.blockSize)
    (hpow : isPowerOfTwo alignment = true) (hap : 0 < alignment) (hal : alignment ≤ L.blockSize)
    (hcount : 0 < maximumCount) :
    Request L length alignment (alignedStart length alignment)
      (min (min maximumCount (2 ^ 32 - 1)) maxLive) ∧
    alignedStart length alignment * min (min maximumCount (2 ^ 32 - 1)) maxLive < u64Bound ∧
    ∀ fuel, allocateBatch L fuel length alignment maximumCount =
      reserveLoop L length alignment (alignedStart length alignment)
        (min (min maximumCount (2 ^ 32 - 1)) maxLive)
        (alignedStart length alignment * min (min maximumCount (2 ^ 32 - 1)) maxLive) fuel := by
  have hbs := hL.block_bound
  have hu : u64Bound = 2 ^ 64 := rfl
  have hmax : maxLive = 65534 := rfl
  have hround : length ≤ alignedStart length alignment ∧
      alignedStart length alignment ≤ length + (alignment - 1) := roundUp_bounds length hap
  have halign : alignUp length alignment = some (alignedStart length alignment) :=
    alignUp_eq hpow hap (by omega)
  have hmul : alignedStart length alignment * min (min maximumCount (2 ^ 32 - 1)) maxLive ≤
      2 ^ 32 * 65534 := Nat.mul_le_mul (by omega) (by omega)
  refine ⟨⟨hlength, hfits, hpow, hap, hal, halign, by omega, by omega⟩, by omega, ?_⟩
  intro fuel
  have hgrowth := checkedMul_of_lt (show alignedStart length alignment *
    min (min maximumCount (2 ^ 32 - 1)) maxLive < u64Bound by omega)
  rw [allocateBatch, if_neg (by omega), if_neg (by rw [hpow]; simp; omega), halign]
  change (Prog.ofExcept (okOr (checkedMul (alignedStart length alignment)
    (min (min maximumCount (2 ^ 32 - 1)) maxLive)) _) >>= fun _ => _) = _
  rw [hgrowth]
  rfl

variable {b : Nat}

/-- A pass over a full page goes on with sealing it. -/
theorem reserveLoop_full (hL : L.Ok) (hg : c.guard = RwLock.free)
    (hblock : c.currentBlock = b + 1) (hb : b < L.blockCount)
    (hstate : currentState c.currentWord = .ok .opened)
    (hused : currentUsed c.currentWord ≤ L.blockSize) (hlive : currentLive c.currentWord ≤ maxLive)
    (hr : Request L length alignment stride requested)
    (hfull : PageFull L (currentUsed c.currentWord) (currentLive c.currentWord) length alignment)
    (growthBytes fuel : Nat) :
    (reserveLoop L length alignment stride requested growthBytes (fuel + 1)).run t c =
      (sealCurrentBlock L (b + 1) true (fuel + 1) >>= fun _ =>
        reserveLoop L length alignment stride requested growthBytes fuel).run t c := by
  have hpass : (withRead (reserveOnce L length alignment stride requested)).wp .fair t
      (fun r c' => r = .ok (.full (b + 1)) ∧ c' = c) c := by
    refine wp_withRead hg (wp_mono (reserveOnce_word hL hblock hb hstate rfl rfl hused hlive hr) ?_)
    rintro r c' (⟨-, rfl, rfl⟩ | ⟨hroom, -⟩)
    · exact ⟨rfl, rfl, by rw [← hg]⟩
    · exact absurd hfull hroom
  obtain ⟨_, _, hrun, rfl, rfl⟩ := run_of_wp hpass
  rw [reserveLoop, run_bind, hrun]

/-- A pass over a page with room carves a batch. -/
theorem reserveLoop_room (hL : L.Ok) (hg : c.guard = RwLock.free)
    (hblock : c.currentBlock = b + 1) (hb : b < L.blockCount)
    (hstate : currentState c.currentWord = .ok .opened)
    (hused : currentUsed c.currentWord ≤ L.blockSize) (hlive : currentLive c.currentWord ≤ maxLive)
    (hr : Request L length alignment stride requested)
    (hroom : ¬PageFull L (currentUsed c.currentWord) (currentLive c.currentWord) length alignment)
    (growthBytes fuel : Nat) :
    ∃ batch c', (reserveLoop L length alignment stride requested growthBytes (fuel + 1)).run t c =
        some (.ok batch, c') ∧
      Reserved L c c' b (currentUsed c.currentWord) (currentLive c.currentWord) length alignment
        stride requested batch := by
  have hpass : (withRead (reserveOnce L length alignment stride requested)).wp .fair t
      (fun r c' => ∃ batch, r = .ok (.reserved batch) ∧
        Reserved L c c' b (currentUsed c.currentWord) (currentLive c.currentWord) length alignment
          stride requested batch) c := by
    refine wp_withRead hg (wp_mono (reserveOnce_word hL hblock hb hstate rfl rfl hused hlive hr) ?_)
    rintro r c' (⟨hfull, -⟩ | ⟨-, batch, rfl, hres⟩)
    · exact absurd hfull hroom
    · obtain ⟨word, hword, rfl⟩ := hres.fresh
      refine ⟨rfl, batch, rfl, hres.carved, hres.block, hres.length_eq, hres.stride_eq,
        hres.count_eq, word, hword, ?_⟩
      simp only [← hg]
  obtain ⟨_, c', hrun, batch, rfl, hres⟩ := run_of_wp hpass
  refine ⟨batch, c', ?_, hres⟩
  rw [reserveLoop, run_bind, hrun]
  rfl

end Pass

/-- A piece of one of the pages of the layout. -/
structure InPages (L : Layout) (x : Allocation) : Prop where
  fits : x.Fits L
  block_lt : x.block < L.blockCount

theorem InPages.end_le {x : Allocation} (h : InPages L x) :
    x.offset + x.length ≤ pageStart L L.blockCount :=
  Nat.le_trans h.fits.end_le (pageStart_mono L h.block_lt)

end Allocator

section Offsets
open Allocator

variable {cfg : Config} {v : Env} {t : Tid} {s : Store}

theorem Allocator.InPages.node_offset (hv : cfg.Valid) {x : Allocation} (h : InPages cfg.bodyLayout x) :
    x.offset ≤ nodePointerMask.toNat := by
  have hend := h.end_le
  have hcap := hv.bodyLayout_ok.capacity_eq
  have hbound := hv.body_bound
  have hmask : nodePointerMask.toNat = 2 ^ 48 - 1 := rfl
  have hstart : dataStart = 65536 := rfl
  have hpages : pageStart cfg.bodyLayout cfg.bodyLayout.blockCount =
      dataStart + cfg.bodyCapacity := by
    rw [pageStart, ← hcap]
    rfl
  omega

theorem Allocator.InPages.blob_offset (hL : cfg.blobLayout.Ok) {x : Allocation}
    (h : InPages cfg.blobLayout x) : x.offset < 2 ^ 63 := by
  have hend := h.end_le
  have hbound := hL.page_bound (Nat.le_refl _)
  rw [pageStart] at hend
  omega

/-- What a next pointer can be: null, or the offset of a node. -/
def NodeLink (cfg : Config) (o : Nat) : Prop :=
  o = 0 ∨ ∃ x, InPages cfg.bodyLayout x ∧ x.offset = o

theorem NodeLink.le (hv : cfg.Valid) {o : Nat} (h : NodeLink cfg o) :
    o ≤ nodePointerMask.toNat := by
  rcases h with rfl | ⟨x, hx, rfl⟩
  · exact Nat.zero_le _
  · exact hx.node_offset hv

/-- The result is not the error of an exhausted capacity. -/
def Spared {α : Type} (r : Except Error α) : Prop := ∀ area, r ≠ .error (.capacityExhausted area)

theorem spared_ok {α : Type} (a : α) : Spared (.ok a : Except Error α) := fun _ h => by cases h

theorem spared_corrupt {α : Type} (message : String) :
    Spared (.error (.corrupt message) : Except Error α) := fun _ h => by cases h

theorem dataRange_spared (L : Layout) (c : Cells) (offset length : Nat) :
    Spared (dataRange L c offset length) := by
  cases hrange : dataRange L c offset length with
  | ok u => exact spared_ok u
  | error e =>
    obtain ⟨message, rfl⟩ := dataRange_error hrange
    exact spared_corrupt message

theorem Spared.error {α β : Type} {e : Error} (h : Spared (.error e : Except Error α)) :
    Spared (.error e : Except Error β) := by
  intro area heq
  cases heq
  exact h area rfl

/-- The atomic access and the load in front of an exchange of the pointer word. -/
theorem pointerAccess_spared {α : Type} (node : Nat) {f : UInt64 → StoreM α}
    (hf : ∀ word, (f word).wp v t (fun r _ => Spared r) s) :
    (pointerAtomic cfg node >>= fun _ => readPointerWord cfg node >>= f : StoreM α).wp v t
      (fun r _ => Spared r) s := by
  rw [wp_bind, pointerAtomic, wp_step]
  cases hrange : dataRange cfg.bodyLayout s.body (node + nodePointerOffset) 8 with
  | error e =>
    rw [error_bind, andThen_error]
    exact (hrange ▸ dataRange_spared cfg.bodyLayout s.body (node + nodePointerOffset) 8).error
  | ok u =>
    rw [ok_bind]
    by_cases halign : (node + nodePointerOffset) % 8 ≠ 0
    · rw [if_pos halign, andThen_error]
      exact spared_corrupt _
    · rw [if_neg halign, andThen_ok, wp_bind, readPointerWord]
      cases hadd : checkedAdd node nodePointerOffset with
      | none => exact spared_corrupt _
      | some offset =>
        have hoffset : offset = node + nodePointerOffset := by
          rw [checkedAdd] at hadd
          split at hadd
          · exact (Option.some.inj hadd).symm
          · cases hadd
        rw [okOr_some, wp_bind, wp_ofExcept, andThen_ok, wp_step, hoffset, hrange]
        exact hf _

theorem casPointer_returns (node : Nat) (expected new : UInt64)
    {Q : Except Error Bool → Store → Prop} (hQ : ∀ b s', Q (.ok b) s') :
    (casPointer node expected new).wp v t Q s := by
  rw [casPointer, wp_atomic]
  by_cases heq : (s.slots node).pointer = expected
  · exact ⟨_, _, if_pos heq, hQ true _⟩
  · exact ⟨_, _, if_neg heq, hQ false _⟩

theorem setPrivateNext_spared (node : Nat) {old new : Nat} (hold : old ≤ nodePointerMask.toNat)
    (hnew : new ≤ nodePointerMask.toNat) :
    (setPrivateNext cfg node old new).wp v t (fun r _ => Spared r) s := by
  rw [setPrivateNext, if_neg (by omega)]
  refine pointerAccess_spared node ?_
  intro word
  by_cases hne : (word &&& nodePointerMask).toNat ≠ old
  · rw [if_pos hne, wp_throw]
    exact spared_corrupt _
  · rw [if_neg hne, wp_bind]
    refine casPointer_returns node _ _ ?_
    intro b s'
    rw [andThen_ok]
    cases b with
    | false => exact spared_corrupt _
    | true => exact spared_ok ()

theorem compareExchangeNext_spared (node : Nat) {expected new : Nat}
    (hold : expected ≤ nodePointerMask.toNat) (hnew : new ≤ nodePointerMask.toNat) :
    (compareExchangeNext cfg node expected new).wp v t (fun r _ => Spared r) s := by
  rw [compareExchangeNext, if_neg (by omega)]
  refine pointerAccess_spared node ?_
  intro word
  by_cases hne : (word &&& nodePointerMask).toNat ≠ expected
  · rw [if_pos hne, wp_pure]
    exact spared_ok false
  · rw [if_neg hne]
    exact casPointer_returns node _ _ fun b _ => spared_ok b

theorem encodedValue_spared (value : Option (List UInt8)) {x : Allocation}
    (hx : x.offset < 2 ^ 63) : Spared (encodedValue cfg value (some x)) := by
  have hword : UInt64.ofNat x.offset &&& ~~~valueOffsetMask = 0 := by
    apply UInt64.toNat_inj.mp
    rw [Word.toNat_and_not_mask _ _ 63 (by decide) rfl, Word.toNat_ofNat_of_lt (by omega),
      Nat.div_eq_of_lt hx]
    rfl
  rw [encodedValue]
  by_cases hset : cfg.mode = .set
  · rw [if_pos hset]
    exact spared_ok 0
  · rw [if_neg hset]
    cases value with
    | none => exact spared_corrupt _
    | some value =>
      rw [okOr_some, ok_bind]
      cases inlineValueWord value with
      | some inline => exact spared_ok inline
      | none =>
        simp only [okOr_some, ok_bind]
        rw [if_neg (not_not.mpr hword)]
        exact spared_ok _

/- The piece count, the cursor and the stride are given by what they should be: the least
   aligned positions and the largest batch that fits. The word holds the rest. -/
structure BatchCarved (L : Layout) (c c' : Cells) (b length start stride n : Nat)
    (batch : AllocationBatch) : Prop where
  batch_eq : batch = ⟨dataStart + b * L.blockSize + start, length, stride, n, b⟩
  frame : c' = { c with currentWord := c'.currentWord, live := batch.allocations ++ c.live }
  state : currentState c'.currentWord = .ok .opened
  used : currentUsed c'.currentWord = start + (n - 1) * stride + length
  live : currentLive c'.currentWord = currentLive c.currentWord + n
  used_le : start + (n - 1) * stride + length ≤ L.blockSize
  live_le : currentLive c.currentWord + n ≤ maxLive
  pieces : ∀ x ∈ batch.allocations, InPages L x ∧ x.offset + x.length < 2 ^ 63

theorem batchCarved_of_reserved {L : Layout} {c c' : Cells} {b length alignment stride requested : Nat}
    {batch : AllocationBatch} (hL : L.Ok) (hb : b < L.blockCount)
    (hlive : currentLive c.currentWord ≤ maxLive)
    (h : Reserved L c c' b (currentUsed c.currentWord) (currentLive c.currentWord) length
      alignment stride requested batch) :
    BatchCarved L c c' b length (alignedStart (currentUsed c.currentWord) alignment) stride
      (carvedCount L (currentUsed c.currentWord) (currentLive c.currentWord) length alignment
        stride requested) batch := by
  obtain ⟨word, hword, rfl⟩ := h.fresh
  have hmax : maxLive = 65534 := rfl
  have hcount := h.count_eq
  have hlast := h.carved.last_le
  have hsum : currentLive c.currentWord + batch.count ≤ maxLive := by
    rw [hcount, carvedCount]
    omega
  rw [← hcount]
  refine ⟨?_, rfl, currentState_pack (by omega) hword, currentUsed_pack (by omega) hword,
    currentLive_pack (by omega) hword, hlast, hsum, ?_⟩
  · have hoffset : dataStart + b * L.blockSize +
        alignedStart (currentUsed c.currentWord) alignment = batch.offset := by
      rw [h.carved.offset, h.block]
      rfl
    rw [hoffset, ← h.block, ← h.length_eq, ← h.stride_eq]
  · intro x hx
    have hblock : x.block < L.blockCount := by
      rw [(h.carved.bounds hx).1, h.block]
      exact hb
    have hin : InPages L x := ⟨h.carved.fits hx, hblock⟩
    refine ⟨hin, Nat.lt_of_le_of_lt hin.end_le ?_⟩
    exact hL.page_bound (Nat.le_refl _)

theorem allocate_batch_arithmetic :
    (∀ {capacity blockSize length alignment maximumCount : Nat},
      validateLayout capacity blockSize = .ok () → 1 ≤ length → isPowerOfTwo alignment = true →
      alignment ≤ blockSize → 1 ≤ maximumCount →
      (length > blockSize → ∀ (t : Tid) (c : Cells) (fuel : Nat),
        (allocateBatch ⟨capacity, blockSize, capacity / blockSize⟩ fuel length alignment
          maximumCount).run t c =
          some (.error (.capacityExhausted "single-page allocation"), c)) ∧
      (length ≤ blockSize → ∃ stride, IsLeast {m | length ≤ m ∧ alignment ∣ m} stride ∧
        stride * min maximumCount maxLive < 2 ^ 64 ∧
        ∀ (t : Tid) (c : Cells) (b : Nat), c.guard = RwLock.free → c.currentBlock = b + 1 →
          b < capacity / blockSize → currentState c.currentWord = .ok .opened →
          currentUsed c.currentWord ≤ blockSize → currentLive c.currentWord ≤ maxLive →
          ∃ start n, IsLeast {m | currentUsed c.currentWord ≤ m ∧ alignment ∣ m} start ∧
            IsGreatest {n | n ≤ min maximumCount (maxLive - currentLive c.currentWord) ∧
              PiecesFit ⟨capacity, blockSize, capacity / blockSize⟩ start length stride n} n ∧
            start + length < 2 ^ 64 ∧
            ∀ fuel,
              (n = 0 → (allocateBatch ⟨capacity, blockSize, capacity / blockSize⟩ (fuel + 1) length
                  alignment maximumCount).run t c =
                (sealCurrentBlock ⟨capacity, blockSize, capacity / blockSize⟩ (b + 1) true
                  (fuel + 1) >>= fun _ =>
                  allocateBatch ⟨capacity, blockSize, capacity / blockSize⟩ fuel length alignment
                    maximumCount).run t c) ∧
              (0 < n → ∃ batch c', (allocateBatch ⟨capacity, blockSize, capacity / blockSize⟩
                  (fuel + 1) length alignment maximumCount).run t c = some (.ok batch, c') ∧
                BatchCarved ⟨capacity, blockSize, capacity / blockSize⟩ c c' b length start stride
                  n batch))) ∧
    (∀ (state : CurrentState) {used live : Nat}, used < 2 ^ 32 → live < 2 ^ 16 →
      ∃ word, packCurrent state used live = .ok word ∧ currentState word = .ok state ∧
        currentUsed word = used ∧ currentLive word = live) ∧
    (∀ {cfg : Config}, cfg.validate = .ok () →
      validateLayout cfg.bodyCapacity cfg.blockSize = .ok () ∧
      (∀ x, InPages cfg.bodyLayout x → x.offset ≤ 2 ^ 48 - 1) ∧
      (∀ node old new, NodeLink cfg old → NodeLink cfg new → ∀ t s r s',
        (setPrivateNext cfg node old new).Returns t s r s' → Spared r) ∧
      (∀ node expected new, NodeLink cfg expected → NodeLink cfg new → ∀ t s r s',
        (compareExchangeNext cfg node expected new).Returns t s r s' → Spared r) ∧
      (validateLayout cfg.blobCapacity cfg.blockSize = .ok () →
        ∀ x, InPages cfg.blobLayout x → x.offset < 2 ^ 63 ∧
          ∀ value, Spared (encodedValue cfg value (some x)))) := by
  refine ⟨?_, ?_, ?_⟩
  · intro capacity blockSize length alignment maximumCount hlayout hlength hpow hal hcount
    have hap : 0 < alignment := by
      simp only [isPowerOfTwo, Bool.and_eq_true, bne_iff_ne, ne_eq] at hpow
      omega
    have hL := Layout.ok_of_validate hlayout
    constructor
    · intro hlong t c fuel
      rw [allocateBatch, if_pos (Or.inr (Or.inl hlong))]
      rfl
    · intro hshort
      have hbs := hL.block_bound
      obtain ⟨hr, hgrowth, hcall⟩ :=
        allocateBatch_request hL hlength hshort hpow hap hal hcount
      have hmin : min (min maximumCount (2 ^ 32 - 1)) maxLive = min maximumCount maxLive := by
        have hmax : maxLive = 65534 := rfl
        omega
      refine ⟨alignedStart length alignment, alignedStart_least length hap, ?_, ?_⟩
      · rw [← hmin]
        exact hgrowth
      · intro t c b hg hblock hb hstate hused hlive
        have hround : alignedStart (currentUsed c.currentWord) alignment ≤
          currentUsed c.currentWord + (alignment - 1) := (roundUp_bounds _ hap).2
        have hspos : 0 < alignedStart length alignment :=
          Nat.lt_of_lt_of_le hlength (hr.stride_bounds hL).1
        simp only at hbs
        by_cases hfull : PageFull ⟨capacity, blockSize, capacity / blockSize⟩
            (currentUsed c.currentWord) (currentLive c.currentWord) length alignment
        · refine ⟨alignedStart (currentUsed c.currentWord) alignment, 0,
            alignedStart_least _ hap, carve_full hfull, by omega, ?_⟩
          intro fuel
          refine ⟨fun _ => ?_, fun hpos => absurd hpos (Nat.lt_irrefl 0)⟩
          rw [hcall, hcall]
          exact reserveLoop_full hL hg hblock hb hstate hused hlive hr hfull _ fuel
        · refine ⟨alignedStart (currentUsed c.currentWord) alignment, _,
            alignedStart_least _ hap, carve_greatest hspos hcount hlive hL hfull, by omega, ?_⟩
          intro fuel
          obtain ⟨batch, c', hrun, hres⟩ := reserveLoop_room hL hg hblock hb hstate hused hlive hr
            hfull (alignedStart length alignment *
              min (min maximumCount (2 ^ 32 - 1)) maxLive) fuel
          have hcarved := batchCarved_of_reserved hL hb hlive hres
          refine ⟨fun hzero => ?_, fun _ => ⟨batch, c', ?_, hcarved⟩⟩
          · have hpos := hres.carved.count_pos
            rw [hres.count_eq, hzero] at hpos
            exact absurd hpos (Nat.lt_irrefl 0)
          · rw [hcall]
            exact hrun
  · intro state used live hused hlive
    obtain ⟨word, hword⟩ := packCurrent_ok state live hused
    exact ⟨word, hword, currentState_pack hlive hword, currentUsed_pack hlive hword,
      currentLive_pack hlive hword⟩
  · intro cfg hvalid
    have hv := Config.validate_ok hvalid
    refine ⟨hv.bodyLayout_accepted, fun x hx => hx.node_offset hv, ?_, ?_, ?_⟩
    · intro node old new hold hnew t s r s' hret
      exact post_of_returns (setPrivateNext_spared node (hold.le hv) (hnew.le hv)) hret
    · intro node expected new hold hnew t s r s' hret
      exact post_of_returns (compareExchangeNext_spared node (hold.le hv) (hnew.le hv)) hret
    · intro hlayout x hx
      have hoffset := hx.blob_offset (Layout.ok_of_validate hlayout)
      exact ⟨hoffset, fun value => encodedValue_spared value hoffset⟩

/-- A store of one page, opened at cursor zero. -/
def Allocator.Cells.firstPage : Cells :=
  { Cells.created with
    currentBlock := 1, currentWord := 0x0100000000000000, highWater := 1,
    counts := fun p => if p = 0 then claimed else 0, countsLength := 131072, dataLength := 131072 }

theorem allocate_batch_arithmetic_first :
    ∃ stride, IsLeast {m | 32 ≤ m ∧ 32 ∣ m} stride ∧
      ∃ start n, IsLeast {m | currentUsed Cells.firstPage.currentWord ≤ m ∧ 32 ∣ m} start ∧
        IsGreatest {n | n ≤ min 3000 (maxLive - currentLive Cells.firstPage.currentWord) ∧
          PiecesFit ⟨65536, 65536, 1⟩ start 32 stride n} n := by
  obtain ⟨stride, hstride, -, hpage⟩ := (allocate_batch_arithmetic.1
    (show validateLayout 65536 65536 = .ok () by decide) (show 1 ≤ 32 by decide)
    (show isPowerOfTwo 32 = true by decide) (by decide) (show 1 ≤ 3000 by decide)).2 (by decide)
  obtain ⟨start, n, hstart, hn, -⟩ := hpage 0 Cells.firstPage 0 rfl rfl (by decide) (by decide)
    (by decide) (by decide)
  exact ⟨stride, hstride, start, n, hstart, hn⟩

/-- No piece of a request that is longer than a page fits, and the page is not sealed. -/
theorem oversized_request_not_sealed :
    currentState Cells.firstPage.currentWord = .ok .opened ∧
      currentUsed Cells.firstPage.currentWord = 0 ∧ currentLive Cells.firstPage.currentWord = 0 ∧
      IsGreatest {n | n ≤ min 1 (maxLive - 0) ∧ PiecesFit ⟨65536, 65536, 1⟩ 0 65537 65537 n} 0 ∧
      (allocateBatch ⟨65536, 65536, 1⟩ 3 65537 1 1).run 0 Cells.firstPage =
        some (.error (.capacityExhausted "single-page allocation"), Cells.firstPage) := by
  refine ⟨by decide, by decide, by decide, ⟨⟨by decide, ?_⟩, ?_⟩, rfl⟩
  · intro i hi
    exact absurd hi (Nat.not_lt_zero i)
  · rintro n ⟨-, hfit⟩
    by_contra hpos
    have hfirst := hfit 0 (by omega)
    simp only at hfirst
    omega

end Offsets

end FlorestaDb
