import FlorestaDb.HeadsFormat
import FlorestaDb.ZeroRuns

/-! The zero-run scan on the bytes of the page-count file: sixteen counts at a time with the
vector instructions of the target, and the rest of them one by one. -/
namespace FlorestaDb.CountBytes
open Allocator Hash Runs

/- The masks. A register is its sixteen-bit lanes, lane zero the lowest, and every
   instruction is given by what it does to a lane. -/
section Mask

/-- The instruction sets the source has code for; `avx2` is what the feature detection says. -/
inductive Target where
  | x86_64 (avx2 : Bool)
  | aarch64
  | other
  deriving DecidableEq, Repr

/-- `slice::get` of the `n` bytes at an offset. -/
def getRange (bytes : List UInt8) (offset n : Nat) : Option (List UInt8) :=
  if offset + n ≤ bytes.length then some ((bytes.drop offset).take n) else none

def loadU16 (bytes : List UInt8) (offset : Nat) : UInt16 :=
  UInt16.ofNat (leValue ((bytes.drop offset).take 2))

/-- The loop that sets one bit of the mask for each lane that passes a test. -/
def setLanes (test : Nat → Bool) (first count : Nat) (mask : BitVec 32) : BitVec 32 :=
  (List.range count).foldl
    (fun mask lane => if test lane then mask ||| 1#32 <<< (first + lane) else mask) mask

abbrev M256i := Fin 16 → UInt16

def mm256LoaduSi256 (bytes : List UInt8) : M256i := fun lane => loadU16 bytes (lane.val * 2)
def mm256SetzeroSi256 : M256i := fun _ => 0
def mm256CmpeqEpi16 (a b : M256i) : M256i := fun lane => if a lane = b lane then 0xffff else 0

/-- The top bit of every byte; a lane has two of them. -/
def mm256MovemaskEpi8 (a : M256i) : BitVec 32 :=
  setLanes (fun byte => (a (Fin.ofNat 16 (byte / 2))).toNat.testBit (byte % 2 * 8 + 7)) 0 32 0#32

abbrev Uint16x8 := Fin 8 → UInt16

def vld1qU16 (bytes : List UInt8) (offset : Nat) : Uint16x8 :=
  fun lane => loadU16 bytes (offset + lane.val * 2)

def vdupqNU16 (value : UInt16) : Uint16x8 := fun _ => value
def vceqqU16 (a b : Uint16x8) : Uint16x8 := fun lane => if a lane = b lane then 0xffff else 0
def vst1qU16 (a : Uint16x8) : List UInt16 := List.ofFn a

def zeroMask16Scalar (bytes : List UInt8) : BitVec 32 :=
  setLanes (fun lane => (bytes.drop (lane * 2)).take 2 == [0, 0]) 0 (bytes.length / 2) 0#32

def zeroMask16Avx2 (bytes : List UInt8) : BitVec 32 :=
  let values := mm256LoaduSi256 bytes
  let compared := mm256CmpeqEpi16 values mm256SetzeroSi256
  let byteMask := mm256MovemaskEpi8 compared
  setLanes (fun lane => byteMask &&& 3#32 <<< (lane * 2) == 3#32 <<< (lane * 2)) 0 16 0#32

def zeroMask16Neon (bytes : List UInt8) : BitVec 32 :=
  (List.range 2).foldl (fun mask half =>
    let values := vld1qU16 bytes (half * 16)
    let zeroes := vceqqU16 values (vdupqNU16 0)
    let compared := vst1qU16 zeroes
    setLanes (fun lane => compared.getD lane 0 == 0xffff) (half * 8) 8 mask) 0#32

def zeroMask16 (target : Target) (bytes : List UInt8) : BitVec 32 :=
  match target with
  | .x86_64 true => zeroMask16Avx2 bytes
  | .aarch64 => zeroMask16Neon bytes
  | .x86_64 false | .other => zeroMask16Scalar bytes

theorem setLanes_getLsbD (test : Nat → Bool) (mask : BitVec 32) {first count lane : Nat}
    (hbits : first + count ≤ 32) : (setLanes test first count mask).getLsbD lane =
      (mask.getLsbD lane || (decide (first ≤ lane ∧ lane < first + count) && test (lane - first))) := by
  induction count with
  | zero => simp [setLanes]
  | succ count ih =>
    have hstep : setLanes test first (count + 1) mask =
        if test count then setLanes test first count mask ||| 1#32 <<< (first + count)
        else setLanes test first count mask := by
      simp [setLanes, List.range_succ]
    have ih := ih (by omega)
    rw [hstep]
    by_cases hlane : lane = first + count
    · subst hlane
      by_cases htest : test count
      · simp [htest]
        omega
      · simp [htest, ih]
    · have hone : (1#32 <<< (first + count)).getLsbD lane = false := by
        simp [BitVec.getLsbD_one]
        omega
      have hrange : (first ≤ lane ∧ lane < first + (count + 1)) ↔
          (first ≤ lane ∧ lane < first + count) := by omega
      by_cases htest : test count
      · simp only [htest, if_true, BitVec.getLsbD_or, hone, Bool.or_false, ih, hrange]
      · simp only [htest, if_false, ih, hrange, Bool.false_eq_true]

theorem setLanes_zero_getLsbD (test : Nat → Bool) {count : Nat} (lane : Nat) (hbits : count ≤ 32) :
    (setLanes test 0 count 0#32).getLsbD lane = (decide (lane < count) && test lane) := by
  rw [setLanes_getLsbD _ _ (by omega)]
  simp

/-- A pair of equal bits is tested as the source writes it. -/
theorem pair_eq_iff (mask : BitVec 32) (lane : Nat) (hlane : lane < 16) :
    (mask &&& 3#32 <<< (lane * 2) == 3#32 <<< (lane * 2)) =
      (mask.getLsbD (lane * 2) && mask.getLsbD (lane * 2 + 1)) := by
  have hthree : ∀ i < 32, (3#32 <<< (lane * 2)).getLsbD i =
      decide (i = lane * 2 ∨ i = lane * 2 + 1) := by
    intro i hi
    rw [BitVec.getLsbD_shiftLeft, show 3#32 = BitVec.ofNat 32 (2 ^ 2 - 1) from rfl,
      BitVec.getLsbD_ofNat, Nat.testBit_two_pow_sub_one, Bool.eq_iff_iff]
    simp only [Bool.and_eq_true, Bool.not_eq_true', decide_eq_true_eq, decide_eq_false_iff_not]
    omega
  rw [Bool.eq_iff_iff, beq_iff_eq, Bool.and_eq_true]
  constructor
  · intro heq
    have hbit : ∀ i < 32, (i = lane * 2 ∨ i = lane * 2 + 1) → mask.getLsbD i = true := by
      intro i hi hpair
      have hi' := congrArg (fun m : BitVec 32 => m.getLsbD i) heq
      simpa [hthree i hi, hpair] using hi'
    exact ⟨hbit _ (by omega) (Or.inl rfl), hbit _ (by omega) (Or.inr rfl)⟩
  · intro hpair
    apply BitVec.eq_of_getLsbD_eq
    intro i hi
    rw [BitVec.getLsbD_and, hthree i hi]
    by_cases hin : i = lane * 2 ∨ i = lane * 2 + 1
    · cases hin with
      | inl heq => simp [heq, hpair.1]
      | inr heq => simp [heq, hpair.2]
    · simp [hin]

theorem zeroMask16Avx2_getLsbD (bytes : List UInt8) (lane : Nat) :
    (zeroMask16Avx2 bytes).getLsbD lane =
      (decide (lane < 16) && loadU16 bytes (lane * 2) == 0) := by
  have hbyte : ∀ byte, (byte = lane * 2 ∨ byte = lane * 2 + 1) → lane < 16 →
      (mm256MovemaskEpi8 (mm256CmpeqEpi16 (mm256LoaduSi256 bytes) mm256SetzeroSi256)).getLsbD
        byte = (loadU16 bytes (lane * 2) == 0) := by
    intro byte hbyte hlane
    have hhalf : byte / 2 = lane := by omega
    have hvalue : (Fin.ofNat 16 lane).val = lane := Nat.mod_eq_of_lt hlane
    have hin : byte < 32 := by omega
    rw [mm256MovemaskEpi8, setLanes_zero_getLsbD _ _ (Nat.le_refl _), decide_eq_true hin,
      Bool.true_and, hhalf, mm256CmpeqEpi16, mm256LoaduSi256, hvalue, mm256SetzeroSi256]
    by_cases hzero : loadU16 bytes (lane * 2) = 0
    · rw [if_pos hzero, hzero]
      -- the low byte or the high byte of a lane of ones
      cases Nat.mod_two_eq_zero_or_one byte with
      | inl heven => rw [heven]; decide
      | inr hodd => rw [hodd]; decide
    · rw [if_neg hzero]
      simp [hzero]
  rw [zeroMask16Avx2, setLanes_zero_getLsbD _ _ (by omega)]
  by_cases hlane : lane < 16
  · simp only [pair_eq_iff _ lane hlane, hbyte _ (Or.inl rfl) hlane, hbyte _ (Or.inr rfl) hlane,
      Bool.and_self]
  · simp [hlane]

theorem zeroMask16Neon_getLsbD (bytes : List UInt8) (lane : Nat) :
    (zeroMask16Neon bytes).getLsbD lane =
      (decide (lane < 16) && loadU16 bytes (lane * 2) == 0) := by
  have hlanes : ∀ half i, i < 8 →
      ((vst1qU16 (vceqqU16 (vld1qU16 bytes (half * 16)) (vdupqNU16 0))).getD i 0 == 0xffff) =
        (loadU16 bytes ((half * 8 + i) * 2) == 0) := by
    intro half i hi
    have hoffset : half * 16 + i * 2 = (half * 8 + i) * 2 := by omega
    rw [List.getD_eq_getElem?_getD, vst1qU16, List.getElem?_ofFn, dif_pos hi, Option.getD_some,
      vceqqU16, vld1qU16, vdupqNU16, hoffset]
    by_cases hzero : loadU16 bytes ((half * 8 + i) * 2) = 0
    · simp [hzero]
    · simp [hzero]
  rw [zeroMask16Neon, show List.range 2 = [0, 1] from rfl, List.foldl_cons, List.foldl_cons,
    List.foldl_nil, setLanes_getLsbD _ _ (by omega), setLanes_zero_getLsbD _ _ (by omega)]
  by_cases hlow : lane < 8
  · have hhigh : ¬(1 * 8 ≤ lane ∧ lane < 1 * 8 + 8) := by omega
    have hlane : lane < 16 := by omega
    rw [hlanes 0 lane hlow, decide_eq_false hhigh, decide_eq_true hlow, decide_eq_true hlane]
    simp
  · by_cases hlane : lane < 16
    · have hhigh : 1 * 8 ≤ lane ∧ lane < 1 * 8 + 8 := by omega
      have hindex : 1 * 8 + (lane - 1 * 8) = lane := by omega
      rw [hlanes 1 (lane - 1 * 8) (by omega), hindex, decide_eq_true hhigh, decide_eq_false hlow,
        decide_eq_true hlane]
      simp
    · have hhigh : ¬(1 * 8 ≤ lane ∧ lane < 1 * 8 + 8) := by omega
      rw [decide_eq_false hhigh, decide_eq_false hlow, decide_eq_false hlane]
      simp

/-- A count is zero where both of its bytes are. -/
theorem loadU16_pair {bytes : List UInt8} {offset : Nat} {a b : UInt8}
    (hpair : (bytes.drop offset).take 2 = [a, b]) :
    (loadU16 bytes offset == 0) = ([a, b] == [0, 0]) := by
  have ha := a.toNat_lt
  have hb := b.toNat_lt
  have hvalue : (UInt16.ofNat (leValue [a, b])).toNat = a.toNat + 256 * b.toNat := by
    rw [UInt16.toNat_ofNat', leValue, leValue, leValue]
    omega
  rw [Bool.eq_iff_iff, beq_iff_eq, beq_iff_eq, loadU16, hpair, ← UInt16.toNat_inj, hvalue,
    List.cons.injEq, List.cons.injEq, ← UInt8.toNat_inj, ← UInt8.toNat_inj]
  simp only [UInt16.toNat_zero, UInt8.toNat_zero, and_true]
  omega

theorem zeroMask16Scalar_getLsbD {bytes : List UInt8} (hlen : bytes.length = 32) (lane : Nat) :
    (zeroMask16Scalar bytes).getLsbD lane =
      (decide (lane < 16) && loadU16 bytes (lane * 2) == 0) := by
  rw [zeroMask16Scalar, hlen, setLanes_zero_getLsbD _ _ (by omega)]
  by_cases hlane : lane < 16
  · obtain ⟨a, b, hpair⟩ : ∃ a b, (bytes.drop (lane * 2)).take 2 = [a, b] := by
      have htake : ((bytes.drop (lane * 2)).take 2).length = 2 := by
        rw [List.length_take, List.length_drop]
        omega
      match (bytes.drop (lane * 2)).take 2, htake with
      | [a, b], _ => exact ⟨a, b, rfl⟩
    rw [loadU16_pair hpair, hpair]
  · simp [hlane]

/-- The mask is the same on every target. -/
theorem zeroMask16_getLsbD (target : Target) {bytes : List UInt8} (hlen : bytes.length = 32)
    (lane : Nat) : (zeroMask16 target bytes).getLsbD lane =
      (decide (lane < 16) && loadU16 bytes (lane * 2) == 0) := by
  cases target with
  | x86_64 avx2 =>
    cases avx2 with
    | true => exact zeroMask16Avx2_getLsbD bytes lane
    | false => exact zeroMask16Scalar_getLsbD hlen lane
  | aarch64 => exact zeroMask16Neon_getLsbD bytes lane
  | other => exact zeroMask16Scalar_getLsbD hlen lane

end Mask

section Scan

def snapshotCount (snapshot : List UInt8) (index : Nat) : Except Error UInt16 := do
  let offset ← okOr (checkedMul index 2) (.corrupt "count snapshot offset overflow")
  let bytes ← okOr (getRange snapshot offset 2) (.corrupt "count snapshot is truncated")
  if bytes.length ≠ 2 then .error (.corrupt "page-count entry is truncated")
  else .ok (UInt16.ofNat (leValue bytes))

/-- Where a run starts, its first page decides whether it may be claimed. -/
def runClaimable (snapshot : List UInt8) (runStart : Nat) : Except Error Bool :=
  if runStart = 0 then .ok true
  else do
    let count ← snapshotCount snapshot (runStart - 1)
    return count != 0xffff

/-- The body of both loops: a zero extends the current run, anything else ends it. -/
def entry (snapshot : List UInt8) (s : Scan) (index : Nat) (zero : Bool) : Except Error Scan :=
  if zero then do
    let (runStart, claimable) ←
      if s.runLength = 0 then do
        let claimable ← runClaimable snapshot index
        pure (index, claimable)
      else pure (s.runStart, s.runClaimable)
    let runLength := s.runLength + 1
    if claimable && runLength > s.bestLength then
      return ⟨runStart, runLength, runStart, runLength, claimable⟩
    else return ⟨s.bestStart, s.bestLength, runStart, runLength, claimable⟩
  else return { s with runLength := 0 }

/-- The loop over sixteen entries at a time; each round uses up sixteen of them, so `fuel`
only has to reach their number. -/
def scanChunks (target : Target) (snapshot : List UInt8) (entries : Nat) :
    Nat → Nat → Scan → Except Error (Nat × Scan)
  | 0, index, s => .ok (index, s)
  | fuel + 1, index, s =>
    if index + 16 ≤ entries then do
      let offset ← okOr (checkedMul index 2) (.corrupt "count snapshot offset overflow")
      let values ← okOr (getRange snapshot offset 32) (.corrupt "count snapshot is truncated")
      let zeroes := zeroMask16 target values
      let s ← (List.range 16).foldlM
        (fun s lane => entry snapshot s (index + lane) (zeroes &&& 1#32 <<< lane != 0#32)) s
      scanChunks target snapshot entries fuel (index + 16) s
    else .ok (index, s)

def scanTail (snapshot : List UInt8) (entries : Nat) : Nat → Nat → Scan → Except Error Scan
  | 0, _, s => .ok s
  | fuel + 1, index, s =>
    if index < entries then do
      let offset ← okOr (checkedMul index 2) (.corrupt "count snapshot offset overflow")
      let bytes ← okOr (getRange snapshot offset 2) (.corrupt "count snapshot is truncated")
      let s ← entry snapshot s index (bytes == [0, 0])
      scanTail snapshot entries fuel (index + 1) s
    else .ok s

/-- `reserved` is whether the allocator of the process has the memory for the copy. -/
def countSnapshot (reserved : Bool) (counts : Mapped) (highWater : Nat) :
    Except Error (List UInt8) := do
  let length ← okOr (checkedMul highWater 2) (.corrupt "count snapshot length overflow")
  if !reserved then .error .outOfMemory else counts.copyOut countsStart length

def longestZeroRun (target : Target) (reserved : Bool) (counts : Mapped) (highWater : Nat) :
    Except Error (Option Nat) :=
  if highWater = 0 then .ok none
  else do
    let snapshot ← countSnapshot reserved counts highWater
    let entries := highWater
    let (index, s) ← scanChunks target snapshot entries entries 0 ⟨0, 0, 0, 0, true⟩
    let s ← scanTail snapshot entries entries index s
    if s.bestLength = 0 then return none else return some s.bestStart

end Scan

section Counts

/-- The count of a page in the file. -/
def countAt (counts : Mapped) (page : Nat) : UInt16 :=
  UInt16.ofNat (leValue (slice counts.bytes (countsStart + page * 2) 2))

variable {counts : Mapped} {highWater index : Nat} {s : Scan}

/-- The counts of the first pages, as numbers. -/
def countsOf (counts : Mapped) (highWater : Nat) : List Nat :=
  (List.range highWater).map fun page => (countAt counts page).toNat

theorem getD_countsOf (hindex : index < highWater) :
    (countsOf counts highWater).getD index 0 = (countAt counts index).toNat := by
  simp [countsOf, hindex]

theorem countsOf_length : (countsOf counts highWater).length = highWater := by
  simp [countsOf]

/-- The bytes that `copy_out` returns. -/
def snapshotOf (counts : Mapped) (highWater : Nat) : List UInt8 :=
  slice counts.bytes countsStart (highWater * 2)

theorem getRange_snapshotOf {n : Nat} (hin : index * 2 + n ≤ highWater * 2) :
    getRange (snapshotOf counts highWater) (index * 2) n =
      some (slice counts.bytes (countsStart + index * 2) n) := by
  rw [getRange, snapshotOf, slice_length, if_pos hin, slice_part _ hin]

theorem snapshotCount_eq (hfits : highWater * 2 < u64Bound) (hindex : index < highWater) :
    snapshotCount (snapshotOf counts highWater) index = .ok (countAt counts index) := by
  rw [snapshotCount, checkedMul_of_lt (by omega), okOr_some, ok_bind, getRange_snapshotOf (by omega),
    okOr_some, ok_bind, slice_length, if_neg (by simp)]
  rfl

theorem entry_eq (hfits : highWater * 2 < u64Bound) (hindex : index < highWater) (zero : Bool) :
    entry (snapshotOf counts highWater) s index zero =
      .ok (Scan.entry (countsOf counts highWater) s index zero) := by
  have hclaim : runClaimable (snapshotOf counts highWater) index =
      .ok (decide (index = 0) || (countsOf counts highWater).getD (index - 1) 0 != claimed) := by
    rw [runClaimable]
    by_cases hzero : index = 0
    · simp [hzero]
    · rw [if_neg hzero, snapshotCount_eq hfits (by omega), ok_bind, getD_countsOf (by omega),
        decide_eq_false hzero, Bool.false_or]
      have hmark : (countAt counts (index - 1) != 0xffff) =
          ((countAt counts (index - 1)).toNat != claimed) := by
        rw [Bool.eq_iff_iff, bne_iff_ne, bne_iff_ne, Ne, ← UInt16.toNat_inj]
        rfl
      rw [hmark]
      rfl
  cases zero with
  | false => rfl
  | true =>
    simp only [entry, Scan.entry, hclaim]
    by_cases hrun : s.runLength = 0
    · simp only [hrun, if_true, ok_bind, pure_bind]
      split
      · rfl
      · rfl
    · simp only [hrun, if_true, if_false, pure_bind]
      split
      · rfl
      · rfl

/-- The bit of a lane, as the source tests it. -/
theorem lane_ne_zero (mask : BitVec 32) {lane : Nat} (hlane : lane < 32) :
    (mask &&& 1#32 <<< lane != 0#32) = mask.getLsbD lane := by
  have hone : ∀ i < 32, (1#32 <<< lane).getLsbD i = decide (i = lane) := by
    intro i hi
    rw [BitVec.getLsbD_shiftLeft, BitVec.getLsbD_one, Bool.eq_iff_iff]
    simp
    omega
  cases hbit : mask.getLsbD lane with
  | true =>
    rw [bne_iff_ne]
    intro heq
    have hi := congrArg (fun m : BitVec 32 => m.getLsbD lane) heq
    simp [hbit, hone lane hlane] at hi
  | false =>
    rw [bne_eq_false_iff_eq]
    apply BitVec.eq_of_getLsbD_eq
    intro i hi
    rw [BitVec.getLsbD_and, hone i hi]
    by_cases heq : i = lane
    · simp [heq, hbit]
    · simp [heq]

theorem toNat_beq_zero (count : UInt16) : (count.toNat == 0) = (count == 0) := by
  rw [Bool.eq_iff_iff, beq_iff_eq, beq_iff_eq, ← UInt16.toNat_inj]
  rfl

/-- The lanes of a chunk are its sixteen counts. -/
theorem scanLanes_eq (target : Target) (hfits : highWater * 2 < u64Bound)
    (hin : index + 16 ≤ highWater) :
    (List.range 16).foldlM (fun s lane => entry (snapshotOf counts highWater) s (index + lane)
        (zeroMask16 target (slice counts.bytes (countsStart + index * 2) 32) &&& 1#32 <<< lane
          != 0#32)) (scanUpTo (countsOf counts highWater) index) =
      .ok (scanUpTo (countsOf counts highWater) (index + 16)) := by
  have hprefix : ∀ n ≤ 16, (List.range n).foldlM (fun s lane =>
      entry (snapshotOf counts highWater) s (index + lane)
        (zeroMask16 target (slice counts.bytes (countsStart + index * 2) 32) &&& 1#32 <<< lane
          != 0#32)) (scanUpTo (countsOf counts highWater) index) =
      .ok (scanUpTo (countsOf counts highWater) (index + n)) := by
    intro n hn
    induction n with
    | zero => rfl
    | succ n ih =>
      have hbit : (zeroMask16 target (slice counts.bytes (countsStart + index * 2) 32) &&&
          1#32 <<< n != 0#32) = ((countsOf counts highWater).getD (index + n) 0 == 0) := by
        have hoffset : countsStart + index * 2 + n * 2 = countsStart + (index + n) * 2 := by omega
        rw [lane_ne_zero _ (by omega), zeroMask16_getLsbD target (slice_length _ _ _),
          decide_eq_true (show n < 16 by omega), Bool.true_and, loadU16, slice_part _ (by omega),
          hoffset, getD_countsOf (by omega), toNat_beq_zero, countAt]
      rw [List.range_succ, List.foldlM_append, ih (by omega), ok_bind, List.foldlM_cons, hbit,
        entry_eq hfits (by omega), ok_bind, List.foldlM_nil, ← scanUpTo_succ]
      rfl
  exact hprefix 16 (Nat.le_refl _)

theorem scanChunks_eq (target : Target) (hfits : highWater * 2 < u64Bound) (fuel : Nat)
    (hindex : index ≤ highWater) : ∃ index' ≤ highWater,
      scanChunks target (snapshotOf counts highWater) highWater fuel index
        (scanUpTo (countsOf counts highWater) index) =
      .ok (index', scanUpTo (countsOf counts highWater) index') := by
  induction fuel generalizing index with
  | zero => exact ⟨index, hindex, rfl⟩
  | succ fuel ih =>
    rw [scanChunks]
    by_cases hin : index + 16 ≤ highWater
    · obtain ⟨index', hindex', hrest⟩ := ih hin
      refine ⟨index', hindex', ?_⟩
      rw [if_pos hin, checkedMul_of_lt (by omega), okOr_some, ok_bind,
        getRange_snapshotOf (by omega), okOr_some, ok_bind]
      simp only [scanLanes_eq target hfits hin, ok_bind, hrest]
    · rw [if_neg hin]
      exact ⟨index, hindex, rfl⟩

theorem scanTail_eq (hfits : highWater * 2 < u64Bound) (fuel : Nat) (hindex : index ≤ highWater)
    (hfuel : highWater ≤ index + fuel) :
    scanTail (snapshotOf counts highWater) highWater fuel index
        (scanUpTo (countsOf counts highWater) index) =
      .ok (scanUpTo (countsOf counts highWater) highWater) := by
  induction fuel generalizing index with
  | zero =>
    have heq : index = highWater := by omega
    rw [heq]
    rfl
  | succ fuel ih =>
    rw [scanTail]
    by_cases hin : index < highWater
    · have hzero : (slice counts.bytes (countsStart + index * 2) 2 == [0, 0]) =
          ((countsOf counts highWater).getD index 0 == 0) := by
        have hpair : ((slice counts.bytes (countsStart + index * 2) 2).drop 0).take 2 =
          [counts.bytes (countsStart + index * 2), counts.bytes (countsStart + index * 2 + 1)] := rfl
        rw [getD_countsOf hin, toNat_beq_zero]
        exact (loadU16_pair hpair).symm
      rw [if_pos hin, checkedMul_of_lt (by omega), okOr_some, ok_bind,
        getRange_snapshotOf (by omega), okOr_some, ok_bind, hzero, entry_eq hfits hin, ok_bind,
        ← scanUpTo_succ]
      exact ih hin (by omega)
    · have heq : index = highWater := by omega
      rw [if_neg hin, heq]

/-- On every target the bytes are scanned as the counts they hold. -/
theorem longestZeroRun_bytes (target : Target) (reserved : Bool)
    (hlength : counts.length < u64Bound) (hfits : countsStart + highWater * 2 ≤ counts.length) :
    longestZeroRun target reserved counts highWater =
      if reserved || highWater == 0 then .ok (Allocator.longestZeroRun (countsOf counts highWater))
      else .error .outOfMemory := by
  have hbound : highWater * 2 < u64Bound := by omega
  by_cases hzero : highWater = 0
  · subst hzero
    simp [longestZeroRun, Allocator.longestZeroRun, countsOf, Allocator.scanChunks,
      Allocator.scanTail]
  · rw [longestZeroRun, if_neg hzero, countSnapshot, checkedMul_of_lt hbound, okOr_some, ok_bind]
    cases reserved with
    | false => simp [hzero]
    | true =>
      have hcopy : counts.copyOut countsStart (highWater * 2) = .ok (snapshotOf counts highWater) := by
        rw [Mapped.copyOut, Mapped.checkedRange_of hfits hlength]
        rfl
      obtain ⟨index, hindex, hchunks⟩ :=
        @scanChunks_eq counts highWater 0 target hbound highWater (Nat.zero_le highWater)
      have hstart : scanUpTo (countsOf counts highWater) 0 = ⟨0, 0, 0, 0, true⟩ := rfl
      rw [hstart] at hchunks
      simp only [Bool.not_true, Bool.false_eq_true, if_false, hcopy, hchunks, ok_bind,
        scanTail_eq hbound highWater hindex (by omega), Bool.true_or, if_true]
      rw [longestZeroRun_eq, countsOf_length]
      split
      · rfl
      · rfl

/-- A page without live allocations. -/
def FreePage (counts : Mapped) (page : Nat) : Prop := countAt counts page = 0

/-- A run of free pages may be claimed unless the page in front of it is marked. -/
def Claimable (counts : Mapped) (start : Nat) : Prop :=
  start = 0 ∨ countAt counts (start - 1) ≠ 0xffff

/-- On every target the scan finds the longest claimable run of free pages, the earliest one on
ties, and nothing exactly when there is no such run. -/
theorem longestZeroRun_longest (hlength : counts.length < u64Bound)
    (hfits : countsStart + highWater * 2 ≤ counts.length) :
    ∃ found : Option Nat,
      (∀ target reserved, longestZeroRun target reserved counts highWater =
        if reserved || highWater == 0 then .ok found else .error .outOfMemory) ∧
      (found = none ↔ ∀ start length, IsRun (FreePage counts) highWater start length →
        ¬Claimable counts start) ∧
      ∀ start, found = some start ↔ ∃ length,
        IsBest (FreePage counts) (Claimable counts) highWater start length := by
  have hfree : ∀ page < highWater,
      (FreeAt (countsOf counts highWater) page ↔ FreePage counts page) := by
    intro page hpage
    rw [FreeAt, FreePage, getD_countsOf hpage, ← UInt16.toNat_inj]
    rfl
  have hclaimable : ∀ start < highWater,
      (Admitted (countsOf counts highWater) start ↔ Claimable counts start) := by
    intro start hstart
    rw [Admitted, Claimable, getD_countsOf (by omega), Ne, Ne, ← UInt16.toNat_inj]
    rfl
  obtain ⟨hnone, hsome⟩ := longestZeroRun_spec (countsOf counts highWater)
  rw [countsOf_length] at hnone
  simp only [countsOf_length, isBest_congr hfree hclaimable] at hsome
  refine ⟨Allocator.longestZeroRun (countsOf counts highWater),
    fun target reserved => longestZeroRun_bytes target reserved hlength hfits, ?_, hsome⟩
  rw [hnone]
  constructor
  · intro h start length hrun hclaim
    have hpos := hrun.pos
    have hle := hrun.le
    exact h start length ((isRun_congr hfree).mpr hrun) ((hclaimable start (by omega)).mpr hclaim)
  · intro h start length hrun hadmitted
    have hpos := hrun.pos
    have hle := hrun.le
    exact h start length ((isRun_congr hfree).mp hrun) ((hclaimable start (by omega)).mp hadmitted)

end Counts

/-- Pages with a run of zeros across the end of the first chunk, behind a longer one that a
marked page leads. -/
def straddled : Mapped where
  bytes := fun i =>
    if i < countsStart + 2 then 0xff
    else if i < countsStart + 14 then 0
    else if i < countsStart + 28 then 1
    else if i < countsStart + 38 then 0 else 1
  length := 2 * formatPageSize

/-- The shorter run is the one found, on every target. -/
theorem longestZeroRun_straddled :
    [.x86_64 true, .x86_64 false, .aarch64, .other].map
      (fun target => longestZeroRun target true straddled 20) =
      List.replicate 4 (.ok (some 14)) := by
  obtain ⟨found, hfound, -⟩ := @longestZeroRun_longest straddled 20 (by decide) (by decide)
  have hvalue : longestZeroRun .other true straddled 20 = .ok (some 14) := by decide +kernel
  rw [hfound .other true] at hvalue
  simp only [hfound, List.map_cons, List.map_nil, hvalue]
  rfl

end FlorestaDb.CountBytes
