import FlorestaDb.Layout
import Mathlib.Data.Fin.VecNotation
import Mathlib.Data.Fintype.Basic
import Mathlib.Tactic.FinCases

/-! XXH64: the scalar digest, the four-lane digest of the AVX2 code, and that both
agree on every lane. -/
namespace FlorestaDb.Hash

def prime1 : UInt64 := 11400714785074694791
def prime2 : UInt64 := 14029467366897019727
def prime3 : UInt64 := 1609587929392839161
def prime4 : UInt64 := 9650029242287828579
def prime5 : UInt64 := 2870177450012600261

def rotateLeft (x : UInt64) (r : UInt64) : UInt64 := x <<< r ||| x >>> (64 - r)

/-- Little-endian value of a byte string. -/
def leValue : List UInt8 → Nat
  | [] => 0
  | b :: bs => b.toNat + 256 * leValue bs

/-- The low `n` little-endian bytes of a number. -/
def leBytes : Nat → Nat → List UInt8
  | 0, _ => []
  | n + 1, v => UInt8.ofNat v :: leBytes n (v / 256)

def readU64 (bytes : List UInt8) : UInt64 :=
  if bytes.length = 8 then UInt64.ofNat (leValue bytes) else 0

def readU32 (bytes : List UInt8) : UInt64 :=
  if bytes.length = 4 then UInt64.ofNat (leValue bytes) else 0

def round (accumulator lane : UInt64) : UInt64 :=
  rotateLeft (accumulator + lane * prime2) 31 * prime1

def mergeRound (accumulator lane : UInt64) : UInt64 :=
  (accumulator ^^^ round 0 lane) * prime1 + prime4

def avalanche (hash : UInt64) : UInt64 :=
  let hash := hash ^^^ hash >>> 33
  let hash := hash * prime2
  let hash := hash ^^^ hash >>> 29
  let hash := hash * prime3
  hash ^^^ hash >>> 32

def takePrefix (n : Nat) (input : List UInt8) : Option (List UInt8 × List UInt8) :=
  if input.length < n then none else some (input.take n, input.drop n)

structure Lanes where
  lane1 : UInt64
  lane2 : UInt64
  lane3 : UInt64
  lane4 : UInt64

/-- The loop over 32-byte stripes; every round consumes a stripe, so `fuel` only
has to reach the input length. -/
def stripes : Nat → Lanes → List UInt8 → Lanes × List UInt8
  | 0, lanes, remaining => (lanes, remaining)
  | fuel + 1, lanes, remaining =>
    match takePrefix 32 remaining with
    | none => (lanes, remaining)
    | some (stripe, tail) =>
      stripes fuel
        { lane1 := round lanes.lane1 (readU64 (stripe.take 8))
          lane2 := round lanes.lane2 (readU64 ((stripe.drop 8).take 8))
          lane3 := round lanes.lane3 (readU64 ((stripe.drop 16).take 8))
          lane4 := round lanes.lane4 (readU64 ((stripe.drop 24).take 8)) } tail

def words : Nat → UInt64 → List UInt8 → UInt64 × List UInt8
  | 0, hash, remaining => (hash, remaining)
  | fuel + 1, hash, remaining =>
    match takePrefix 8 remaining with
    | none => (hash, remaining)
    | some (word, tail) =>
      words fuel (rotateLeft (hash ^^^ round 0 (readU64 word)) 27 * prime1 + prime4) tail

def halfWord (hash : UInt64) (remaining : List UInt8) : UInt64 × List UInt8 :=
  match takePrefix 4 remaining with
  | none => (hash, remaining)
  | some (word, tail) =>
    (rotateLeft (hash ^^^ readU32 word * prime1) 23 * prime2 + prime3, tail)

def tailByte (hash : UInt64) (byte : UInt8) : UInt64 :=
  rotateLeft (hash ^^^ byte.toUInt64 * prime5) 11 * prime1

def combine (lanes : Lanes) : UInt64 :=
  let combined := rotateLeft lanes.lane1 1 + rotateLeft lanes.lane2 7 +
    rotateLeft lanes.lane3 12 + rotateLeft lanes.lane4 18
  mergeRound (mergeRound (mergeRound (mergeRound combined lanes.lane1) lanes.lane2) lanes.lane3)
    lanes.lane4

def start (seed : UInt64) (input : List UInt8) : UInt64 × List UInt8 :=
  if 32 ≤ input.length then
    let (lanes, remaining) := stripes input.length
      ⟨seed + prime1 + prime2, seed + prime2, seed, seed - prime1⟩ input
    (combine lanes, remaining)
  else (seed + prime5, input)

def xxh64 (input : List UInt8) (seed : UInt64) : UInt64 :=
  let (hash, remaining) := start seed input
  let (hash, remaining) := words input.length (hash + UInt64.ofNat input.length) remaining
  let (hash, remaining) := halfWord hash remaining
  avalanche (remaining.foldl tailByte hash)

example : xxh64 [] 0 = 0xef46db3751d8e999 := by decide
example : xxh64 [97] 0 = 0xd24ec4f1a98c6e5b := by decide
example : xxh64 [97, 98, 99] 0 = 0x44bc2cf5ad770999 := by decide

/- What the AVX2 code below does to one of its four lanes. -/
section Lane

/-- `_mm256_mul_epu32`: the product of the low halves. -/
def mulEpu32 (x y : UInt64) : UInt64 := (x &&& 0xffffffff) * (y &&& 0xffffffff)

/-- The `multiply!` of the AVX2 code: three half-width products. -/
def multiply (left right : UInt64) : UInt64 :=
  mulEpu32 left right + (mulEpu32 (left >>> 32) right + mulEpu32 left (right >>> 32)) <<< 32

def roundLanes (accumulator lane : UInt64) : UInt64 :=
  multiply (rotateLeft (accumulator + multiply lane prime2) 31) prime1

def mergeLanes (accumulator lane : UInt64) : UInt64 :=
  multiply (accumulator ^^^ roundLanes 0 lane) prime1 + prime4

def loadU64 (input : List UInt8) (offset : Nat) : UInt64 :=
  readU64 ((input.drop offset).take 8)

def laneStripes (input : List UInt8) : Nat → Nat → Lanes → Nat × Lanes
  | 0, offset, lanes => (offset, lanes)
  | fuel + 1, offset, lanes =>
    if offset + 32 ≤ input.length then
      laneStripes input fuel (offset + 32)
        { lane1 := roundLanes lanes.lane1 (loadU64 input offset)
          lane2 := roundLanes lanes.lane2 (loadU64 input (offset + 8))
          lane3 := roundLanes lanes.lane3 (loadU64 input (offset + 16))
          lane4 := roundLanes lanes.lane4 (loadU64 input (offset + 24)) }
    else (offset, lanes)

def laneCombine (lanes : Lanes) : UInt64 :=
  let combined := rotateLeft lanes.lane1 1 + rotateLeft lanes.lane2 7 +
    (rotateLeft lanes.lane3 12 + rotateLeft lanes.lane4 18)
  mergeLanes (mergeLanes (mergeLanes (mergeLanes combined lanes.lane1) lanes.lane2) lanes.lane3)
    lanes.lane4

def laneStart (seed : UInt64) (input : List UInt8) : Nat × UInt64 :=
  if 32 ≤ input.length then
    let (offset, lanes) := laneStripes input input.length 0
      ⟨seed + prime1 + prime2, seed + prime2, seed, seed + (0 - prime1)⟩
    (offset, laneCombine lanes)
  else (0, seed + prime5)

def laneWords (input : List UInt8) : Nat → Nat → UInt64 → Nat × UInt64
  | 0, offset, hash => (offset, hash)
  | fuel + 1, offset, hash =>
    if offset + 8 ≤ input.length then
      laneWords input fuel (offset + 8)
        (multiply (rotateLeft (hash ^^^ roundLanes 0 (loadU64 input offset)) 27) prime1 + prime4)
    else (offset, hash)

def laneHalfWord (input : List UInt8) (offset : Nat) (hash : UInt64) : Nat × UInt64 :=
  if offset + 4 ≤ input.length then
    (offset + 4, multiply (rotateLeft
      (hash ^^^ multiply (readU32 ((input.drop offset).take 4)) prime1) 23) prime2 + prime3)
  else (offset, hash)

def laneTail (hash : UInt64) (byte : UInt8) : UInt64 :=
  multiply (rotateLeft (hash ^^^ multiply byte.toUInt64 prime5) 11) prime1

def laneAvalanche (hash : UInt64) : UInt64 :=
  let hash := hash ^^^ hash >>> 33
  let hash := multiply hash prime2
  let hash := hash ^^^ hash >>> 29
  let hash := multiply hash prime3
  hash ^^^ hash >>> 32

/-- One lane of `xxh64_batch4_avx2`. -/
def xxh64Lane (input : List UInt8) (seed : UInt64) : UInt64 :=
  let (offset, hash) := laneStart seed input
  let hash := hash + UInt64.ofNat (min input.length (2 ^ 63 - 1))
  let (offset, hash) := laneWords input input.length offset hash
  let (offset, hash) := laneHalfWord input offset hash
  laneAvalanche ((input.drop offset).foldl laneTail hash)

end Lane

/- The AVX2 code. A register is its four sixty-four bit lanes, lane zero the lowest, and
   every instruction is given by what it does to a lane. -/
section Vector

abbrev M256i := Fin 4 → UInt64

def mm256SetEpi64x (e3 e2 e1 e0 : UInt64) : M256i := ![e0, e1, e2, e3]
def mm256Set1Epi64x (a : UInt64) : M256i := fun _ => a
def mm256AddEpi64 (a b : M256i) : M256i := fun i => a i + b i
def mm256MulEpu32 (a b : M256i) : M256i := fun i => mulEpu32 (a i) (b i)
def mm256OrSi256 (a b : M256i) : M256i := fun i => a i ||| b i
def mm256XorSi256 (a b : M256i) : M256i := fun i => a i ^^^ b i
def mm256SlliEpi64 (shift : UInt64) (a : M256i) : M256i := fun i => a i <<< shift
def mm256SrliEpi64 (shift : UInt64) (a : M256i) : M256i := fun i => a i >>> shift
def mm256StoreuSi256 (a : M256i) : List UInt64 := [a 0, a 1, a 2, a 3]

def multiplyVector (left right : M256i) : M256i :=
  let low := mm256MulEpu32 left right
  let leftHigh := mm256SrliEpi64 32 left
  let rightHigh := mm256SrliEpi64 32 right
  let cross := mm256AddEpi64 (mm256MulEpu32 leftHigh right) (mm256MulEpu32 left rightHigh)
  mm256AddEpi64 low (mm256SlliEpi64 32 cross)

def rotateVector (value : M256i) (shift : UInt64) : M256i :=
  mm256OrSi256 (mm256SlliEpi64 shift value) (mm256SrliEpi64 (64 - shift) value)

def roundVector (accumulator lane : M256i) : M256i :=
  let mixed := multiplyVector lane (mm256Set1Epi64x prime2)
  multiplyVector (rotateVector (mm256AddEpi64 accumulator mixed) 31) (mm256Set1Epi64x prime1)

def mergeVector (accumulator lane : M256i) : M256i :=
  let merged := mm256XorSi256 accumulator (roundVector (mm256Set1Epi64x 0) lane)
  mm256AddEpi64 (multiplyVector merged (mm256Set1Epi64x prime1)) (mm256Set1Epi64x prime4)

variable (inputs : Fin 4 → List UInt8)

def loadU64x4 (offset : Nat) : M256i :=
  mm256SetEpi64x (readU64 (((inputs 3).drop offset).take 8))
    (readU64 (((inputs 2).drop offset).take 8)) (readU64 (((inputs 1).drop offset).take 8))
    (readU64 (((inputs 0).drop offset).take 8))

def loadU32x4 (offset : Nat) : M256i :=
  mm256SetEpi64x (readU32 (((inputs 3).drop offset).take 4))
    (readU32 (((inputs 2).drop offset).take 4)) (readU32 (((inputs 1).drop offset).take 4))
    (readU32 (((inputs 0).drop offset).take 4))

def loadBytex4 (offset : Nat) : M256i :=
  mm256SetEpi64x ((inputs 3).getD offset 0).toUInt64 ((inputs 2).getD offset 0).toUInt64
    ((inputs 1).getD offset 0).toUInt64 ((inputs 0).getD offset 0).toUInt64

structure Registers where
  lane1 : M256i
  lane2 : M256i
  lane3 : M256i
  lane4 : M256i

def vectorStripes (length : Nat) : Nat → Nat → Registers → Nat × Registers
  | 0, offset, lanes => (offset, lanes)
  | fuel + 1, offset, lanes =>
    if offset + 32 ≤ length then
      vectorStripes length fuel (offset + 32)
        { lane1 := roundVector lanes.lane1 (loadU64x4 inputs offset)
          lane2 := roundVector lanes.lane2 (loadU64x4 inputs (offset + 8))
          lane3 := roundVector lanes.lane3 (loadU64x4 inputs (offset + 16))
          lane4 := roundVector lanes.lane4 (loadU64x4 inputs (offset + 24)) }
    else (offset, lanes)

def combineVector (lanes : Registers) : M256i :=
  let combined := mm256AddEpi64
    (mm256AddEpi64 (rotateVector lanes.lane1 1) (rotateVector lanes.lane2 7))
    (mm256AddEpi64 (rotateVector lanes.lane3 12) (rotateVector lanes.lane4 18))
  mergeVector (mergeVector (mergeVector (mergeVector combined lanes.lane1) lanes.lane2)
    lanes.lane3) lanes.lane4

def vectorStart (length : Nat) (seed : UInt64) : Nat × M256i :=
  let seedLanes := mm256Set1Epi64x seed
  if 32 ≤ length then
    let (offset, lanes) := vectorStripes inputs length length 0
      { lane1 := mm256AddEpi64 (mm256AddEpi64 seedLanes (mm256Set1Epi64x prime1))
          (mm256Set1Epi64x prime2)
        lane2 := mm256AddEpi64 seedLanes (mm256Set1Epi64x prime2)
        lane3 := seedLanes
        lane4 := mm256AddEpi64 seedLanes (mm256Set1Epi64x (0 - prime1)) }
    (offset, combineVector lanes)
  else (0, mm256AddEpi64 seedLanes (mm256Set1Epi64x prime5))

def vectorWords (length : Nat) : Nat → Nat → M256i → Nat × M256i
  | 0, offset, hash => (offset, hash)
  | fuel + 1, offset, hash =>
    if offset + 8 ≤ length then
      let mixed := roundVector (mm256Set1Epi64x 0) (loadU64x4 inputs offset)
      vectorWords length fuel (offset + 8) (mm256AddEpi64
        (multiplyVector (rotateVector (mm256XorSi256 hash mixed) 27) (mm256Set1Epi64x prime1))
        (mm256Set1Epi64x prime4))
    else (offset, hash)

def vectorHalfWord (length offset : Nat) (hash : M256i) : Nat × M256i :=
  if offset + 4 ≤ length then
    let hash := mm256XorSi256 hash
      (multiplyVector (loadU32x4 inputs offset) (mm256Set1Epi64x prime1))
    (offset + 4, mm256AddEpi64 (multiplyVector (rotateVector hash 23) (mm256Set1Epi64x prime2))
      (mm256Set1Epi64x prime3))
  else (offset, hash)

def vectorTail (length : Nat) : Nat → Nat → M256i → M256i
  | 0, _, hash => hash
  | fuel + 1, offset, hash =>
    if offset < length then
      let hash := mm256XorSi256 hash
        (multiplyVector (loadBytex4 inputs offset) (mm256Set1Epi64x prime5))
      vectorTail length fuel (offset + 1)
        (multiplyVector (rotateVector hash 11) (mm256Set1Epi64x prime1))
    else hash

def vectorAvalanche (hash : M256i) : M256i :=
  let hash := mm256XorSi256 hash (mm256SrliEpi64 33 hash)
  let hash := multiplyVector hash (mm256Set1Epi64x prime2)
  let hash := mm256XorSi256 hash (mm256SrliEpi64 29 hash)
  let hash := multiplyVector hash (mm256Set1Epi64x prime3)
  mm256XorSi256 hash (mm256SrliEpi64 32 hash)

/-- The length lane saturates at `i64::MAX`. -/
def xxh64Batch4Avx2 (seed : UInt64) : List UInt64 :=
  let length := (inputs 0).length
  let (offset, hash) := vectorStart inputs length seed
  let hash := mm256AddEpi64 hash (mm256Set1Epi64x (UInt64.ofNat (min length (2 ^ 63 - 1))))
  let (offset, hash) := vectorWords inputs length length offset hash
  let (offset, hash) := vectorHalfWord inputs length offset hash
  mm256StoreuSi256 (vectorAvalanche (vectorTail inputs length length offset hash))

end Vector

/-- Four digests at once: with AVX2 when the lengths agree. -/
def xxh64Batch4 (avx2 : Bool) (first second third fourth : List UInt8) (seed : UInt64) :
    List UInt64 :=
  let inputs := [first, second, third, fourth]
  if [second, third, fourth].any fun input => input.length != first.length then
    inputs.map (xxh64 · seed)
  else if avx2 then xxh64Batch4Avx2 ![first, second, third, fourth] seed
  else inputs.map (xxh64 · seed)

theorem leBytes_length (n v : Nat) : (leBytes n v).length = n := by
  induction n generalizing v with
  | zero => rfl
  | succ n ih => simp [leBytes, ih]

theorem leValue_lt (bs : List UInt8) : leValue bs < 256 ^ bs.length := by
  induction bs with
  | nil => simp [leValue]
  | cons b bs ih =>
    have hb : b.toNat < 256 := b.toNat_lt
    simp only [leValue, List.length_cons, Nat.pow_succ]
    omega

theorem leValue_leBytes (n v : Nat) : leValue (leBytes n v) = v % 256 ^ n := by
  induction n generalizing v with
  | zero => simp [leBytes, leValue, Nat.mod_one]
  | succ n ih =>
    have hb : (UInt8.ofNat v).toNat = v % 256 := by simp
    rw [leBytes, leValue, ih, hb, Nat.pow_succ, Nat.mul_comm (256 ^ n), Nat.mod_mul]

@[simp] theorem ofNat_leValue_leBytes (word : UInt64) :
    UInt64.ofNat (leValue (leBytes 8 word.toNat)) = word := by
  have hlt : word.toNat < 256 ^ 8 := word.toNat_lt
  rw [leValue_leBytes, Nat.mod_eq_of_lt hlt, UInt64.ofNat_toNat]

theorem leBytes_leValue (bs : List UInt8) : leBytes bs.length (leValue bs) = bs := by
  induction bs with
  | nil => rfl
  | cons b bs ih =>
    have hb : b.toNat < 256 := b.toNat_lt
    have hhead : UInt8.ofNat (b.toNat + 256 * leValue bs) = b := by
      apply UInt8.toNat_inj.mp
      simp only [UInt8.toNat_ofNat']
      omega
    have htail : (b.toNat + 256 * leValue bs) / 256 = leValue bs := by omega
    simp only [List.length_cons, leValue, leBytes, hhead, htail, ih]

section LaneDigest

theorem split_halves (x : UInt64) : x = (x &&& (0xffffffff : UInt64)) + (x >>> 32) <<< 32 := by
  apply UInt64.toNat_inj.mp
  have hlo : (x &&& 0xffffffff).toNat = x.toNat % 2 ^ 32 := by
    rw [UInt64.toNat_and]
    exact Nat.and_two_pow_sub_one_eq_mod x.toNat 32
  have hhi : (x >>> 32).toNat = x.toNat / 2 ^ 32 := by
    rw [UInt64.toNat_shiftRight]
    exact Nat.shiftRight_eq_div_pow x.toNat 32
  have hx := x.toNat_lt
  rw [UInt64.toNat_add, UInt64.toNat_shiftLeft, hlo, hhi]
  simp [Nat.shiftLeft_eq]
  omega

theorem mask_high (x : UInt64) : x >>> 32 &&& (0xffffffff : UInt64) = x >>> 32 := by
  apply UInt64.toNat_inj.mp
  have hhi : (x >>> 32).toNat = x.toNat / 2 ^ 32 := by
    rw [UInt64.toNat_shiftRight]
    exact Nat.shiftRight_eq_div_pow x.toNat 32
  have hx := x.toNat_lt
  rw [UInt64.toNat_and, hhi]
  refine (Nat.and_two_pow_sub_one_eq_mod (x.toNat / 2 ^ 32) 32).trans ?_
  omega

theorem shift_half (x : UInt64) : x <<< 32 = x * 4294967296 := by
  apply UInt64.toNat_inj.mp
  rw [UInt64.toNat_shiftLeft, UInt64.toNat_mul, Nat.shiftLeft_eq]
  rfl

theorem multiply_eq (x y : UInt64) : multiply x y = x * y := by
  have hx := split_halves x
  have hy := split_halves y
  rw [shift_half] at hx hy
  simp only [multiply, mulEpu32, mask_high, shift_half]
  generalize x &&& 0xffffffff = a at *
  generalize x >>> 32 = b at *
  generalize y &&& 0xffffffff = c at *
  generalize y >>> 32 = e at *
  subst hx hy
  grind

theorem roundLanes_eq (accumulator lane : UInt64) :
    roundLanes accumulator lane = round accumulator lane := by
  simp only [roundLanes, round, multiply_eq]

theorem mergeLanes_eq (accumulator lane : UInt64) :
    mergeLanes accumulator lane = mergeRound accumulator lane := by
  simp only [mergeLanes, mergeRound, multiply_eq, roundLanes_eq]

theorem laneCombine_eq (lanes : Lanes) : laneCombine lanes = combine lanes := by
  simp only [laneCombine, combine, mergeLanes_eq, UInt64.add_assoc]

theorem takePrefix_drop {input : List UInt8} {offset n : Nat} :
    takePrefix n (input.drop offset) = if offset + n ≤ input.length ∨ n = 0 then
      some ((input.drop offset).take n, input.drop (offset + n)) else none := by
  rw [takePrefix, List.length_drop, List.drop_drop]
  by_cases h : offset + n ≤ input.length ∨ n = 0
  · rw [if_neg (by omega), if_pos h]
  · rw [if_pos (by omega), if_neg h]

theorem take_stripe (input : List UInt8) (offset i : Nat) (hi : i + 8 ≤ 32) :
    (((input.drop offset).take 32).drop i).take 8 = (input.drop (offset + i)).take 8 := by
  rw [List.drop_take, List.take_take, List.drop_drop, Nat.min_eq_left (by omega)]

/-- The stripes by offset are the stripes of the remaining input. -/
theorem laneStripes_eq (input : List UInt8) (fuel offset : Nat) (lanes : Lanes) :
    stripes fuel lanes (input.drop offset) =
      ((laneStripes input fuel offset lanes).2,
        input.drop (laneStripes input fuel offset lanes).1) := by
  induction fuel generalizing offset lanes with
  | zero => rfl
  | succ fuel ih =>
    rw [stripes, laneStripes, takePrefix_drop]
    by_cases h : offset + 32 ≤ input.length
    · rw [if_pos (Or.inl h), if_pos h, ← ih]
      have h0 := take_stripe input offset 0 (by decide)
      rw [List.drop_zero, Nat.add_zero] at h0
      simp only [roundLanes_eq, loadU64, h0, take_stripe input offset 8 (by decide),
        take_stripe input offset 16 (by decide), take_stripe input offset 24 (by decide)]
    · rw [if_neg (by omega), if_neg h]

theorem laneWords_eq (input : List UInt8) (fuel offset : Nat) (hash : UInt64) :
    words fuel hash (input.drop offset) =
      ((laneWords input fuel offset hash).2, input.drop (laneWords input fuel offset hash).1) := by
  induction fuel generalizing offset hash with
  | zero => rfl
  | succ fuel ih =>
    rw [words, laneWords, takePrefix_drop]
    by_cases h : offset + 8 ≤ input.length
    · rw [if_pos (Or.inl h), if_pos h, ← ih]
      simp only [roundLanes_eq, multiply_eq, loadU64]
    · rw [if_neg (by omega), if_neg h]

theorem laneHalfWord_eq (input : List UInt8) (offset : Nat) (hash : UInt64) :
    halfWord hash (input.drop offset) =
      ((laneHalfWord input offset hash).2, input.drop (laneHalfWord input offset hash).1) := by
  rw [halfWord, laneHalfWord, takePrefix_drop]
  by_cases h : offset + 4 ≤ input.length
  · rw [if_pos (Or.inl h), if_pos h]
    simp only [multiply_eq]
  · rw [if_neg (by omega), if_neg h]

theorem laneStart_eq (seed : UInt64) (input : List UInt8) :
    start seed input = ((laneStart seed input).2, input.drop (laneStart seed input).1) := by
  rw [start, laneStart]
  by_cases h : 32 ≤ input.length
  · have hs := laneStripes_eq input input.length 0
      ⟨seed + prime1 + prime2, seed + prime2, seed, seed - prime1⟩
    have hneg : seed + (0 - prime1) = seed - prime1 := by grind
    rw [List.drop_zero] at hs
    rw [if_pos h, if_pos h, hs, hneg]
    simp only [laneCombine_eq]
  · rw [if_neg h, if_neg h]
    rfl

/-- A lane of the vector code computes the scalar digest. -/
theorem xxh64Lane_eq (input : List UInt8) (seed : UInt64) (h : input.length < 2 ^ 63) :
    xxh64Lane input seed = xxh64 input seed := by
  have htail : laneTail = tailByte := by
    funext hash byte
    simp only [laneTail, tailByte, multiply_eq]
  have hlen : min input.length (2 ^ 63 - 1) = input.length := by omega
  simp only [xxh64Lane, xxh64, laneStart_eq, laneWords_eq, laneHalfWord_eq, hlen, htail,
    laneAvalanche, avalanche, multiply_eq]

end LaneDigest

section VectorDigest
variable {inputs : Fin 4 → List UInt8} {length : Nat} {i : Fin 4}

theorem loadU64x4_lane (inputs : Fin 4 → List UInt8) (offset : Nat) (i : Fin 4) :
    loadU64x4 inputs offset i = loadU64 (inputs i) offset := by
  fin_cases i <;> rfl

theorem loadU32x4_lane (inputs : Fin 4 → List UInt8) (offset : Nat) (i : Fin 4) :
    loadU32x4 inputs offset i = readU32 (((inputs i).drop offset).take 4) := by
  fin_cases i <;> rfl

theorem loadBytex4_lane (inputs : Fin 4 → List UInt8) (offset : Nat) (i : Fin 4) :
    loadBytex4 inputs offset i = ((inputs i).getD offset 0).toUInt64 := by
  fin_cases i <;> rfl

theorem roundVector_lane (accumulator lane : M256i) (i : Fin 4) :
    roundVector accumulator lane i = roundLanes (accumulator i) (lane i) := rfl

/-- The four accumulators of one lane. -/
def Registers.lane (lanes : Registers) (i : Fin 4) : Lanes :=
  ⟨lanes.lane1 i, lanes.lane2 i, lanes.lane3 i, lanes.lane4 i⟩

theorem vectorStripes_lane (hlen : (inputs i).length = length) (fuel offset : Nat)
    (lanes : Registers) :
    laneStripes (inputs i) fuel offset (lanes.lane i) =
      ((vectorStripes inputs length fuel offset lanes).1,
        (vectorStripes inputs length fuel offset lanes).2.lane i) := by
  induction fuel generalizing offset lanes with
  | zero => rfl
  | succ fuel ih =>
    rw [laneStripes, vectorStripes, hlen]
    by_cases h : offset + 32 ≤ length
    · rw [if_pos h, if_pos h, ← ih]
      simp only [Registers.lane, roundVector_lane, loadU64x4_lane]
    · rw [if_neg h, if_neg h]

theorem vectorStart_lane (hlen : (inputs i).length = length) (seed : UInt64) :
    laneStart seed (inputs i) =
      ((vectorStart inputs length seed).1, (vectorStart inputs length seed).2 i) := by
  rw [laneStart, vectorStart, hlen]
  by_cases h : 32 ≤ length
  · rw [if_pos h, if_pos h]
    have hs := vectorStripes_lane hlen length 0
      { lane1 := mm256AddEpi64 (mm256AddEpi64 (mm256Set1Epi64x seed) (mm256Set1Epi64x prime1))
          (mm256Set1Epi64x prime2)
        lane2 := mm256AddEpi64 (mm256Set1Epi64x seed) (mm256Set1Epi64x prime2)
        lane3 := mm256Set1Epi64x seed
        lane4 := mm256AddEpi64 (mm256Set1Epi64x seed) (mm256Set1Epi64x (0 - prime1)) }
    have hlanes : Registers.lane
        { lane1 := mm256AddEpi64 (mm256AddEpi64 (mm256Set1Epi64x seed) (mm256Set1Epi64x prime1))
            (mm256Set1Epi64x prime2)
          lane2 := mm256AddEpi64 (mm256Set1Epi64x seed) (mm256Set1Epi64x prime2)
          lane3 := mm256Set1Epi64x seed
          lane4 := mm256AddEpi64 (mm256Set1Epi64x seed) (mm256Set1Epi64x (0 - prime1)) } i =
        ⟨seed + prime1 + prime2, seed + prime2, seed, seed + (0 - prime1)⟩ := rfl
    rw [hlanes] at hs
    rw [hs]
    rfl
  · rw [if_neg h, if_neg h]
    rfl

theorem vectorWords_lane (hlen : (inputs i).length = length) (fuel offset : Nat) (hash : M256i) :
    laneWords (inputs i) fuel offset (hash i) =
      ((vectorWords inputs length fuel offset hash).1,
        (vectorWords inputs length fuel offset hash).2 i) := by
  induction fuel generalizing offset hash with
  | zero => rfl
  | succ fuel ih =>
    rw [laneWords, vectorWords, hlen]
    by_cases h : offset + 8 ≤ length
    · rw [if_pos h, if_pos h, ← ih, ← loadU64x4_lane]
      rfl
    · rw [if_neg h, if_neg h]

theorem vectorHalfWord_lane (hlen : (inputs i).length = length) (offset : Nat) (hash : M256i) :
    laneHalfWord (inputs i) offset (hash i) =
      ((vectorHalfWord inputs length offset hash).1,
        (vectorHalfWord inputs length offset hash).2 i) := by
  rw [laneHalfWord, vectorHalfWord, hlen]
  by_cases h : offset + 4 ≤ length
  · rw [if_pos h, if_pos h, ← loadU32x4_lane]
    rfl
  · rw [if_neg h, if_neg h]

/-- The byte loop by offset is the fold over what is left of the input. -/
theorem vectorTail_lane (hlen : (inputs i).length = length) {fuel offset : Nat}
    (hfuel : length ≤ offset + fuel) (hash : M256i) :
    ((inputs i).drop offset).foldl laneTail (hash i) =
      vectorTail inputs length fuel offset hash i := by
  induction fuel generalizing offset hash with
  | zero =>
    rw [List.drop_eq_nil_of_le (by omega)]
    rfl
  | succ fuel ih =>
    rw [vectorTail]
    by_cases h : offset < length
    · have hlt : offset < (inputs i).length := by omega
      have hget : (inputs i)[offset] = (inputs i).getD offset 0 := by simp [hlt]
      rw [if_pos h, ← ih (by omega), List.drop_eq_getElem_cons hlt, List.foldl_cons, hget,
        laneTail, ← loadBytex4_lane]
      rfl
    · rw [if_neg h, List.drop_eq_nil_of_le (by omega)]
      rfl

/-- The vector code leaves in each lane what the lane alone computes. -/
theorem xxh64Batch4Avx2_lanes (inputs : Fin 4 → List UInt8)
    (hlen : ∀ i, (inputs i).length = (inputs 0).length) (seed : UInt64) :
    xxh64Batch4Avx2 inputs seed = [xxh64Lane (inputs 0) seed, xxh64Lane (inputs 1) seed,
      xxh64Lane (inputs 2) seed, xxh64Lane (inputs 3) seed] := by
  have hlane : ∀ i, xxh64Lane (inputs i) seed =
      (let length := (inputs 0).length
       let (offset, hash) := vectorStart inputs length seed
       let hash := mm256AddEpi64 hash (mm256Set1Epi64x (UInt64.ofNat (min length (2 ^ 63 - 1))))
       let (offset, hash) := vectorWords inputs length length offset hash
       let (offset, hash) := vectorHalfWord inputs length offset hash
       vectorAvalanche (vectorTail inputs length length offset hash)) i := by
    intro i
    simp only [xxh64Lane, vectorStart_lane (hlen i), hlen i]
    have hsum : ∀ (h : M256i) (n : UInt64), h i + n = mm256AddEpi64 h (mm256Set1Epi64x n) i :=
      fun _ _ => rfl
    simp only [hsum, vectorWords_lane (hlen i), vectorHalfWord_lane (hlen i),
      vectorTail_lane (hlen i) (Nat.le_add_left _ _)]
    rfl
  rw [hlane, hlane, hlane, hlane]
  rfl

theorem xxh64Batch4_eq (avx2 : Bool) {a b c d : List UInt8} {seed : UInt64}
    (h : a.length < 2 ^ 63) :
    xxh64Batch4 avx2 a b c d seed = [a, b, c, d].map (xxh64 · seed) := by
  rw [xxh64Batch4]
  by_cases hany : ([b, c, d].any fun input => input.length != a.length) = true
  · rw [if_pos hany]
  · rw [if_neg hany]
    simp only [List.any_cons, List.any_nil, Bool.or_false, Bool.or_eq_true, bne_iff_ne, not_or,
      ne_eq, not_not] at hany
    obtain ⟨hb, hc, hd⟩ := hany
    cases avx2 with
    | false => rfl
    | true =>
      have hlen : ∀ i, (![a, b, c, d] i).length = (![a, b, c, d] 0).length := by
        intro i
        fin_cases i
        · rfl
        · exact hb
        · exact hc
        · exact hd
      rw [if_pos rfl, xxh64Batch4Avx2_lanes _ hlen]
      simp only [List.map_cons, List.map_nil]
      rw [← xxh64Lane_eq a seed h, ← xxh64Lane_eq b seed (by omega),
        ← xxh64Lane_eq c seed (by omega), ← xxh64Lane_eq d seed (by omega)]
      rfl

end VectorDigest

end FlorestaDb.Hash
