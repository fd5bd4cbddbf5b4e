import FlorestaDb.BatchFetch
import FlorestaDb.Create

/-! The two hashing passes over a prepared batch. They fill in the hash and the bucket of
every entry, four digests at a time, and the entries end up where the scalar digest of
`get` and `put` looks for them. -/
namespace FlorestaDb
open Allocator

variable {cfg : Config} {m : Machine}

section Prepared
variable (cfg : Config) (m : Machine)

def PreparedKey.setHash (entry : PreparedKey) (hash : UInt64) : PreparedKey :=
  { entry with hash := hash, bucket := hash.toNat % cfg.bucketCount }

def PreparedInsert.setHash (entry : PreparedInsert) (hash : UInt64) : PreparedInsert :=
  { entry with hash := hash, bucket := hash.toNat % cfg.bucketCount }

/- One loop over chunks of four, for both kinds of entries: a full chunk is hashed by
   `xxh64_batch4`, the entries of a shorter last chunk one by one. -/
def hashPrepared {α : Type} (key : α → Key) (setHash : α → UInt64 → α) : List α → List α
  | first :: second :: third :: fourth :: rest =>
    let hashes := Hash.xxh64Batch4 m.avx2 (key first).toList (key second).toList
      (key third).toList (key fourth).toList cfg.hashSeed
    List.zipWith setHash [first, second, third, fourth] hashes ++ hashPrepared key setHash rest
  | rest => rest.map fun entry => setHash entry (Hash.xxh64 (key entry).toList cfg.hashSeed)

def hashPreparedKeys : List PreparedKey → List PreparedKey :=
  hashPrepared cfg m PreparedKey.key (PreparedKey.setHash cfg)

def hashPreparedInserts : List PreparedInsert → List PreparedInsert :=
  hashPrepared cfg m PreparedInsert.key (PreparedInsert.setHash cfg)

end Prepared

theorem hashPrepared_eq {α : Type} (key : α → Key) (setHash : α → UInt64 → α) (entries : List α) :
    hashPrepared cfg m key setHash entries =
      entries.map fun entry => setHash entry (hashOf cfg (key entry)) := by
  fun_induction hashPrepared cfg m key setHash entries with
  | case1 first second third fourth rest hashes ih =>
    rw [ih, show hashes = _ from Hash.xxh64Batch4_eq m.avx2 (by simp)]
    rfl
  | case2 rest h => rfl

/-- `prepare_keys` as the source has it: the pass runs over entries that have no hash yet. -/
theorem prepareKeys_pass (cfg : Config) (m : Machine) (keys : List (List UInt8)) :
    prepareKeys cfg m keys = do
      let keys ← validateKeys keys
      let prepared := keys.zipIdx.map fun p => (⟨p.1, 0, 0, p.2⟩ : PreparedKey)
      return (hashPreparedKeys cfg m prepared).mergeSort PreparedKey.le := by
  cases hkeys : validateKeys keys with
  | error e => rw [prepareKeys, hkeys, error_bind, error_bind]
  | ok keys =>
    rw [prepareKeys_eq hkeys, ok_bind, hashPreparedKeys]
    dsimp only
    rw [hashPrepared_eq, List.map_map]
    rfl

theorem prepareBatch_pass (cfg : Config) (m : Machine)
    (entries : List (List UInt8 × Option (List UInt8))) :
    prepareBatch cfg m entries = do
      let entries ← validateEntries cfg entries
      let prepared := entries.zipIdx.map fun p => (⟨p.1.1, p.1.2, 0, 0, p.2⟩ : PreparedInsert)
      return (hashPreparedInserts cfg m prepared).mergeSort PreparedInsert.le := by
  cases hentries : validateEntries cfg entries with
  | error e => rw [prepareBatch, hentries, error_bind, error_bind]
  | ok entries =>
    rw [prepareBatch_eq hentries, ok_bind, hashPreparedInserts]
    dsimp only
    rw [hashPrepared_eq, List.map_map]
    rfl

/- The inputs are slices, and a slice has at most `isize::MAX` bytes. -/
theorem simd_hashing_agrees (cfg : Config) (m : Machine) :
    (∀ (avx2 : Bool) (a b c d : List UInt8) (seed : UInt64), a.length < 2 ^ 63 →
      Hash.xxh64Batch4 avx2 a b c d seed =
        [Hash.xxh64 a seed, Hash.xxh64 b seed, Hash.xxh64 c seed, Hash.xxh64 d seed]) ∧
    (∀ entries : List PreparedKey, hashPreparedKeys cfg m entries = entries.map fun entry =>
      { entry with hash := hashOf cfg entry.key, bucket := bucketOf cfg entry.key }) ∧
    (∀ entries : List PreparedInsert, hashPreparedInserts cfg m entries = entries.map fun entry =>
      { entry with hash := hashOf cfg entry.key, bucket := bucketOf cfg entry.key }) := by
  refine ⟨?_, ?_, ?_⟩
  · intro avx2 a b c d seed h
    exact Hash.xxh64Batch4_eq avx2 h
  · intro entries
    rw [hashPreparedKeys, hashPrepared_eq]
    rfl
  · intro entries
    rw [hashPreparedInserts, hashPrepared_eq]
    rfl

/-- Two stripes, a step of eight bytes, one of four and one of a single byte. -/
def sampleInput (step : Nat) : List UInt8 := (List.range 77).map fun i => UInt8.ofNat (i * step)

/-- Five keys are a chunk of four and one that is left. -/
def samplePrepared : List PreparedKey :=
  [1, 3, 5, 7, 9].map fun n => ⟨Vector.replicate 16 n, 0, 0, n.toNat⟩

theorem simd_hashing_agrees_stripes :
    Hash.xxh64Batch4 true (sampleInput 1) (sampleInput 3) (sampleInput 5) (sampleInput 7) 9 =
      [4188619051545367721, 8878959870002382247, 16610266394642623208, 15649066125208994653] ∧
    (hashPreparedKeys Config.small ⟨8196, true⟩ samplePrepared).map PreparedKey.hash =
      samplePrepared.map fun entry => Hash.xxh64 entry.key.toList 0 := by
  obtain ⟨hbatch, hkeys, -⟩ := simd_hashing_agrees Config.small ⟨8196, true⟩
  refine ⟨?_, ?_⟩
  · rw [hbatch true _ _ _ _ 9 (by decide)]
    decide +kernel
  · rw [hkeys, List.map_map]
    rfl

end FlorestaDb
