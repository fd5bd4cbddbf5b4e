import FlorestaDb.Checkpoint
import FlorestaDb.Creation

/-! The heads file byte by byte: a mapped file with its checked accesses, and the functions
that read and write the header, the manifests, the runtime heads and the snapshot roots at the
offsets the source computes. -/
namespace FlorestaDb
open Program Program.Prog Allocator

/-- A mapped file: its bytes and its published length. -/
structure Mapped where
  bytes : Nat → UInt8
  length : Nat

abbrev MappedM := Prog Mapped Error

namespace Mapped

section Access

def copyIn (offset : Nat) (input : List UInt8) : MappedM Unit := atomic fun _ m =>
  match checkedRange m.length offset input.length with
  | .error e => some (.error e, m)
  | .ok () => some (.ok (), { m with bytes := overwrite m.bytes offset input })

def copyOut (m : Mapped) (offset length : Nat) : Except Error (List UInt8) := do
  checkedRange m.length offset length
  return slice m.bytes offset length

/-- The checks of `atomic_u64`; the mapping itself is page aligned. -/
def atomicU64 (m : Mapped) (offset : Nat) : Except Error Unit := do
  checkedRange m.length offset 8
  if offset % 8 ≠ 0 then .error (.corrupt "atomic offset is not aligned") else .ok ()

/-- The word at an offset, in the little-endian order of the supported targets. -/
def word (m : Mapped) (offset : Nat) : UInt64 := UInt64.ofNat (Hash.leValue (slice m.bytes offset 8))

def setWord (m : Mapped) (offset : Nat) (word : UInt64) : Mapped :=
  { m with bytes := overwrite m.bytes offset (Hash.leBytes 8 word.toNat) }

def casReplace (offset : Nat) (replacement : UInt64) : MappedM Unit := atomic fun _ m =>
  match m.atomicU64 offset with
  | .error e => some (.error e, m)
  | .ok () => some (.ok (), m.setWord offset replacement)

def compareExchange (offset : Nat) (expected new : UInt64) : MappedM Bool := atomic fun _ m =>
  match m.atomicU64 offset with
  | .error e => some (.error e, m)
  | .ok () =>
    if m.word offset = expected then some (.ok true, m.setWord offset new)
    else some (.ok false, m)

/-- `try_reserve_exact` of a buffer of a fixed size. -/
def tryReserve : MappedM Unit := .choose fun failed => if failed then throw .outOfMemory else pure ()

def readMappedU64 (m : Mapped) (offset : Nat) : Except Error UInt64 := do
  let bytes ← m.copyOut offset 8
  return UInt64.ofNat (Hash.leValue bytes)

end Access

section Header

/-- `CASDB001`. -/
def headerMagicBytes : List UInt8 := [0x43, 0x41, 0x53, 0x44, 0x42, 0x30, 0x30, 0x31]

def writeHeaderU64 (header : List UInt8) (offset : Nat) (value : UInt64) :
    Except Error (List UInt8) := do
  let last ← okOr (checkedAdd offset 8) (.corrupt "header field overflow")
  if last > header.length then .error (.corrupt "header field is out of bounds")
  else .ok (header.take offset ++ Hash.leBytes 8 value.toNat ++ header.drop last)

def headerChecksum (header : List UInt8) : Except Error UInt64 :=
  if headerChecksumOffset > header.length then
    .error (.corrupt "heads header is too small for its checksum")
  else .ok (Hash.xxh64 (header.take headerChecksumOffset) headerChecksumSeed)

def headerPage (cfg : Config) : Except Error (List UInt8) := do
  let header := List.replicate formatPageSize (0 : UInt8)
  let header ← if 8 > header.length then .error (.corrupt "heads header is too small")
    else .ok (headerMagicBytes ++ header.drop 8)
  let header ← writeHeaderU64 header 8 formatVersion
  let header ← writeHeaderU64 header 16 cfg.mode.code
  let header ← writeHeaderU64 header 24 (UInt64.ofNat cfg.bucketCount)
  let header ← writeHeaderU64 header 32 (UInt64.ofNat keySize)
  let header ← writeHeaderU64 header 40 (UInt64.ofNat cfg.bodyCapacity)
  let header ← writeHeaderU64 header 48 (UInt64.ofNat cfg.blobCapacity)
  let header ← writeHeaderU64 header 56 (UInt64.ofNat cfg.blockSize)
  let header ← writeHeaderU64 header 72 cfg.hashSeed
  let header ← writeHeaderU64 header 80 (UInt64.ofNat nodeSize)
  let header ← writeHeaderU64 header 88 0
  let checksum ← headerChecksum header
  writeHeaderU64 header headerChecksumOffset checksum

def initializeHeader (cfg : Config) : MappedM Unit := do
  tryReserve
  let header ← ofExcept (headerPage cfg)
  copyIn 0 header

def readU64 (bytes : List UInt8) (offset : Nat) : Except Error UInt64 := do
  let last ← okOr (checkedAdd offset 8) (.corrupt "header read overflow")
  if last > bytes.length then .error (.corrupt "header field is out of range")
  else .ok (UInt64.ofNat (Hash.leValue ((bytes.drop offset).take 8)))

def readConfig (m : Mapped) : Except Error Config := do
  let header ← m.copyOut 0 formatPageSize
  if header.take 8 ≠ headerMagicBytes then .error (.corrupt "heads header magic does not match")
  else if (← readU64 header 8) ≠ formatVersion then
    .error (.unsupported "database format version is not supported")
  else if (← readU64 header headerChecksumOffset) ≠ (← headerChecksum header) then
    .error (.corrupt "heads header checksum does not match")
  else
    let mode ← readMode (← readU64 header 16)
    if (← readU64 header 32).toNat ≠ keySize then .error (.corrupt "stored key size is invalid")
    else if (← readU64 header 88) ≠ 0 then .error (.corrupt "stored inline policy is invalid")
    else
      let config : Config := ⟨mode, (← readU64 header 24).toNat, (← readU64 header 40).toNat,
        (← readU64 header 48).toNat, (← readU64 header 56).toNat, ← readU64 header 72⟩
      config.validate
      if (← readU64 header 80).toNat ≠ nodeSize then
        .error (.corrupt "stored body node size is invalid")
      else .ok config

end Header

section Manifests

def readManifest (m : Mapped) (bank : Nat) : Except Error (Option Manifest) := do
  let offset ← manifestOffset bank
  if (← m.readMappedU64 offset) ≠ manifestMagic then .ok none
  else
    let generation := (← m.readMappedU64 (offset + 8)).toNat
    let storedBank := (← m.readMappedU64 (offset + 16)).toNat
    let checksum ← m.readMappedU64 (offset + 24)
    let snapshotChecksum ← m.readMappedU64 (offset + 32)
    if storedBank ≠ bank ∨ generation % 2 ≠ bank ∨
        checksum ≠ manifestChecksum generation bank snapshotChecksum then .ok none
    else .ok (some ⟨generation, bank, snapshotChecksum⟩)

def writeManifest (manifest : Manifest) : MappedM Unit := do
  let offset ← ofExcept (manifestOffset manifest.bank)
  casReplace offset 0
  casReplace (offset + 8) (UInt64.ofNat manifest.generation)
  casReplace (offset + 16) (UInt64.ofNat manifest.bank)
  casReplace (offset + 32) manifest.snapshotChecksum
  casReplace (offset + 24)
    (manifestChecksum manifest.generation manifest.bank manifest.snapshotChecksum)
  casReplace offset manifestMagic

def invalidateManifest (bank : Nat) : MappedM Unit := do
  casReplace (← ofExcept (manifestOffset bank)) 0

end Manifests

section Heads

/-- `slice::chunks`: pieces of `size` elements, the last one what is left. -/
def chunks {α : Type} (size : Nat) (xs : List α) : List (List α) :=
  if size = 0 ∨ xs = [] then []
  else xs.take size :: chunks size (xs.drop size)
termination_by xs.length
decreasing_by
  rename_i h
  have := List.length_pos_iff.mpr fun hnil => h (Or.inr hnil)
  simp only [List.length_drop]
  omega

def wordBytes (words : List UInt64) : List UInt8 :=
  words.flatMap fun word => Hash.leBytes 8 word.toNat

def persistBatches : Nat → List (List UInt64) → MappedM Unit
  | _, [] => pure ()
  | batch, heads :: rest => do
    let first ← ofExcept (okOr (checkedMul batch headBatch) (.corrupt "head batch offset overflow"))
    let bytes ← ofExcept (okOr (checkedMul first 8) (.corrupt "head batch offset overflow"))
    let offset ← ofExcept (okOr (checkedAdd headsStart bytes) (.corrupt "head batch offset overflow"))
    copyIn offset (wordBytes heads)
    persistBatches (batch + 1) rest

def persistRuntimeHeads (runtimeHeads : List UInt64) : MappedM Unit := do
  tryReserve
  persistBatches 0 (chunks headBatch runtimeHeads)

def loadHead (m : Mapped) (bucket : Nat) : Except Error UInt64 := do
  let bytes ← okOr (checkedMul bucket 8) (.corrupt "head offset overflow")
  let offset ← okOr (checkedAdd headsStart bytes) (.corrupt "head offset overflow")
  m.readMappedU64 offset

/-- `create_runtime_heads` with the persisted heads loaded. -/
def createRuntimeHeads (m : Mapped) (bucketCount : Nat) : Except Error (List UInt64) :=
  (List.range bucketCount).mapM m.loadHead

end Heads

section Roots
variable (cfg : Config)

def clearBuckets (bank : Nat) : List Nat → MappedM Unit
  | [] => pure ()
  | bucket :: rest => do
    casReplace (← ofExcept (rootOffset cfg bank bucket)) 0
    clearBuckets bank rest

def clearSnapshotBank (bank : Nat) : MappedM Unit :=
  clearBuckets cfg bank (List.range cfg.bucketCount)

/-- The root of one bucket as `checkpoint_inner` writes it. -/
def writeSnapshotRoot (bank bucket : Nat) (root : UInt64) : MappedM Unit := do
  if ← compareExchange (← ofExcept (rootOffset cfg bank bucket)) 0 root then return ()
  else throw (.corrupt "checkpoint root bank was not empty")

end Roots

end Mapped

end FlorestaDb
