import FlorestaDb.Reopen

/-! Checkpoints: every bucket chain is copied into the files of one of two banks, a manifest
in the heads file selects the bank, and `open` rebuilds the runtime files from it. -/
namespace FlorestaDb
open Program Program.Prog Allocator

def manifestMagic : UInt64 := 0x43415343484b5031
def manifestBase : Nat := 128
def manifestStride : Nat := 64

structure Manifest where
  generation : Nat
  bank : Nat
  snapshotChecksum : UInt64
  deriving DecidableEq

/- The snapshot files of one bank. Their contents reach the disk when both allocators are
   synchronized, their names when the directory is. -/
structure Bank where
  store : Store
  present : Bool
  unsynced : Bool
  unnamed : Bool

/-- A handle together with the files of its directory. -/
structure Disk where
  db : Db
  banks : Nat → Bank

/-- A directory without snapshot files. -/
def Disk.created (d : Db) : Disk := ⟨d, fun _ => ⟨Store.created, false, false, false⟩⟩

abbrev DiskM := Prog Disk Error

/-- The two sides of a copy. -/
inductive Place where
  | runtime
  | bank (bank : Nat)
  deriving DecidableEq

def Disk.store (w : Disk) : Place → Store
  | .runtime => w.db.store
  | .bank b => (w.banks b).store

def Disk.setBank (w : Disk) (b : Nat) (f : Bank → Bank) : Disk :=
  { w with banks := Function.update w.banks b (f (w.banks b)) }

def Disk.setStore (w : Disk) : Place → Store → Disk
  | .runtime, s => { w with db := { w.db with store := s } }
  | .bank b, s => w.setBank b fun bank => { bank with store := s }

def onDb {α : Type} (p : TableM α) : DiskM α := p.focus Disk.db fun d w => { w with db := d }

def onPlace {α : Type} (place : Place) (p : StoreM α) : DiskM α :=
  p.focus (fun w => w.store place) fun s w => w.setStore place s

def osCallDisk : DiskM Unit := .choose fun failed => if failed then throw .io else pure ()

section Words
variable (cfg : Config)

def manifestOffset (bank : Nat) : Except Error Nat :=
  if bank > 1 then .error (.corrupt "manifest bank is out of range")
  else .ok (manifestBase + bank * manifestStride)

def rootOffset (bank bucket : Nat) : Except Error Nat := do
  if bucket ≥ cfg.bucketCount then .error (.corrupt "checkpoint bucket is out of range")
  let start ← snapshotBankStart cfg.bucketCount bank
  okOr ((checkedMul bucket 8).bind (checkedAdd start ·)) (.corrupt "checkpoint root offset overflow")

/-- `cas_replace` on a word of the heads file that nobody else writes. -/
def casReplace (offset : Nat) (replacement : UInt64) : DiskM Unit := atomic fun _ w =>
  some (.ok (), { w with db := { w.db with headsFile := w.db.headsFile.write offset replacement } })

def readRoot (bank bucket : Nat) : DiskM Nat := do
  let offset ← ofExcept (rootOffset cfg bank bucket)
  atomic fun _ w => some (.ok (w.db.headsFile.words offset).toNat, w)

def casRoot (bank bucket root : Nat) : DiskM Bool := do
  let offset ← ofExcept (rootOffset cfg bank bucket)
  atomic fun _ w =>
    if w.db.headsFile.words offset = 0 then
      some (.ok true, { w with db := { w.db with
        headsFile := w.db.headsFile.write offset (UInt64.ofNat root) } })
    else some (.ok false, w)

def clearBuckets (bank : Nat) : List Nat → DiskM Unit
  | [] => pure ()
  | bucket :: rest => do
    casReplace (← ofExcept (rootOffset cfg bank bucket)) 0
    clearBuckets bank rest

def clearSnapshotBank (bank : Nat) : DiskM Unit := clearBuckets cfg bank (List.range cfg.bucketCount)

end Words

section Manifests

def mixChecksum (checksum value : UInt64) : UInt64 :=
  Hash.xxh64 (Hash.leBytes 8 value.toNat) checksum

def manifestChecksum (generation bank : Nat) (snapshotChecksum : UInt64) : UInt64 :=
  mixChecksum (mixChecksum (manifestMagic ^^^ UInt64.ofNat bank) (UInt64.ofNat generation))
    snapshotChecksum

def readManifest (f : HeadsFile) (bank : Nat) : Option Manifest :=
  let offset := manifestBase + bank * manifestStride
  if f.words offset ≠ manifestMagic then none
  else
    let generation := (f.words (offset + 8)).toNat
    if (f.words (offset + 16)).toNat ≠ bank ∨ generation % 2 ≠ bank ∨
        f.words (offset + 24) ≠ manifestChecksum generation bank (f.words (offset + 32)) then none
    else some ⟨generation, bank, f.words (offset + 32)⟩

/-- The valid manifests, the newest one first. -/
def readManifests (f : HeadsFile) : List Manifest :=
  match readManifest f 0, readManifest f 1 with
  | some left, some right =>
    if right.generation > left.generation then [right, left] else [left, right]
  | left, right => left.toList ++ right.toList

def writeManifest (manifest : Manifest) : DiskM Unit := do
  let offset ← ofExcept (manifestOffset manifest.bank)
  casReplace offset 0
  casReplace (offset + 8) (UInt64.ofNat manifest.generation)
  casReplace (offset + 16) (UInt64.ofNat manifest.bank)
  casReplace (offset + 32) manifest.snapshotChecksum
  casReplace (offset + 24)
    (manifestChecksum manifest.generation manifest.bank manifest.snapshotChecksum)
  casReplace offset manifestMagic

def invalidateManifest (bank : Nat) : DiskM Unit := do
  casReplace (← ofExcept (manifestOffset bank)) 0

end Manifests

section Files
variable (cfg : Config) (m : Machine)

def removeSnapshotFiles (bank : Nat) : DiskM Unit := do
  osCallDisk
  atomic fun _ w => some (.ok (), w.setBank bank fun b =>
    { b with present := false, unsynced := false, unnamed := true })

def createSnapshot (bank : Nat) : DiskM Unit := do
  ofExcept (createStore cfg)
  osCallDisk
  atomic fun _ w => some (.ok (), w.setBank bank fun _ => ⟨Store.created, true, true, true⟩)

def openSnapshot (bank : Nat) : DiskM Unit := do
  osCallDisk
  atomic fun _ w =>
    if (w.banks bank).present then
      match openStore cfg (w.banks bank).store with
      | .error e => some (.error e, w)
      | .ok s => some (.ok (), w.setStore (.bank bank) s)
    else some (.error .io, w)

def syncSnapshot (bank : Nat) : DiskM Unit := do
  onPlace (.bank bank) (onBody (syncAllocator m cfg.bodyLayout))
  onPlace (.bank bank) (syncBlobs cfg m)
  atomic fun _ w => some (.ok (), w.setBank bank fun b => { b with unsynced := false })

def syncNamespace : DiskM Unit := do
  osCallDisk
  atomic fun _ w => some (.ok (), { w with banks := fun b => { w.banks b with unnamed := false } })

end Files

section Copy
variable (cfg : Config) (m : Machine)

def copyBlob (source destination : Place) (encoded : UInt64) :
    DiskM (UInt64 × Option Allocation) := do
  if !isBlob encoded then return (encoded, none)
  else
    ofExcept (requireBlobs cfg "checkpoint source blob file is missing")
    let header ← onPlace source (readBlobBytes cfg (blobOffset encoded) blobHeaderSize)
    let (length, expectedChecksum) := decodeBlobHeader header
    let valueOffset ← ofExcept (okOr (checkedAdd (blobOffset encoded) blobHeaderSize)
      (.corrupt "checkpoint blob offset overflow"))
    let bytes ← onPlace source (readBlobBytes cfg valueOffset length)
    if expectedChecksum ≠ blobChecksum bytes then
      throw (.corrupt "checkpoint blob checksum does not match")
    else
      ofExcept (requireBlobs cfg "checkpoint blob file is missing")
      let allocation ← onPlace destination
        (onBlobs (allocate cfg.blobLayout m.fuel (blobHeaderSize + bytes.length) 8))
      onPlace destination (writeFreshBlob cfg m.fuel allocation header bytes)
      return (valueBlobTag ||| UInt64.ofNat allocation.offset, some allocation)

/-- `let _released = blobs.release(blob)`: the error of a release is dropped. -/
def dropBlob (place : Place) : Option Allocation → DiskM Unit
  | some blob => do
    let _ ← (onPlace place (onBlobs (release cfg.blobLayout blob m.fuel))).attempt
  | none => pure ()

def copyNode (source destination : Place) (node : Node) (next : Nat) : DiskM Nat := do
  let (value, blob) ← copyBlob cfg m source destination node.value
  match ← (onPlace destination (allocateNode cfg m.fuel node.key value)).attempt with
  | .error e =>
    dropBlob cfg m destination blob
    throw e
  | .ok allocation =>
    match ← (onPlace destination (setPrivateNext cfg allocation.offset 0 next)).attempt with
    | .error e =>
      let _ ← (onPlace destination (onBody (release cfg.bodyLayout allocation m.fuel))).attempt
      dropBlob cfg m destination blob
      throw e
    | .ok () => return allocation.offset

def releaseSnapshotNode (offset : Nat) : StoreM Unit := do
  let node ← readNode cfg offset
  if isBlob node.value then
    if cfg.mode ≠ .map then throw (.corrupt "set snapshot node has a blob tag")
    else
      let header ← readBlobBytes cfg (blobOffset node.value) blobHeaderSize
      let (length, _) := decodeBlobHeader header
      if blobHeaderSize + length ≥ 2 ^ 32 then throw (.corrupt "snapshot blob length overflow")
      else
        let blob ← ofExcept
          (allocationFor cfg.blobLayout (blobOffset node.value) (blobHeaderSize + length))
        onBlobs (release cfg.blobLayout blob m.fuel)
  onBody (release cfg.bodyLayout (← ofExcept (allocationFor cfg.bodyLayout offset nodeSize)) m.fuel)

def releaseSnapshotChain : Nat → Nat → StoreM Unit
  | 0, _ => .spin
  | fuel + 1, root =>
    if root = 0 then pure ()
    else do
      let node ← readNode cfg root
      releaseSnapshotNode cfg m root
      releaseSnapshotChain fuel node.next

def snapshotChainContains (key : Key) : Nat → Nat → StoreM Bool
  | 0, _ => .spin
  | fuel + 1, root =>
    if root = 0 then return false
    else do
      let node ← readNode cfg root
      if node.key = key then return true else snapshotChainContains key fuel node.next

/-- The partial chain is given back before the error is returned. -/
def abandonChain {α : Type} (bank root : Nat) (e : Error) : DiskM α := do
  onPlace (.bank bank) (releaseSnapshotChain cfg m m.fuel root)
  throw e

/-- The node is copied behind the chain from `root` to `tail`, unless its key is there. -/
def appendNode (bank : Nat) (node : Node) (root tail : Nat) : DiskM (Nat × Nat) := do
  if ← onPlace (.bank bank) (snapshotChainContains cfg node.key m.fuel root) then return (root, tail)
  else
    match ← (copyNode cfg m .runtime (.bank bank) node 0).attempt with
    | .error e => abandonChain cfg m bank root e
    | .ok copied =>
      if root = 0 then return (copied, copied)
      else
        match ← (onPlace (.bank bank) (setPrivateNext cfg tail 0 copied)).attempt with
        | .error e =>
          onPlace (.bank bank) (releaseSnapshotNode cfg m copied)
          abandonChain cfg m bank root e
        | .ok () => return (root, copied)

/-- One pass over a chain of the runtime; `none` when a link changed under it. -/
def copyChain (bank : Nat) : Nat → Nat → Nat → Nat → DiskM (Option Nat)
  | 0, _, _, _ => .spin
  | fuel + 1, current, root, tail => do
    if current = 0 then return some root
    else
      match ← (onPlace .runtime (readNode cfg current)).attempt with
      | .error e => abandonChain cfg m bank root e
      | .ok node =>
        let (root, tail) ← appendNode cfg m bank node root tail
        if (← onPlace .runtime (readNext cfg current)) ≠ node.next then
          onPlace (.bank bank) (releaseSnapshotChain cfg m m.fuel root)
          return none
        else copyChain bank fuel node.next root tail

def copyBucketToSnapshot (bank bucket : Nat) : Nat → DiskM Nat
  | 0 => .spin
  | fuel + 1 => do
    let sourceRoot ← onDb (loadHead cfg bucket)
    if (← onDb (loadHead cfg bucket)) ≠ sourceRoot then copyBucketToSnapshot bank bucket fuel
    else
      match ← copyChain cfg m bank m.fuel sourceRoot 0 0 with
      | none => copyBucketToSnapshot bank bucket fuel
      | some root =>
        if (← onDb (loadHead cfg bucket)) ≠ sourceRoot then
          onPlace (.bank bank) (releaseSnapshotChain cfg m m.fuel root)
          copyBucketToSnapshot bank bucket fuel
        else return root

end Copy

section Validation
variable (cfg : Config)

/-- The bound of both traversals. -/
def maximumNodes : Nat := cfg.bodyCapacity / nodeSize + 1

/-- `snapshot_prefix_contains`; `left` is what remains of the bound. -/
def snapshotPrefixContains (target : Nat) (key : Key) : Nat → Nat → StoreM Bool
  | left, current => do
    if current = target then return false
    else if current = 0 then throw (.corrupt "checkpoint target is not reachable from its root")
    else
      match left with
      | 0 => throw (.corrupt "checkpoint prefix contains a cycle")
      | left + 1 =>
        let node ← readNode cfg current
        if node.key = key then return true
        else snapshotPrefixContains target key left node.next

def validateSnapshotBlob (node : Node) : StoreM Unit := do
  if cfg.mode = .set then
    if node.value = 0 then return () else throw (.corrupt "set checkpoint node stores a value")
  else if !isBlob node.value then return ()
  else
    let offset := blobOffset node.value
    let header ← readBlobBytes cfg offset blobHeaderSize
    let (length, expectedChecksum) := decodeBlobHeader header
    if blobHeaderSize + length ≥ 2 ^ 32 then throw (.corrupt "checkpoint blob length overflow")
    else
      let _ ← ofExcept (allocationFor cfg.blobLayout offset (blobHeaderSize + length))
      let valueOffset ← ofExcept (okOr (checkedAdd offset blobHeaderSize)
        (.corrupt "checkpoint blob offset overflow"))
      let bytes ← readBlobBytes cfg valueOffset length
      if expectedChecksum ≠ blobChecksum bytes then
        throw (.corrupt "checkpoint blob checksum does not match")
      else return ()

/-- The checksum of a node is mixed into that of the snapshot. -/
def mixNode (checksum : UInt64) (node : Node) : UInt64 :=
  Hash.xxh64 node.key.toList
    (mixChecksum (mixChecksum (mixChecksum checksum (UInt64.ofNat node.offset))
      (UInt64.ofNat node.next)) node.value)

/-- The nodes of one chain. -/
def chainChecksum (bucket root : Nat) : Nat → Nat → UInt64 → StoreM UInt64
  | left, current, checksum => do
    if current = 0 then return checksum
    else
      match left with
      | 0 => throw (.corrupt "checkpoint body chain contains a cycle")
      | left + 1 =>
        let _ ← ofExcept (allocationFor cfg.bodyLayout current nodeSize)
        let node ← readNode cfg current
        if bucketOf cfg node.key ≠ bucket then
          throw (.corrupt "checkpoint node is in the wrong hash bucket")
        else if ← snapshotPrefixContains cfg current node.key (maximumNodes cfg) root then
          throw (.corrupt "checkpoint contains a duplicate key")
        else
          validateSnapshotBlob cfg node
          chainChecksum bucket root left node.next (mixNode checksum node)

def bucketsChecksum (bank : Nat) : List Nat → UInt64 → DiskM UInt64
  | [], checksum => return checksum
  | bucket :: rest, checksum => do
    let root ← readRoot cfg bank bucket
    let mixed := mixChecksum (mixChecksum checksum (UInt64.ofNat bucket)) (UInt64.ofNat root)
    bucketsChecksum bank rest
      (← onPlace (.bank bank) (chainChecksum cfg bucket root (maximumNodes cfg) root mixed))

def snapshotChecksum (bank : Nat) : DiskM UInt64 :=
  bucketsChecksum cfg bank (List.range cfg.bucketCount) manifestMagic

def validateSnapshot (manifest : Manifest) : DiskM Unit := do
  if (← snapshotChecksum cfg manifest.bank) ≠ manifest.snapshotChecksum then
    throw (.corrupt "checkpoint snapshot checksum does not match")
  else return ()

end Validation

section Checkpoint
variable (cfg : Config) (m : Machine)

def copyBuckets (bank : Nat) : List Nat → DiskM Unit
  | [] => pure ()
  | bucket :: rest => do
    let root ← copyBucketToSnapshot cfg m bank bucket m.fuel
    if ← casRoot cfg bank bucket root then copyBuckets bank rest
    else throw (.corrupt "checkpoint root bank was not empty")

def loadGeneration : DiskM Nat := atomic fun _ w => some (.ok w.db.checkpointGeneration, w)

def casGeneration (expected new : Nat) : DiskM Bool := atomic fun _ w =>
  if w.db.checkpointGeneration = expected then
    some (.ok true, { w with db := { w.db with checkpointGeneration := new } })
  else some (.ok false, w)

def checkpointInner : DiskM Nat := do
  let previous ← loadGeneration
  let generation ← ofExcept (okOr (checkedAdd previous 1) (.capacityExhausted "checkpoint generation"))
  let bank := generation % 2
  invalidateManifest bank
  onDb syncHeads
  removeSnapshotFiles bank
  clearSnapshotBank cfg bank
  createSnapshot cfg bank
  copyBuckets cfg m bank (List.range cfg.bucketCount)
  let checksum ← snapshotChecksum cfg bank
  syncSnapshot cfg m bank
  syncNamespace
  onDb syncHeads
  writeManifest ⟨generation, bank, checksum⟩
  onDb syncHeads
  if ← casGeneration previous generation then return generation
  else throw (.corrupt "checkpoint generation changed unexpectedly")

def cleanupFailedCheckpoint (bank : Nat) : DiskM Unit := do
  invalidateManifest bank
  onDb syncHeads
  removeSnapshotFiles bank
  clearSnapshotBank cfg bank
  syncNamespace

def casCheckpointState (expected new : Nat) : DiskM Bool := atomic fun _ w =>
  if w.db.checkpointState = expected then
    some (.ok true, { w with db := { w.db with checkpointState := new } })
  else some (.ok false, w)

def storeCheckpointState (value : Nat) : DiskM Unit := atomic fun _ w =>
  some (.ok (), { w with db := { w.db with checkpointState := value } })

def acquireCheckpoint : DiskM Unit := do
  if ← casCheckpointState 0 1 then return () else throw (.busy "another checkpoint is active")

/-- The checkpoint once its state is set. -/
def checkpointChecked : DiskM Nat := do
  let compaction ← atomic fun _ w => some (.ok w.db.compactionState, w)
  if compaction ≠ 0 then throw (.busy "compaction is active")
  else
    let generation ← loadGeneration
    let failed ← ofExcept (okOr (checkedAdd generation 1) (.capacityExhausted "checkpoint generation"))
    match ← (checkpointInner cfg m).attempt with
    | .ok generation => return generation
    | .error e =>
      let _ ← (cleanupFailedCheckpoint cfg (failed % 2)).attempt
      throw e

def checkpoint : DiskM Nat :=
  guarded (onDb lockQuiescenceRead) (onDb unlockQuiescenceRead)
    (guarded acquireCheckpoint (storeCheckpointState 0) (checkpointChecked cfg m))

end Checkpoint

section Open
variable (cfg : Config) (m : Machine)

def rebuildChain (bank : Nat) : Nat → Nat → Nat → DiskM Nat
  | 0, _, _ => .spin
  | fuel + 1, source, runtimeRoot => do
    if source = 0 then return runtimeRoot
    else
      let node ← onPlace (.bank bank) (readNode cfg source)
      let copied ← copyNode cfg m (.bank bank) .runtime node runtimeRoot
      rebuildChain bank fuel node.next copied

def rebuildBuckets (bank : Nat) : List Nat → DiskM Unit
  | [] => pure ()
  | bucket :: rest => do
    let source ← readRoot cfg bank bucket
    let root ← rebuildChain cfg m bank m.fuel source 0
    if ← onDb (casHead cfg bucket 0 root) then rebuildBuckets bank rest
    else throw (.corrupt "runtime head was not cleared during recovery")

def rebuildRuntime (bank : Nat) : DiskM Unit :=
  rebuildBuckets cfg m bank (List.range cfg.bucketCount)

/-- The runtime files are replaced by empty ones, and a new handle is made for them. -/
def replaceRuntime (generation : Nat) : DiskM Unit := do
  osCallDisk
  atomic fun _ w => some (.ok (), w.setStore .runtime Store.created)
  ofExcept (createStore cfg)
  osCallDisk
  atomic fun _ w => some (.ok (), { w with db := Db.fresh w.db.headsFile generation })

def openGeneration (manifest : Manifest) : DiskM Unit := do
  osCallDisk
  openSnapshot cfg manifest.bank
  validateSnapshot cfg manifest
  osCallDisk
  replaceRuntime cfg manifest.generation
  rebuildRuntime cfg m manifest.bank

/-- The first manifest whose generation opens; otherwise the first error. -/
def openFirst : List Manifest → Option Error → DiskM Config
  | [], first => throw (first.getD (.corrupt "database has no valid checkpoint"))
  | manifest :: rest, first => do
    match ← (openGeneration cfg m manifest).attempt with
    | .ok () => return cfg
    | .error e => openFirst rest (some (first.getD e))

end Open

/-- `Database::open` on a heads file of the given length. -/
def openDatabase (m : Machine) (length : Nat) : DiskM Config := do
  osCallDisk
  ofExcept (validateMappingLength length)
  let f ← atomic fun _ w => some (.ok w.db.headsFile, w)
  let cfg ← ofExcept (readConfig f)
  let expected ← ofExcept (headsLength cfg.bucketCount)
  if expected ≠ length then throw (.corrupt "heads file length does not match its configuration")
  else openFirst cfg m (readManifests f) none

end FlorestaDb
