import FlorestaDb.Table

/-! The batch operations of the table, `sync`, and the online compaction pass. -/
namespace FlorestaDb
open Program Program.Prog Allocator

section Prepare
variable (cfg : Config) (m : Machine)

/-- The digests of all keys, four at a time. -/
def hashKeys : List Key → List UInt64
  | a :: b :: c :: d :: rest =>
    Hash.xxh64Batch4 m.avx2 a.toList b.toList c.toList d.toList cfg.hashSeed ++ hashKeys rest
  | rest => rest.map (hashOf cfg)

def validateKeys : List (List UInt8) → Except Error (List Key)
  | [] => .ok []
  | key :: rest => do
    let key ← validateKey key
    return key :: (← validateKeys rest)

def preparedKey (key : Key) (hash : UInt64) (order : Nat) : PreparedKey :=
  ⟨key, hash, hash.toNat % cfg.bucketCount, order⟩

/-- The sort key of `prepare_keys`: bucket, hash, input order. -/
def PreparedKey.le (a b : PreparedKey) : Bool :=
  a.bucket < b.bucket || a.bucket = b.bucket &&
    (a.hash < b.hash || a.hash = b.hash && a.order ≤ b.order)

def prepareKeys (keys : List (List UInt8)) : Except Error (List PreparedKey) := do
  let keys ← validateKeys keys
  let hashes := hashKeys cfg m keys
  let prepared := ((keys.zip hashes).zipIdx).map fun p => preparedKey cfg p.1.1 p.1.2 p.2
  return prepared.mergeSort PreparedKey.le

/-- Adjacent entries of one bucket, as the loops over `prepared` cut them. -/
def bucketGroups (prepared : List PreparedKey) : List (List PreparedKey) :=
  prepared.splitBy fun a b => a.bucket = b.bucket

def hasDuplicate : List PreparedKey → Bool
  | [] => false
  | entry :: rest => rest.any (fun other => entry.key = other.key) || hasDuplicate rest

def validateUniqueBatchKeys (prepared : List PreparedKey) : Except Error Unit :=
  if (prepared.splitBy fun a b => a.bucket = b.bucket && a.hash = b.hash).any hasDuplicate then
    .error (.invalidConfig "destructive batch keys must be globally unique")
  else .ok ()

def validateEntries :
    List (List UInt8 × Option (List UInt8)) → Except Error (List (Key × Option (List UInt8)))
  | [] => .ok []
  | (key, value) :: rest => do
    let key ← validateKey key
    validateValue cfg value
    return (key, value) :: (← validateEntries rest)

def PreparedInsert.le (a b : PreparedInsert) : Bool :=
  a.bucket < b.bucket || a.bucket = b.bucket && a.order ≤ b.order

def prepareBatch (entries : List (List UInt8 × Option (List UInt8))) :
    Except Error (List PreparedInsert) := do
  let entries ← validateEntries cfg entries
  let hashes := hashKeys cfg m (entries.map (·.1))
  let prepared := ((entries.zip hashes).zipIdx).map fun p =>
    (⟨p.1.1.1, p.1.1.2, p.1.2, p.1.2.toNat % cfg.bucketCount, p.2⟩ : PreparedInsert)
  return prepared.mergeSort PreparedInsert.le

/-- `prepared[partition_point(hash < node_hash)..]` of a group sorted by hash. -/
def fromHash (prepared : List PreparedKey) (hash : UInt64) : List PreparedKey :=
  prepared.dropWhile fun entry => entry.hash < hash

end Prepare

section Fetch
variable (cfg : Config) (m : Machine)

structure Fetched where
  results : List (Option UInt64)
  remaining : Nat

/-- The entries from the first with the node's hash on: those of its key take its value. -/
def fetchMatches (node : Node) (hash : UInt64) : List PreparedKey → Fetched → Except Error Fetched
  | [], acc => .ok acc
  | entry :: rest, acc =>
    if entry.hash ≠ hash then .ok acc
    else match acc.results[entry.order]? with
      | none => .error (.corrupt "batch-fetch result index is out of range")
      | some result =>
        if result.isNone ∧ entry.key = node.key then
          match checkedSub acc.remaining 1 with
          | none => .error (.corrupt "batch-fetch match count underflow")
          | some remaining =>
            fetchMatches node hash rest ⟨acc.results.set entry.order (some node.value), remaining⟩
        else fetchMatches node hash rest acc

def clearResults : List PreparedKey → List (Option UInt64) → Except Error (List (Option UInt64))
  | [], results => .ok results
  | entry :: rest, results =>
    if entry.order < results.length then clearResults rest (results.set entry.order none)
    else .error (.corrupt "batch-fetch result index is out of range")

/-- One bucket of `batch_fetch`; without a cursor the traversal (re)starts. -/
def fetchBucketBatch (bucket : Nat) (prepared : List PreparedKey) :
    Nat → Fetched → Option Cursor → TableM (List (Option UInt64))
  | 0, _, _ => .spin
  | fuel + 1, acc, none => do
    let results ← ofExcept (clearResults prepared acc.results)
    let root ← linkValue cfg (.head bucket)
    fetchBucketBatch bucket prepared fuel ⟨results, prepared.length⟩
      (some ⟨root, .head bucket, root⟩)
  | fuel + 1, acc, some c => do
    if c.current = 0 then
      if (← loadHead cfg bucket) = c.root then return acc.results
      else fetchBucketBatch bucket prepared fuel acc none
    else
      match ← observe cfg c.link c.current with
      | none => fetchBucketBatch bucket prepared fuel acc none
      | some node =>
        let hash := hashOf cfg node.key
        let acc ← ofExcept (fetchMatches node hash (fromHash prepared hash) acc)
        if acc.remaining = 0 then
          if (← loadHead cfg bucket) = c.root then return acc.results
          else fetchBucketBatch bucket prepared fuel acc none
        else
          fetchBucketBatch bucket prepared fuel acc
            (some ⟨c.root, .node c.current, node.next⟩)

def fetchBuckets : List (List PreparedKey) → List (Option UInt64) →
    TableM (List (Option UInt64))
  | [], results => pure results
  | [] :: rest, results => fetchBuckets rest results
  | (first :: group) :: rest, results => do
    let results ← fetchBucketBatch cfg first.bucket (first :: group) m.fuel ⟨results, 0⟩ none
    fetchBuckets rest results

/-- The blob-tagged values with their positions; inline values are decoded at once. -/
def readBlobsInto : List (Nat × Nat) → List (Option (List UInt8)) →
    TableM (List (Option (List UInt8)))
  | [], results => pure results
  | (offset, order) :: rest, results => do
    let value ← onStore (readBlob cfg offset)
    readBlobsInto rest (results.set order (some value))

def materializeValues (encoded : List (Option UInt64)) : TableM (List (Option (List UInt8))) :=
  let results := encoded.map fun value => value.bind fun word =>
    if isBlob word then none else some (inlineValueBytes word)
  let blobs := (encoded.zipIdx.filterMap fun p => p.1.bind fun word =>
    if isBlob word then some (blobOffset word, p.2) else none).mergeSort
      fun a b => a.1 ≤ b.1
  readBlobsInto cfg blobs results

def batchFetch (keys : List (List UInt8)) : TableM (List (Option (List UInt8))) := operation do
  ofExcept (requireMode cfg .map "batch_fetch is available only for maps")
  let prepared ← ofExcept (prepareKeys cfg m keys)
  let encoded ← fetchBuckets cfg m (bucketGroups prepared) (List.replicate prepared.length none)
  materializeValues cfg encoded

end Fetch

section Remove
variable (cfg : Config) (m : Machine)

/-- Where a removing traversal stands; the expected head follows its own removals. -/
structure Removal where
  link : Link
  current : Nat
  expectedHead : Nat
  remaining : Nat

/-- The first entry of the node's key that is still to be removed. -/
def matchingEntry {α : Type} (pending : Option α → Bool) (results : List α)
    (prepared : List PreparedKey) (node : Node) (hash : UInt64) : Option PreparedKey :=
  (fromHash prepared hash).find? fun entry =>
    entry.hash = hash && pending results[entry.order]? && entry.key = node.key

def stillPresent (deleted : Option Bool) : Bool := !(deleted.getD false)

def stillUnread (encoded : Option (Option UInt64)) : Bool := (encoded.bind id).isNone

/-- The head a traversal expects after it removed the node behind `link`. -/
def Removal.expected (w : Removal) (next : Nat) : Nat :=
  match w.link with
  | .head _ => next
  | .node _ => w.expectedHead

def deleteBucketBatch (bucket : Nat) (prepared : List PreparedKey) :
    Nat → List Bool → Option Removal → TableM (List Bool)
  | 0, _, _ => .spin
  | fuel + 1, deleted, none => do
    let remaining := prepared.countP fun entry => stillPresent deleted[entry.order]?
    if remaining = 0 then return deleted
    else
      let head ← loadHead cfg bucket
      deleteBucketBatch bucket prepared fuel deleted (some ⟨.head bucket, head, head, remaining⟩)
  | fuel + 1, deleted, some w => do
    if w.current = 0 then
      if (← loadHead cfg bucket) = w.expectedHead then return deleted
      else deleteBucketBatch bucket prepared fuel deleted none
    else
      match ← observe cfg w.link w.current with
      | none => deleteBucketBatch bucket prepared fuel deleted none
      | some node =>
        match matchingEntry stillPresent deleted prepared node (hashOf cfg node.key) with
        | none =>
          deleteBucketBatch bucket prepared fuel deleted
            (some { w with link := .node w.current, current := node.next })
        | some entry =>
          match ← (unlinkLink cfg m w.link node).attempt with
          | .error e =>
            if e.isBusy then deleteBucketBatch bucket prepared fuel deleted none else throw e
          | .ok () =>
            if entry.order ≥ deleted.length then
              throw (.corrupt "batch-delete result index is out of range")
            else match checkedSub w.remaining 1 with
              | none => throw (.corrupt "batch-delete match count underflow")
              | some remaining =>
                let deleted := deleted.set entry.order true
                if remaining = 0 then return deleted
                else
                  deleteBucketBatch bucket prepared fuel deleted
                    (some ⟨w.link, node.next, w.expected node.next, remaining⟩)

def deleteBuckets : List (List PreparedKey) → List Bool → TableM (List Bool)
  | [], deleted => pure deleted
  | [] :: rest, deleted => deleteBuckets rest deleted
  | (first :: group) :: rest, deleted => do
    let deleted ← withDeleteLock cfg m first.bucket
      (deleteBucketBatch cfg m first.bucket (first :: group) m.fuel deleted none)
    deleteBuckets rest deleted

def batchDelete (keys : List (List UInt8)) : TableM (List Bool) := operation do
  let prepared ← ofExcept (prepareKeys cfg m keys)
  ofExcept (validateUniqueBatchKeys prepared)
  deleteBuckets cfg m (bucketGroups prepared) (List.replicate prepared.length false)

/-- What `pop_bucket_batch` fills in: the removed values and the nodes kept reserved. -/
structure Popped where
  encoded : List (Option UInt64)
  detached : List DetachedNode

/-- Like `delete_bucket_batch`, but a removed node stays allocated. The detached nodes are
part of the result also when the traversal fails. -/
def popBucketBatch (bucket : Nat) (prepared : List PreparedKey) :
    Nat → Popped → Option Removal → TableM (Popped × Except Error Unit)
  | 0, _, _ => .spin
  | fuel + 1, acc, none => do
    let remaining := prepared.countP fun entry => stillUnread acc.encoded[entry.order]?
    if remaining = 0 then return (acc, .ok ())
    else
      match ← (loadHead cfg bucket).attempt with
      | .error e => return (acc, .error e)
      | .ok head =>
        popBucketBatch bucket prepared fuel acc (some ⟨.head bucket, head, head, remaining⟩)
  | fuel + 1, acc, some w => do
    if w.current = 0 then
      match ← (loadHead cfg bucket).attempt with
      | .error e => return (acc, .error e)
      | .ok head =>
        if head = w.expectedHead then return (acc, .ok ())
        else popBucketBatch bucket prepared fuel acc none
    else
      match ← (observe cfg w.link w.current).attempt with
      | .error e => return (acc, .error e)
      | .ok none => popBucketBatch bucket prepared fuel acc none
      | .ok (some node) =>
        match matchingEntry stillUnread acc.encoded prepared node (hashOf cfg node.key) with
        | none =>
          popBucketBatch bucket prepared fuel acc
            (some { w with link := .node w.current, current := node.next })
        | some entry =>
          match ← (detachLink cfg m w.link node).attempt with
          | .error e =>
            if e.isBusy then popBucketBatch bucket prepared fuel acc none
            else return (acc, .error e)
          | .ok allocation =>
            if entry.order ≥ acc.encoded.length then
              return (acc, .error (.corrupt "batch-pop result index is out of range"))
            else
              let acc := ⟨acc.encoded.set entry.order (some node.value),
                acc.detached ++ [allocation]⟩
              match checkedSub w.remaining 1 with
              | none => return (acc, .error (.corrupt "batch-pop match count underflow"))
              | some remaining =>
                if remaining = 0 then return (acc, .ok ())
                else
                  popBucketBatch bucket prepared fuel acc
                    (some ⟨w.link, node.next, w.expected node.next, remaining⟩)

def popBuckets : List (List PreparedKey) → Popped → TableM (Popped × Except Error Unit)
  | [], acc => pure (acc, .ok ())
  | [] :: rest, acc => popBuckets rest acc
  | (first :: group) :: rest, acc => do
    match ← (withDeleteLock cfg m first.bucket
        (popBucketBatch cfg m first.bucket (first :: group) m.fuel acc none)).attempt with
    | .error e => return (acc, .error e)
    | .ok (acc, .error e) => return (acc, .error e)
    | .ok (acc, .ok ()) => popBuckets rest acc

def popOperation (prepared : List PreparedKey) :
    TableM (Popped × Except Error (List (Option (List UInt8)))) := do
  let (acc, result) ← popBuckets cfg m (bucketGroups prepared)
    ⟨List.replicate prepared.length none, []⟩
  match result with
  | .error e => return (acc, .error e)
  | .ok () =>
    let values ← (materializeValues cfg acc.encoded).attempt
    return (acc, values)

def batchPop (keys : List (List UInt8)) : TableM (List (Option (List UInt8))) := operation do
  ofExcept (requireMode cfg .map "batch_pop is available only for maps")
  let prepared ← ofExcept (prepareKeys cfg m keys)
  ofExcept (validateUniqueBatchKeys prepared)
  let (acc, result) ← popOperation cfg m prepared
  let release ← (eachFirstError (releaseDetached cfg m) acc.detached.reverse).attempt
  match result, release with
  | .ok values, .ok () => return values
  | .error e, _ => throw e
  | .ok _, .error e => throw e

end Remove

section Insert
variable (cfg : Config) (m : Machine)

def initializeReservedInsert (entry : PreparedInsert) (node : Allocation) :
    StoreM PrivateInsert := do
  let blob ← allocateBlob cfg m.fuel entry.value
  let encoded ← ofExcept (encodedValue cfg entry.value blob)
  match ← (writeNode node entry.key encoded).attempt with
  | .ok () => return ⟨node, blob, entry.bucket⟩
  | .error e =>
    match blob with
    | some blob =>
      releaseBlob cfg m.fuel blob
      throw e
    | none => throw e

def releaseAll : List Allocation → StoreM Unit
  | [] => pure ()
  | allocation :: rest => do
    onBody (release cfg.bodyLayout allocation m.fuel)
    releaseAll rest

/-- The entries of one reservation; on an error the unused reservations are given back. -/
def initializeReserved : List PreparedInsert → List Allocation → List PrivateInsert →
    StoreM (List PrivateInsert × Except Error Unit)
  | [], _, inserts => pure (inserts, .ok ())
  | _ :: _, [], inserts => pure (inserts, .error (.corrupt "batch allocation ended early"))
  | entry :: rest, allocation :: unused, inserts => do
    match ← (initializeReservedInsert cfg m entry allocation).attempt with
    | .ok insert => initializeReserved rest unused (inserts ++ [insert])
    | .error e =>
      match ← (releaseAll cfg m (allocation :: unused)).attempt with
      | .ok () => return (inserts, .error e)
      | .error e' => return (inserts, .error e')

/-- Reserve body nodes in page-sized chunks until every entry has one. -/
def allocatePrivateInserts : Nat → List PreparedInsert → List PrivateInsert →
    StoreM (List PrivateInsert × Except Error Unit)
  | 0, _, _ => .spin
  | fuel + 1, prepared, inserts => do
    if prepared.isEmpty then return (inserts, .ok ())
    else
      match ← (onBody (allocateBatch cfg.bodyLayout m.fuel nodeSize nodeAlignment
          prepared.length)).attempt with
      | .error e => return (inserts, .error e)
      | .ok reserved =>
        let (inserts, result) ← initializeReserved cfg m (prepared.take reserved.count)
          reserved.allocations inserts
        match result with
        | .error e => return (inserts, .error e)
        | .ok () => allocatePrivateInserts fuel (prepared.drop reserved.count) inserts

def linkPrivateBatch : List PrivateInsert → StoreM Unit
  | previous :: current :: rest => do
    if previous.bucket = current.bucket then
      setPrivateNext cfg current.node.offset 0 previous.node.offset
      linkPrivateBatch (current :: rest)
    else linkPrivateBatch (current :: rest)
  | _ => pure ()

/-- The group of each run of one bucket: its first node is the tail, its last the root. -/
def collectPrivateGroups (inserts : List PrivateInsert) : Except Error (List PrivateGroup) :=
  (inserts.splitBy fun a b => a.bucket = b.bucket).mapM fun group =>
    match group.head?, group.getLast? with
    | some first, some last =>
      (checkHead cfg first.bucket).map fun _ => ⟨first.bucket, first.node.offset, last.node.offset⟩
    | _, _ => .error (.corrupt "empty private group")

def releasePrivateBatch (inserts : List PrivateInsert) : TableM Unit :=
  eachFirstError (fun insert : PrivateInsert =>
    onStore (releasePrivate cfg m.fuel insert.node insert.blob)) inserts.reverse

def commitGroups : List PrivateGroup → TableM Unit
  | [] => pure ()
  | group :: rest => do
    commitPrivateGroup cfg group m.fuel
    commitGroups rest

/-- Give the private nodes back, then return the error that caused it. -/
def abandonBatch {α : Type} (inserts : List PrivateInsert) (e : Error) : TableM α := do
  releasePrivateBatch cfg m inserts
  throw e

def insertBatchInner (entries : List (List UInt8 × Option (List UInt8))) : TableM Nat :=
  operation do
    let prepared ← ofExcept (prepareBatch cfg m entries)
    if prepared.isEmpty then return 0
    else
      let (inserts, result) ← onStore (allocatePrivateInserts cfg m (prepared.length + 1)
        prepared [])
      match result with
      | .error e => abandonBatch cfg m inserts e
      | .ok () =>
        match ← (onStore (linkPrivateBatch cfg inserts)).attempt with
        | .error e => abandonBatch cfg m inserts e
        | .ok () =>
          match collectPrivateGroups cfg inserts with
          | .error e => abandonBatch cfg m inserts e
          | .ok groups =>
            commitGroups cfg m groups
            return prepared.length

def addBatch (keys : List (List UInt8)) : TableM Nat := do
  ofExcept (requireMode cfg .set "add_batch is available only for sets")
  insertBatchInner cfg m (keys.map fun key => (key, none))

/-- `write_only` followed by `put_batch`. -/
def putBatch (entries : List (List UInt8 × List UInt8)) : TableM Nat := do
  ofExcept (requireMode cfg .map "write_only is available only for maps")
  insertBatchInner cfg m (entries.map fun entry => (entry.1, some entry.2))

end Insert

section Sync
variable (cfg : Config) (m : Machine)

/-- `BlockAllocator::sync_all`: the unfinished page is sealed before the flush. -/
def syncAllocator (L : Layout) : AllocM Unit := do
  sealCurrent L m.fuel
  osCall
  osCall

def syncBlobs : StoreM Unit :=
  if cfg.mode = .map then onBlobs (syncAllocator m cfg.blobLayout) else pure ()

def loadHeads : List Nat → TableM (List Nat)
  | [] => pure []
  | bucket :: rest => do
    let head ← loadHead cfg bucket
    return head :: (← loadHeads rest)

def storeHeads : List (Nat × Nat) → TableM Unit
  | [] => pure ()
  | (bucket, head) :: rest => do
    atomic fun _ d => some (.ok (), { d with
      headsFile := d.headsFile.write (headsStart + bucket * 8) (UInt64.ofNat head) })
    storeHeads rest

def headBatch : Nat := 131072

/-- The heads in batches: each batch is read, then copied to the heads file. -/
def persistBatches : List (List Nat) → TableM Unit
  | [] => pure ()
  | batch :: rest => do
    let heads ← loadHeads cfg batch
    storeHeads (batch.zip heads)
    persistBatches rest

def persistRuntimeHeads : TableM Unit :=
  persistBatches cfg ((List.range cfg.bucketCount).toChunks headBatch)

def osCallTable : TableM Unit := .choose fun failed => if failed then throw .io else pure ()

def syncHeads : TableM Unit := do
  osCallTable
  atomic fun _ d => some (.ok (), { d with headsFile := d.headsFile.sync })

def sync : TableM Unit := operation do
  onStore (onBody (syncAllocator m cfg.bodyLayout))
  onStore (syncBlobs cfg m)
  persistRuntimeHeads cfg
  syncHeads

end Sync

section Compaction
variable (cfg : Config) (m : Machine)

/-- Relocate the node at `offset` while the bucket lock is held; the old allocation is
returned when the link was swung. -/
def relocateLoop (bucket offset : Nat) : Nat → TableM (Option Allocation)
  | 0 => .spin
  | fuel + 1 => do
    match ← findOffset cfg bucket offset m.fuel none with
    | none => return none
    | some (node, link) =>
      let replacement ← onStore (allocateNode cfg m.fuel node.key node.value)
      match ← (onStore (setPrivateNext cfg replacement.offset 0 node.next)).attempt with
      | .error e =>
        onStore (tombstoneNode cfg replacement.offset)
        onStore (onBody (release cfg.bodyLayout replacement m.fuel))
        throw e
      | .ok () =>
        if ← compareExchangeLink cfg link node.offset replacement.offset then
          return some (← ofExcept (allocationFor cfg.bodyLayout node.offset nodeSize))
        else
          onStore (tombstoneNode cfg replacement.offset)
          onStore (onBody (release cfg.bodyLayout replacement m.fuel))
          relocateLoop bucket offset fuel

def relocateSlot (offset : Nat) : TableM (Option Allocation) := do
  match ← onStore (readNodeIfPresent cfg offset) with
  | none => return none
  | some scanned =>
    let bucket := bucketOf cfg scanned.key
    withDeleteLock cfg m bucket (relocateLoop cfg m bucket offset m.fuel)

def relocateSlots : List Nat → List Allocation → TableM (List Allocation × Except Error Unit)
  | [], retired => pure (retired, .ok ())
  | offset :: rest, retired => do
    match ← (relocateSlot cfg m offset).attempt with
    | .error e => return (retired, .error e)
    | .ok none => relocateSlots rest retired
    | .ok (some allocation) => relocateSlots rest (retired ++ [allocation])

def relocateBlocks : List Nat → List Allocation → TableM (List Allocation × Except Error Unit)
  | [], retired => pure (retired, .ok ())
  | block :: rest, retired => do
    match dataOffset cfg.bodyLayout block with
    | .error e => return (retired, .error e)
    | .ok base =>
      let offsets := (List.range (cfg.blockSize / nodeSize)).map fun slot =>
        base + slot * nodeSize
      let (retired, result) ← relocateSlots cfg m offsets retired
      match result with
      | .error e => return (retired, .error e)
      | .ok () => relocateBlocks rest retired

def retireNode (allocation : Allocation) : TableM Unit := do
  onStore (tombstoneNode cfg allocation.offset)
  onStore (onBody (release cfg.bodyLayout allocation m.fuel))

def reclaimCompactionNodes (retired : List Allocation) : TableM Unit :=
  guarded lockQuiescenceWrite unlockQuiescenceWrite (eachFirstError (retireNode cfg m) retired)

def countReclaimed : List Nat → TableM Nat
  | [] => pure 0
  | block :: rest => do
    let live ← onStore (onBody (blockLiveCount cfg.bodyLayout block))
    let others ← countReclaimed rest
    return (if live = 0 then 1 else 0) + others

/-- The relocation pass under the operation guard. -/
def relocate (minimumPageLoad : Nat) :
    TableM (List Nat × List Allocation × Except Error Unit) := operation do
  let candidates ← onStore (onBody (blocksBelowLoad (minimumPageLoad - 1) m.fuel))
  let (retired, result) ← relocateBlocks cfg m candidates []
  return (candidates, retired, result)

def compactInner (minimumPageLoad : Nat) : TableM CompactionStats := do
  let active ← atomic fun _ d => some (.ok d.checkpointState, d)
  if active ≠ 0 then throw (.busy "checkpoint is active")
  else
    let (candidates, retired, relocation) ← relocate cfg m minimumPageLoad
    let reclamation ← (reclaimCompactionNodes cfg m retired).attempt
    match relocation, reclamation with
    | .error e, _ => throw e
    | .ok (), .error e => throw e
    | .ok (), .ok () =>
      let reclaimed ← countReclaimed cfg candidates
      return ⟨candidates.length, retired.length, reclaimed, candidates.length - reclaimed⟩

def casCompaction (expected new : Nat) : TableM Bool := atomic fun _ d =>
  if d.compactionState = expected then some (.ok true, { d with compactionState := new })
  else some (.ok false, d)

def storeCompaction (value : Nat) : TableM Unit := atomic fun _ d =>
  some (.ok (), { d with compactionState := value })

def acquireCompaction : TableM Unit := do
  if ← casCompaction 0 1 then return () else throw (.busy "another compaction is active")

def compact (minimumPageLoad : Nat) : TableM CompactionStats := do
  if minimumPageLoad = 0 ∨ minimumPageLoad > cfg.blockSize / nodeSize then
    throw (.invalidConfig "compaction page load must be within the body-page capacity")
  else guarded acquireCompaction (storeCompaction 0) (compactInner cfg m minimumPageLoad)

end Compaction

end FlorestaDb
