import FlorestaDb.Layout
import FlorestaDb.Lib.Program

/-! The page allocator: one sixteen-bit live count per data page, one unfinished
page described by a packed word, and a reader-writer guard that keeps the page
and its word paired. Each `atomic` below is one shared-memory access of the
source; a range check of the mapped file is part of the access it guards. -/
namespace FlorestaDb.Allocator
open Program Program.Prog

def countsStart : Nat := formatPageSize
def growingBit : Nat := 2 ^ 63
def currentInstalling : Nat := 2 ^ 64 - 1
def maxLive : Nat := 65534
/-- `u16::MAX`, the count that marks the unfinished page. -/
def claimed : Nat := 65535

inductive CurrentState where
  | empty
  | opened
  | sealing
  deriving DecidableEq, Repr

def CurrentState.code : CurrentState → UInt64
  | .empty => 0
  | .opened => 1
  | .sealing => 2

structure Allocation where
  offset : Nat
  length : Nat
  block : Nat
  deriving DecidableEq, Repr

structure AllocationBatch where
  offset : Nat
  length : Nat
  stride : Nat
  count : Nat
  block : Nat
  deriving DecidableEq, Repr

def AllocationBatch.allocations (b : AllocationBatch) : List Allocation :=
  (List.range b.count).map fun index => ⟨b.offset + index * b.stride, b.length, b.block⟩

/-- The fields of a `BlockAllocator` that never change. -/
structure Layout where
  capacity : Nat
  blockSize : Nat
  blockCount : Nat
  deriving DecidableEq, Repr

structure RwLock where
  readers : List Tid
  writer : Option Tid
  deriving DecidableEq, Repr

def RwLock.free : RwLock := ⟨[], none⟩

/- The shared cells: the two in-memory atomics with their guard, and the persistent
   count file. `live` is a history variable that no step reads: it lists the
   allocations handed out and not yet released. -/
structure Cells where
  currentBlock : Nat
  currentWord : UInt64
  guard : RwLock
  highWater : Nat
  counts : Nat → Nat
  countsLength : Nat
  dataLength : Nat
  live : List Allocation

def packCurrent (state : CurrentState) (used live : Nat) : Except Error UInt64 :=
  if used < 2 ^ 32 then
    .ok (state.code <<< 56 ||| UInt64.ofNat live <<< 32 ||| UInt64.ofNat used)
  else .error (.capacityExhausted "page offset")

def currentUsed (word : UInt64) : Nat := (word &&& 0xffffffff).toNat

def currentLive (word : UInt64) : Nat := ((word &&& 0x0000ffff00000000) >>> 32).toNat

def currentState (word : UInt64) : Except Error CurrentState :=
  match (word >>> 56).toNat with
  | 0 => .ok .empty
  | 1 => .ok .opened
  | 2 => .ok .sealing
  | _ => .error (.corrupt "unknown unfinished-page state")

def encodeBlock (block : Nat) : Except Error Nat :=
  okOr (checkedAdd block 1) (.capacityExhausted "page index")

def decodeBlock (encoded : Nat) : Except Error Nat :=
  okOr (checkedSub encoded 1) (.corrupt "encoded page index is null")

def validateLayout (capacity blockSize : Nat) : Except Error Unit :=
  if capacity = 0 ∨ blockSize < formatPageSize ∨ !isPowerOfTwo blockSize then
    .error (.invalidConfig "invalid page allocator layout")
  else if capacity % blockSize ≠ 0 ∨ blockSize > 2 ^ 32 - 1 then
    .error (.invalidConfig "allocator capacity or page size is not representable")
  else if capacity / blockSize = 0 ∨ capacity / blockSize > 2 ^ 32 - 1 then
    .error (.invalidConfig "allocator page count is not representable")
  else .ok ()

def countFileLength (blocks : Nat) : Except Error Nat :=
  okOr (((checkedMul blocks 2).bind (checkedAdd · countsStart)).bind (alignUp · formatPageSize))
    (.invalidConfig "page-count file size overflow")

def dataFileLength (blocks blockSize : Nat) : Except Error Nat :=
  okOr ((checkedMul blocks blockSize).bind (checkedAdd · dataStart))
    (.invalidConfig "data file size overflow")

def fileLengths (capacity blockSize : Nat) : Except Error (Nat × Nat × Nat) := do
  let data ← dataFileLength (capacity / blockSize) blockSize
  let count ← countFileLength (capacity / blockSize)
  return (data, count, capacity / blockSize)

def validateMappingLength (length : Nat) : Except Error Unit :=
  if length = 0 ∨ length % formatPageSize ≠ 0 ∨ growingBit ≤ length then
    .error (.invalidConfig
      "mapping length must be format-page aligned, representable, and nonzero")
  else .ok ()

def dataOffset (L : Layout) (block : Nat) : Except Error Nat :=
  okOr ((checkedMul block L.blockSize).bind (checkedAdd dataStart ·))
    (.capacityExhausted "page offset")

def validateDataRange (L : Layout) (offset length : Nat) : Except Error Unit := do
  let relative ← okOr (checkedSub offset dataStart)
    (.corrupt "data offset points into the file header")
  let last ← okOr (checkedAdd relative length) (.corrupt "data range overflow")
  if last > L.capacity then .error (.corrupt "data range is out of bounds") else .ok ()

def checkedRange (fileLength offset length : Nat) : Except Error Unit := do
  let last ← okOr (checkedAdd offset length) (.corrupt "mapped range overflow")
  if last > fileLength then .error (.corrupt "mapped range is beyond the file length") else .ok ()

def allocationFor (L : Layout) (offset length : Nat) : Except Error Allocation := do
  validateDataRange L offset length
  let relative ← okOr (checkedSub offset dataStart)
    (.corrupt "allocation points into the file header")
  let block := relative / L.blockSize
  let last ← okOr (checkedAdd relative length) (.corrupt "allocation range overflow")
  if (last - 1) / L.blockSize ≠ block then
    .error (.corrupt "allocation crosses a page boundary")
  else .ok ⟨offset, length, block⟩

def validateAllocation (L : Layout) (allocation : Allocation) : Except Error Unit := do
  let expected ← allocationFor L allocation.offset allocation.length
  if expected.block ≠ allocation.block then
    .error (.corrupt "allocation page does not match its offset")
  else .ok ()

abbrev AllocM := Prog Cells Error

section Steps

def lockRead : AllocM Unit := atomic fun t c =>
  if c.guard.writer = none then
    some (.ok (), { c with guard := { c.guard with readers := t :: c.guard.readers } })
  else none

def unlockRead : AllocM Unit := atomic fun t c =>
  some (.ok (), { c with guard := { c.guard with readers := c.guard.readers.erase t } })

def lockWrite : AllocM Unit := atomic fun t c =>
  if c.guard.writer = none ∧ c.guard.readers = [] then
    some (.ok (), { c with guard := { c.guard with writer := some t } })
  else none

def unlockWrite : AllocM Unit := atomic fun _ c =>
  some (.ok (), { c with guard := { c.guard with writer := none } })

def withRead {α : Type} (body : AllocM α) : AllocM α := guarded lockRead unlockRead body

def withWrite {α : Type} (body : AllocM α) : AllocM α := guarded lockWrite unlockWrite body

def loadCurrentBlock : AllocM Nat := atomic fun _ c => some (.ok c.currentBlock, c)

def storeCurrentBlock (value : Nat) : AllocM Unit := atomic fun _ c =>
  some (.ok (), { c with currentBlock := value })

def casCurrentBlock (expected new : Nat) : AllocM Bool := atomic fun _ c =>
  if c.currentBlock = expected then some (.ok true, { c with currentBlock := new })
  else some (.ok false, c)

def loadCurrentWord : AllocM UInt64 := atomic fun _ c => some (.ok c.currentWord, c)

def storeCurrentWord (value : UInt64) : AllocM Unit := atomic fun _ c =>
  some (.ok (), { c with currentWord := value })

/-- `record` updates the history variable when the exchange succeeds. -/
def casCurrentWord (expected new : UInt64) (record : List Allocation → List Allocation) :
    AllocM Bool := atomic fun _ c =>
  if c.currentWord = expected then
    some (.ok true, { c with currentWord := new, live := record c.live })
  else some (.ok false, c)

def loadHighWater : AllocM Nat := atomic fun _ c => some (.ok c.highWater, c)

def casHighWater (expected new : Nat) : AllocM Bool := atomic fun _ c =>
  if c.highWater = expected then some (.ok true, { c with highWater := new })
  else some (.ok false, c)

/-- The address check of `count_word` and `read_count`. -/
def countRange (L : Layout) (c : Cells) (block : Nat) : Except Error Unit := do
  if block ≥ L.blockCount then .error (.corrupt "page index is out of range")
  let offset ← okOr ((checkedMul block 2).bind (checkedAdd · countsStart))
    (.corrupt "page-count offset overflow")
  checkedRange c.countsLength offset 2

def Cells.setCount (c : Cells) (block value : Nat) : Cells :=
  { c with counts := Function.update c.counts block value }

def readCount (L : Layout) (block : Nat) : AllocM Nat := atomic fun _ c =>
  some ((countRange L c block).map fun _ => c.counts block, c)

def casCount (L : Layout) (block expected new : Nat)
    (record : List Allocation → List Allocation) : AllocM Bool := atomic fun _ c =>
  match countRange L c block with
  | .error e => some (.error e, c)
  | .ok () =>
    if c.counts block = expected then
      some (.ok true, { c.setCount block new with live := record c.live })
    else some (.ok false, c)

def storeCount (L : Layout) (block value : Nat) : AllocM Unit := atomic fun _ c =>
  match countRange L c block with
  | .error e => some (.error e, c)
  | .ok () => some (.ok (), c.setCount block value)

/-- `compare_exchange_weak` may fail although the count is the expected one. -/
def casCountWeak (L : Layout) (block expected new : Nat)
    (record : List Allocation → List Allocation) : AllocM (Option Nat) :=
  .choose fun spurious =>
    if spurious then do return some (← readCount L block)
    else atomic fun _ c =>
      match countRange L c block with
      | .error e => some (.error e, c)
      | .ok () =>
        if c.counts block = expected then
          some (.ok none, { c.setCount block new with live := record c.live })
        else some (.ok (some (c.counts block)), c)

/-- An operating-system call that the environment may let fail. -/
def osCall : AllocM Unit := .choose fun failed => if failed then throw .io else pure ()

/-- The checks of `MappedFile::grow` against the reserved mapping. -/
def growRange (mapping newLength : Nat) : Except Error Unit := do
  validateMappingLength newLength
  if newLength > mapping then .error (.capacityExhausted "mapped file") else .ok ()

/-- `MappedFile::grow` on the count file: the published length only grows. -/
def growCounts (L : Layout) (newLength : Nat) : AllocM Unit := do
  let mapping ← ofExcept (countFileLength L.blockCount)
  ofExcept (growRange mapping newLength)
  osCall
  atomic fun _ c => some (.ok (), { c with countsLength := max c.countsLength newLength })

def growData (L : Layout) (newLength : Nat) : AllocM Unit := do
  let mapping ← ofExcept (dataFileLength L.blockCount L.blockSize)
  ofExcept (growRange mapping newLength)
  osCall
  atomic fun _ c => some (.ok (), { c with dataLength := max c.dataLength newLength })

def reserveData (offset length : Nat) : AllocM Unit := do
  atomic fun _ c => some (checkedRange c.dataLength offset length, c)
  osCall

end Steps

section Pages

/-- The zero lanes of sixteen counts, one bit each. -/
def zeroMask16 (values : List Nat) : Nat :=
  values.zipIdx.foldl (fun mask p => if p.1 = 0 then mask ||| 1 <<< p.2 else mask) 0

structure Scan where
  bestStart : Nat
  bestLength : Nat
  runStart : Nat
  runLength : Nat
  runClaimable : Bool

/-- One entry of the scan: a zero extends the current run, anything else ends it. -/
def Scan.entry (snapshot : List Nat) (s : Scan) (index : Nat) (zero : Bool) : Scan :=
  if zero then
    let runStart := if s.runLength = 0 then index else s.runStart
    let runClaimable :=
      if s.runLength = 0 then index = 0 || snapshot.getD (index - 1) 0 != claimed
      else s.runClaimable
    let runLength := s.runLength + 1
    if runClaimable && runLength > s.bestLength then
      ⟨runStart, runLength, runStart, runLength, runClaimable⟩
    else ⟨s.bestStart, s.bestLength, runStart, runLength, runClaimable⟩
  else { s with runLength := 0 }

def scanLanes (snapshot : List Nat) (zeroes index : Nat) (s : Scan) : Scan :=
  (List.range 16).foldl (fun s lane => s.entry snapshot (index + lane) (zeroes.testBit lane)) s

def scanChunks (snapshot : List Nat) (entries : Nat) : Nat → Nat → Scan → Nat × Scan
  | 0, index, s => (index, s)
  | fuel + 1, index, s =>
    if index + 16 ≤ entries then
      let values := (snapshot.drop index).take 16
      scanChunks snapshot entries fuel (index + 16)
        (scanLanes snapshot (zeroMask16 values) index s)
    else (index, s)

def scanTail (snapshot : List Nat) (entries : Nat) : Nat → Nat → Scan → Scan
  | 0, _, s => s
  | fuel + 1, index, s =>
    if index < entries then
      scanTail snapshot entries fuel (index + 1)
        (s.entry snapshot index (snapshot.getD index 0 == 0))
    else s

def longestZeroRun (snapshot : List Nat) : Option Nat :=
  let entries := snapshot.length
  let (index, s) := scanChunks snapshot entries entries 0 ⟨0, 0, 0, 0, true⟩
  let s := scanTail snapshot entries entries index s
  if s.bestLength = 0 then none else some s.bestStart

def loadCounts : Nat → Nat → AllocM (List Nat)
  | 0, _ => pure []
  | n + 1, index => do
    let count ← atomic fun _ c => some (.ok (c.counts index), c)
    return count :: (← loadCounts n (index + 1))

def countSnapshot (highWater : Nat) : AllocM (List Nat) := do
  let bytes ← ofExcept (okOr (checkedMul highWater 2)
    (.corrupt "count snapshot length overflow"))
  atomic fun _ c => some (checkedRange c.countsLength countsStart bytes, c)
  loadCounts highWater 0

def nextBlockValue : Nat → AllocM Nat
  | 0 => .spin
  | fuel + 1 => do
    let value ← loadHighWater
    if value < growingBit then return value else nextBlockValue fuel

def growFiles (L : Layout) (old new pages : Nat) : AllocM Unit := do
  growCounts L (← ofExcept (countFileLength new))
  growData L (← ofExcept (dataFileLength new L.blockSize))
  reserveData (← ofExcept (dataOffset L old)) (pages * L.blockSize)

def grow (L : Layout) (requestedBytes : Nat) : Nat → AllocM Unit
  | 0 => .spin
  | fuel + 1 => do
    let old ← loadHighWater
    if growingBit ≤ old then grow L requestedBytes fuel
    else if old ≥ L.blockCount then throw (.capacityExhausted "mapped file")
    else
      let bytes ← ofExcept (okOr (checkedAdd requestedBytes (L.blockSize - 1))
        (.capacityExhausted "allocation growth"))
      let pages := min (max (bytes / L.blockSize) 1) (L.blockCount - old)
      let new ← ofExcept (okOr (checkedAdd old pages) (.capacityExhausted "page count"))
      if ← casHighWater old (old + growingBit) then
        let result ← (growFiles L old new pages).attempt
        let published := if result.isOk then new else old
        if ← casHighWater (old + growingBit) published then ofExcept result
        else throw (.corrupt "allocator growth state changed")
      else grow L requestedBytes fuel

def claimPage (L : Layout) (requestedBytes : Nat) : Nat → AllocM Nat
  | 0 => .spin
  | fuel + 1 => do
    let highWater ← nextBlockValue (fuel + 1)
    let snapshot ← countSnapshot highWater
    match longestZeroRun snapshot with
    | some block =>
      if ← casCount L block 0 claimed id then return block
      else claimPage L requestedBytes fuel
    | none =>
      grow L requestedBytes (fuel + 1)
      claimPage L requestedBytes fuel

def installCurrent (L : Layout) (requestedBytes fuel : Nat) : AllocM Unit := withWrite do
  if ← casCurrentBlock 0 currentInstalling then
    match ← (claimPage L requestedBytes fuel).attempt with
    | .ok block =>
      storeCurrentWord (← ofExcept (packCurrent .opened 0 0))
      storeCurrentBlock (← ofExcept (encodeBlock block))
    | .error e =>
      storeCurrentBlock 0
      throw e
  else return ()

/-- The end of `seal_current_block`: the run goes on in the next page, or no page is open. -/
def openNext (L : Layout) : Option Nat → AllocM Unit
  | some next => do
    storeCount L next claimed
    storeCurrentWord (← ofExcept (packCurrent .opened 0 0))
    storeCurrentBlock (← ofExcept (encodeBlock next))
  | none => do
    storeCurrentWord 0
    storeCurrentBlock 0

def sealWord (L : Layout) (encoded block : Nat) (next : Option Nat) : Nat → AllocM Unit
  | 0 => .spin
  | fuel + 1 => do
    let old ← loadCurrentWord
    if (← ofExcept (currentState old)) ≠ .opened then
      storeCurrentBlock encoded
      throw (.corrupt "unfinished page state is not open")
    else
      let sealing ← ofExcept (packCurrent .sealing (currentUsed old) (currentLive old))
      if ← casCurrentWord old sealing id then
        if ← casCount L block claimed (currentLive old) id then openNext L next
        else
          storeCurrentBlock encoded
          throw (.corrupt "unfinished page count marker changed")
      else sealWord L encoded block next fuel

/-- The page after the one being sealed, when the run can go on in it. -/
def nextOfRun (L : Layout) (block : Nat) (continueRun : Bool) (fuel : Nat) :
    AllocM (Option Nat) := do
  if continueRun then
    let next ← ofExcept (okOr (checkedAdd block 1) (.capacityExhausted "page index"))
    if next < (← nextBlockValue fuel) then
      if (← readCount L next) = 0 then return some next else return none
    else return none
  else return none

def sealCurrentBlock (L : Layout) (encoded : Nat) (continueRun : Bool) (fuel : Nat) :
    AllocM Unit := withWrite do
  let block ← ofExcept (decodeBlock encoded)
  let next ← nextOfRun L block continueRun fuel
  if ← casCurrentBlock encoded currentInstalling then sealWord L encoded block next fuel
  else return ()

def sealCurrent (L : Layout) : Nat → AllocM Unit
  | 0 => .spin
  | fuel + 1 => do
    let encoded ← loadCurrentBlock
    if encoded = currentInstalling then sealCurrent L fuel
    else if encoded = 0 then return ()
    else sealCurrentBlock L encoded false (fuel + 1)

end Pages

section Reservations

/-- What one pass over the current page decided, taken after its guard is dropped. -/
inductive Reserve where
  | retry
  | install
  | full (encoded : Nat)
  | reserved (batch : AllocationBatch)

def reserveOnce (L : Layout) (length alignment stride requested : Nat) : AllocM Reserve := do
  let encoded ← loadCurrentBlock
  if encoded = currentInstalling then return .retry
  else if encoded = 0 then return .install
  else
    let block ← ofExcept (decodeBlock encoded)
    let old ← loadCurrentWord
    if (← ofExcept (currentState old)) ≠ .opened then return .retry
    else
      let start ← ofExcept (okOr (alignUp (currentUsed old) alignment)
        (.capacityExhausted "page offset"))
      let oldLive := currentLive old
      let firstEnd ← ofExcept (okOr (checkedAdd start length) (.capacityExhausted "page offset"))
      if firstEnd > L.blockSize ∨ oldLive = maxLive then return .full encoded
      else
        let fitting ← ofExcept (okOr (checkedAdd 1 ((L.blockSize - firstEnd) / stride))
          (.capacityExhausted "batch allocation count"))
        let fitting := min fitting (2 ^ 32 - 1)
        let reserved := min (min requested fitting) (maxLive - oldLive)
        let last ← ofExcept (okOr
          ((checkedAdd start (min ((reserved - 1) * stride) (u64Bound - 1))).bind
            (checkedAdd · length)) (.capacityExhausted "page offset"))
        if reserved > claimed ∨ oldLive + reserved > claimed then
          throw (.capacityExhausted "page live-allocation count")
        else
          let new ← ofExcept (packCurrent .opened last (oldLive + reserved))
          let batch : AllocationBatch :=
            ⟨dataStart + block * L.blockSize + start, length, stride, reserved, block⟩
          if ← casCurrentWord old new (batch.allocations ++ ·) then
            let base ← ofExcept (dataOffset L block)
            let offset ← ofExcept (okOr (checkedAdd base start)
              (.capacityExhausted "allocation offset"))
            if length ≥ 2 ^ 32 then throw (.capacityExhausted "allocation length")
            else if stride ≥ 2 ^ 32 then throw (.capacityExhausted "allocation stride")
            else return .reserved ⟨offset, length, stride, reserved, block⟩
          else return .retry

def reserveLoop (L : Layout) (length alignment stride requested growthBytes : Nat) :
    Nat → AllocM AllocationBatch
  | 0 => .spin
  | fuel + 1 => do
    match ← withRead (reserveOnce L length alignment stride requested) with
    | .retry => reserveLoop L length alignment stride requested growthBytes fuel
    | .install =>
      installCurrent L growthBytes (fuel + 1)
      reserveLoop L length alignment stride requested growthBytes fuel
    | .full encoded =>
      sealCurrentBlock L encoded true (fuel + 1)
      reserveLoop L length alignment stride requested growthBytes fuel
    | .reserved batch => return batch

def allocateBatch (L : Layout) (fuel length alignment maximumCount : Nat) :
    AllocM AllocationBatch := do
  if length = 0 ∨ length > L.blockSize ∨ maximumCount = 0 then
    throw (.capacityExhausted "single-page allocation")
  else if alignment = 0 ∨ !isPowerOfTwo alignment ∨ alignment > L.blockSize then
    throw (.invalidConfig "allocation alignment is invalid")
  else
    let stride ← ofExcept (okOr (alignUp length alignment)
      (.capacityExhausted "allocation stride"))
    let requested := min (min maximumCount (2 ^ 32 - 1)) maxLive
    let growthBytes ← ofExcept (okOr (checkedMul stride requested)
      (.capacityExhausted "batch allocation size"))
    reserveLoop L length alignment stride requested growthBytes fuel

def allocate (L : Layout) (fuel length alignment : Nat) : AllocM Allocation := do
  let batch ← allocateBatch L fuel length alignment 1
  ofExcept (okOr batch.allocations.head? (.corrupt "single allocation batch is empty"))

/-- What one pass of a release decided about the page of the allocation. -/
inductive Release where
  | retry
  | finished
  | otherPage

def validateOnce (allocation : Allocation) : AllocM Release := do
  let current ← loadCurrentBlock
  if current = currentInstalling then return .retry
  else if current ≠ 0 ∧ current - 1 = allocation.block then
    let word ← loadCurrentWord
    if (← ofExcept (currentState word)) = .opened ∧ currentLive word ≠ 0 then return .finished
    else return .retry
  else return .otherPage

def validateLoop (L : Layout) (allocation : Allocation) : Nat → AllocM Unit
  | 0 => .spin
  | fuel + 1 => do
    match ← withRead (validateOnce allocation) with
    | .retry => validateLoop L allocation fuel
    | .finished => return ()
    | .otherPage =>
      let count ← readCount L allocation.block
      if count = 0 ∨ count = claimed then
        throw (.corrupt "released allocation belongs to an inactive page")
      else return ()

def validateRelease (L : Layout) (allocation : Allocation) (fuel : Nat) : AllocM Unit := do
  ofExcept (validateAllocation L allocation)
  validateLoop L allocation fuel

def releaseOnce (allocation : Allocation) : AllocM Release := do
  let current ← loadCurrentBlock
  if current = currentInstalling then return .retry
  else if current ≠ 0 ∧ current - 1 = allocation.block then
    let old ← loadCurrentWord
    if (← ofExcept (currentState old)) ≠ .opened then return .retry
    else
      let live ← ofExcept (okOr (checkedSub (currentLive old) 1)
        (.corrupt "page allocation count underflow"))
      let new ← ofExcept (packCurrent .opened (currentUsed old) live)
      if ← casCurrentWord old new (·.erase allocation) then return .finished else return .retry
  else return .otherPage

def releaseSealed (L : Layout) (allocation : Allocation) : Nat → Nat → AllocM Unit
  | 0, _ => .spin
  | fuel + 1, old => do
    if old = 0 ∨ old = claimed then
      throw (.corrupt "released allocation belongs to an inactive page")
    else
      match ← casCountWeak L allocation.block old (old - 1) (·.erase allocation) with
      | none => return ()
      | some actual => releaseSealed L allocation fuel actual

def releaseLoop (L : Layout) (allocation : Allocation) : Nat → AllocM Unit
  | 0 => .spin
  | fuel + 1 => do
    match ← withRead (releaseOnce allocation) with
    | .retry => releaseLoop L allocation fuel
    | .finished => return ()
    | .otherPage =>
      let old ← readCount L allocation.block
      releaseSealed L allocation (fuel + 1) old

def releaseCount (L : Layout) (allocation : Allocation) (fuel : Nat) : AllocM Unit := do
  ofExcept (validateAllocation L allocation)
  releaseLoop L allocation fuel

/-- `release` is `release_count` under the name the owners of fresh allocations use. -/
def release (L : Layout) (allocation : Allocation) (fuel : Nat) : AllocM Unit :=
  releaseCount L allocation fuel

def blocksBelowLoad (maximumLive fuel : Nat) : AllocM (List Nat) := withRead do
  let highWater ← nextBlockValue fuel
  let snapshot ← countSnapshot highWater
  return (snapshot.zipIdx.filter fun p => p.1 ≠ 0 ∧ p.1 ≠ claimed ∧ p.1 ≤ maximumLive).map (·.2)

def blockLiveCount (L : Layout) (block : Nat) : AllocM Nat := readCount L block

end Reservations

/-- The cells `BlockAllocator::create` starts with: header pages only. -/
def Cells.created : Cells where
  currentBlock := 0
  currentWord := 0
  guard := RwLock.free
  highWater := 0
  counts := fun _ => 0
  countsLength := countsStart
  dataLength := dataStart
  live := []

def create (capacity blockSize : Nat) : Except Error (Layout × Cells) := do
  validateLayout capacity blockSize
  let (data, count, blocks) ← fileLengths capacity blockSize
  validateMappingLength data
  validateMappingLength count
  return (⟨capacity, blockSize, blocks⟩, Cells.created)

end FlorestaDb.Allocator
