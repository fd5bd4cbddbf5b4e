import FlorestaDb.Allocator
import FlorestaDb.Hash

/-! Thirty-two byte nodes and variable-length blobs in the two data files of a store.
A node is copied in or out word by word: two words of key, the value, the pointer. -/
namespace FlorestaDb
open Program Program.Prog Allocator

abbrev Key := Vector UInt8 16

def Key.low (key : Key) : Vector UInt8 8 := Vector.ofFn fun i => key[i.val]

def Key.high (key : Key) : Vector UInt8 8 := Vector.ofFn fun i => key[8 + i.val]

def Key.ofHalves (low high : Vector UInt8 8) : Key :=
  Vector.ofFn fun i => if h : i.val < 8 then low[i.val] else high[i.val - 8]

@[simp] theorem Key.ofHalves_low (low high : Vector UInt8 8) :
    (Key.ofHalves low high).low = low := by
  apply Vector.ext
  intro i hi
  simp [Key.ofHalves, Key.low]

@[simp] theorem Key.ofHalves_high (low high : Vector UInt8 8) :
    (Key.ofHalves low high).high = high := by
  apply Vector.ext
  intro i hi
  have h : ¬8 + i < 8 := by omega
  simp only [Key.ofHalves, Key.high, Vector.getElem_ofFn, dif_neg h, Nat.add_sub_cancel_left]

@[simp] theorem Key.ofHalves_self (key : Key) : Key.ofHalves key.low key.high = key := by
  apply Vector.ext
  intro i hi
  by_cases h : i < 8
  · simp [Key.ofHalves, Key.low, h]
  · have hi' : 8 + (i - 8) = i := by omega
    simp [Key.ofHalves, Key.high, h, hi']

/-- One thirty-two byte slot of the body file. -/
structure Slot where
  key : Key
  value : UInt64
  pointer : UInt64
  deriving DecidableEq

def Slot.zero : Slot := ⟨Vector.replicate 16 0, 0, 0⟩

/- The two allocators of a store with the contents of their data files: the body by
   slot offset, the blobs by byte offset. -/
structure Store where
  body : Cells
  slots : Nat → Slot
  blobs : Cells
  bytes : Nat → UInt8

def Store.created : Store := ⟨Cells.created, fun _ => Slot.zero, Cells.created, fun _ => 0⟩

def Config.bodyLayout (cfg : Config) : Layout :=
  ⟨cfg.bodyCapacity, cfg.blockSize, cfg.bodyCapacity / cfg.blockSize⟩

def Config.blobLayout (cfg : Config) : Layout :=
  ⟨cfg.blobCapacity, cfg.blockSize, cfg.blobCapacity / cfg.blockSize⟩

structure Node where
  offset : Nat
  next : Nat
  value : UInt64
  key : Key
  deriving DecidableEq

abbrev StoreM := Prog Store Error

def onBody {α : Type} (p : AllocM α) : StoreM α :=
  p.focus Store.body fun c s => { s with body := c }

def onBlobs {α : Type} (p : AllocM α) : StoreM α :=
  p.focus Store.blobs fun c s => { s with blobs := c }

/-- The two checks of `read_into`, `read` and `atomic_u64`. -/
def dataRange (L : Layout) (c : Cells) (offset length : Nat) : Except Error Unit := do
  validateDataRange L offset length
  checkedRange c.dataLength offset length

/-- The checks of `write_at` on the destination. -/
def writeRange (c : Cells) (allocation : Allocation) (relative length : Nat) :
    Except Error Unit := do
  if relative + length > allocation.length then .error (.corrupt "write exceeds allocation")
  let offset ← okOr (checkedAdd allocation.offset relative) (.corrupt "write offset overflow")
  checkedRange c.dataLength offset length

section Node
variable (cfg : Config)

def Store.setSlot (s : Store) (offset : Nat) (f : Slot → Slot) : Store :=
  { s with slots := Function.update s.slots offset (f (s.slots offset)) }

def nodeChecksum (key : Key) (value : UInt64) : UInt64 :=
  let checksum := Hash.xxh64 key.toList nodeChecksumSeed ^^^ Hash.rotateLeft value 29
  let folded := checksum ^^^ checksum >>> 16 ^^^ checksum >>> 32 ^^^ checksum >>> 48
  if folded &&& 0xffff = 0 then 1 else folded &&& 0xffff

/-- The pointer word of a node that is not linked yet. -/
def freshPointer (key : Key) (value : UInt64) : UInt64 :=
  nodeChecksum key value <<< nodeChecksumShift

def Slot.checksum (slot : Slot) : UInt64 := slot.pointer >>> nodeChecksumShift

def Slot.next (slot : Slot) : Nat := (slot.pointer &&& nodePointerMask).toNat

/-- `copy_from_slice` into the bytes from `offset` on. -/
def copyAt (bytes : List UInt8) (offset : Nat) (input : List UInt8) : List UInt8 :=
  bytes.take offset ++ (input ++ bytes.drop (offset + input.length))

def keyOf (source : List UInt8) : Option Key :=
  if h : source.length = keySize then some ⟨source.toArray, h⟩ else none

def serializeNode (key : List UInt8) (value : UInt64) : Except Error (List UInt8) := do
  let key ← okOr (keyOf key) (.invalidKeyLength keySize key.length)
  let bytes := copyAt (List.replicate nodeSize 0) nodeKeyOffset key.toList
  let bytes := copyAt bytes nodeValueOffset (Hash.leBytes 8 value.toNat)
  return copyAt bytes nodePointerOffset (Hash.leBytes 8 (freshPointer key value).toNat)

def readU64 (bytes : List UInt8) (offset : Nat) : Except Error UInt64 := do
  let stop ← okOr (checkedAdd offset 8) (.corrupt "node field overflow")
  if stop ≤ bytes.length then .ok (UInt64.ofNat (Hash.leValue ((bytes.take stop).drop offset)))
  else .error (.corrupt "node field is out of bounds")

/-- What `read_node` makes of the bytes it has copied. -/
def decodeNode (offset : Nat) (bytes : List UInt8) : Except Error Node := do
  let source := (bytes.take nodeValueOffset).drop nodeKeyOffset
  let key ← okOr (keyOf source) (.corrupt "body node key is truncated")
  let value ← readU64 bytes nodeValueOffset
  let pointer ← readU64 bytes nodePointerOffset
  if pointer >>> nodeChecksumShift ≠ nodeChecksum key value then
    .error (.corrupt "body node checksum does not match")
  else .ok ⟨offset, (pointer &&& nodePointerMask).toNat, value, key⟩

/-- The copy of a serialized node into the slot, one word at a time. -/
def writeNode (allocation : Allocation) (key : Key) (value : UInt64) : StoreM Unit := do
  atomic fun _ s => some (writeRange s.body allocation 0 nodeSize, s)
  atomic fun _ s => some (.ok (), s.setSlot allocation.offset fun slot =>
    { slot with key := Key.ofHalves key.low slot.key.high })
  atomic fun _ s => some (.ok (), s.setSlot allocation.offset fun slot =>
    { slot with key := Key.ofHalves slot.key.low key.high })
  atomic fun _ s => some (.ok (), s.setSlot allocation.offset fun slot =>
    { slot with value := value })
  atomic fun _ s => some (.ok (), s.setSlot allocation.offset fun slot =>
    { slot with pointer := freshPointer key value })

def allocateNode (fuel : Nat) (key : Key) (value : UInt64) : StoreM Allocation := do
  let allocation ← onBody (allocate cfg.bodyLayout fuel nodeSize nodeAlignment)
  match ← (writeNode allocation key value).attempt with
  | .ok () => return allocation
  | .error e =>
    let _ ← (onBody (release cfg.bodyLayout allocation fuel)).attempt
    throw e

def readNode (offset : Nat) : StoreM Node := do
  if offset = 0 then throw (.corrupt "body node offset is null")
  else if offset % nodeAlignment ≠ 0 then
    throw (.corrupt "body node offset is not cache-line aligned")
  else
    atomic fun _ s => some (dataRange cfg.bodyLayout s.body offset nodeSize, s)
    let low ← atomic fun _ s => some (.ok (s.slots offset).key.low, s)
    let high ← atomic fun _ s => some (.ok (s.slots offset).key.high, s)
    let value ← atomic fun _ s => some (.ok (s.slots offset).value, s)
    let pointer ← atomic fun _ s => some (.ok (s.slots offset).pointer, s)
    let key := Key.ofHalves low high
    if pointer >>> nodeChecksumShift ≠ nodeChecksum key value then
      throw (.corrupt "body node checksum does not match")
    else return ⟨offset, (pointer &&& nodePointerMask).toNat, value, key⟩

/-- The range check and the load of the pointer word. -/
def readPointerWord (offset : Nat) : StoreM UInt64 := do
  let pointerOffset ← ofExcept (okOr (checkedAdd offset nodePointerOffset)
    (.corrupt "body node pointer offset overflow"))
  atomic fun _ s => some ((dataRange cfg.bodyLayout s.body pointerOffset 8).map
    fun _ => (s.slots offset).pointer, s)

def readNodeIfPresent (offset : Nat) : StoreM (Option Node) := do
  if (← readPointerWord cfg offset) >>> nodeChecksumShift = 0 then return none
  else
    match ← (readNode cfg offset).attempt with
    | .ok node => return some node
    | .error e =>
      if e = .corrupt "body node checksum does not match" then
        if (← readPointerWord cfg offset) >>> nodeChecksumShift = 0 then return none
        else throw e
      else throw e

def readNext (offset : Nat) : StoreM Nat := do
  return ((← readPointerWord cfg offset) &&& nodePointerMask).toNat

/-- The checks of `atomic_u64` on the pointer word. -/
def pointerAtomic (offset : Nat) : StoreM Unit := atomic fun _ s => some (do
  dataRange cfg.bodyLayout s.body (offset + nodePointerOffset) 8
  if (offset + nodePointerOffset) % 8 ≠ 0 then .error (.corrupt "atomic offset is not aligned")
  else .ok (), s)

def casPointer (offset : Nat) (expected new : UInt64) : StoreM Bool := atomic fun _ s =>
  if (s.slots offset).pointer = expected then
    some (.ok true, s.setSlot offset fun slot => { slot with pointer := new })
  else some (.ok false, s)

def tombstoneNode (offset : Nat) : StoreM Unit := do
  pointerAtomic cfg offset
  atomic fun _ s => some (.ok (), s.setSlot offset fun slot => { slot with pointer := 0 })

/-- The pointer word with its next field replaced. -/
def withNext (observed : UInt64) (next : Nat) : UInt64 :=
  observed &&& ~~~nodePointerMask ||| UInt64.ofNat next

def setPrivateNext (node old new : Nat) : StoreM Unit := do
  if old > nodePointerMask.toNat ∨ new > nodePointerMask.toNat then
    throw (.capacityExhausted "packed node pointer")
  else
    pointerAtomic cfg node
    let observed ← readPointerWord cfg node
    if (observed &&& nodePointerMask).toNat ≠ old then
      throw (.corrupt "private body node next pointer changed")
    else if ← casPointer node observed (withNext observed new) then return ()
    else throw (.corrupt "private body node next pointer changed")

def compareExchangeNext (node expected replacement : Nat) : StoreM Bool := do
  if expected > nodePointerMask.toNat ∨ replacement > nodePointerMask.toNat then
    throw (.capacityExhausted "packed node pointer")
  else
    pointerAtomic cfg node
    let observed ← readPointerWord cfg node
    if (observed &&& nodePointerMask).toNat ≠ expected then return false
    else casPointer node observed (withNext observed replacement)

end Node

section Blob
variable (cfg : Config)

def blobChecksum (value : List UInt8) : Nat :=
  (Hash.xxh64 value blobChecksumSeed).toNat % 2 ^ 32

def blobHeader (value : List UInt8) : Except Error (List UInt8) :=
  if value.length < 2 ^ 32 then
    .ok (Hash.leBytes 4 value.length ++ Hash.leBytes 4 (blobChecksum value))
  else .error (.capacityExhausted "blob length")

def decodeBlobHeader (header : List UInt8) : Nat × Nat :=
  (Hash.leValue (header.take 4), Hash.leValue ((header.drop 4).take 4))

def loadBytes : Nat → Nat → StoreM (List UInt8)
  | 0, _ => pure []
  | n + 1, offset => do
    let byte ← atomic fun _ s => some (.ok (s.bytes offset), s)
    return byte :: (← loadBytes n (offset + 1))

def storeBytes : List UInt8 → Nat → StoreM Unit
  | [], _ => pure ()
  | byte :: rest, offset => do
    atomic fun _ s => some (.ok (), { s with bytes := Function.update s.bytes offset byte })
    storeBytes rest (offset + 1)

/-- `read_into` and `read` of the blob file. -/
def readBlobBytes (offset length : Nat) : StoreM (List UInt8) := do
  atomic fun _ s => some (dataRange cfg.blobLayout s.blobs offset length, s)
  loadBytes length offset

def writeBlobBytes (allocation : Allocation) (relative : Nat) (input : List UInt8) :
    StoreM Unit := do
  atomic fun _ s => some (writeRange s.blobs allocation relative input.length, s)
  storeBytes input (allocation.offset + relative)

/-- A new blob with the given header and content; on a failed write it is given back. -/
def writeFreshBlob (fuel : Nat) (allocation : Allocation) (header value : List UInt8) :
    StoreM Unit := do
  match ← (do
      writeBlobBytes allocation 0 header
      writeBlobBytes allocation blobHeaderSize value : StoreM Unit).attempt with
  | .ok () => return ()
  | .error e =>
    let _ ← (onBlobs (release cfg.blobLayout allocation fuel)).attempt
    throw e

def inlineValueWord (value : List UInt8) : Option UInt64 :=
  if value.length = 8 then
    let word := UInt64.ofNat (Hash.leValue value)
    if word &&& valueBlobTag = 0 then some word else none
  else none

def inlineValueBytes (word : UInt64) : List UInt8 := Hash.leBytes 8 word.toNat

/-- `allocate_blob`; a set passes no value. -/
def allocateBlob (fuel : Nat) (value : Option (List UInt8)) : StoreM (Option Allocation) := do
  if cfg.mode = .set then return none
  else
    let value ← ofExcept (okOr value (.corrupt "map value is missing"))
    if (inlineValueWord value).isSome then return none
    else
      let allocation ← onBlobs (allocate cfg.blobLayout fuel (blobHeaderSize + value.length) 8)
      let header ← ofExcept (blobHeader value)
      writeFreshBlob cfg fuel allocation header value
      return some allocation

def encodedValue (value : Option (List UInt8)) (blob : Option Allocation) :
    Except Error UInt64 := do
  if cfg.mode = .set then return 0
  else
    let value ← okOr value (.corrupt "map value is missing")
    match inlineValueWord value with
    | some inline => return inline
    | none =>
      let blob ← okOr blob (.corrupt "blob map value has no allocation")
      if UInt64.ofNat blob.offset &&& ~~~valueOffsetMask ≠ 0 then
        .error (.capacityExhausted "tagged blob offset")
      else return valueBlobTag ||| UInt64.ofNat blob.offset

/-- The blob file is missing for a set. -/
def requireBlobs (message : String) : Except Error Unit :=
  if cfg.mode = .map then .ok () else .error (.corrupt message)

def readBlob (offset : Nat) : StoreM (List UInt8) := do
  ofExcept (requireBlobs cfg "map has no blob allocator")
  let header ← readBlobBytes cfg offset blobHeaderSize
  let (length, expectedChecksum) := decodeBlobHeader header
  let valueOffset ← ofExcept (okOr (checkedAdd offset blobHeaderSize)
    (.corrupt "blob value offset overflow"))
  let value ← readBlobBytes cfg valueOffset length
  if blobChecksum value ≠ expectedChecksum then
    throw (.corrupt "map value checksum does not match")
  else return value

def blobOffset (encoded : UInt64) : Nat := (encoded &&& valueOffsetMask).toNat

def isBlob (encoded : UInt64) : Bool := encoded &&& valueBlobTag != 0

def readValue (encoded : UInt64) : StoreM (List UInt8) :=
  if isBlob encoded then readBlob cfg (blobOffset encoded)
  else return inlineValueBytes encoded

def releaseBlob (fuel : Nat) (allocation : Allocation) : StoreM Unit := do
  ofExcept (requireBlobs cfg "map has no blob allocator")
  onBlobs (releaseCount cfg.blobLayout allocation fuel)

/-- `if let (Some(blobs), Some(blob))`: a set has no blob file to release into. -/
def releaseIfBlob (fuel : Nat) : Option Allocation → StoreM Unit
  | some blob =>
    if cfg.mode = .map then onBlobs (releaseCount cfg.blobLayout blob fuel) else pure ()
  | none => pure ()

def validateIfBlob (fuel : Nat) : Option Allocation → StoreM Unit
  | some blob =>
    if cfg.mode = .map then onBlobs (validateRelease cfg.blobLayout blob fuel) else pure ()
  | none => pure ()

def releasePrivate (fuel : Nat) (node : Allocation) (blob : Option Allocation) :
    StoreM Unit := do
  onBody (validateRelease cfg.bodyLayout node fuel)
  validateIfBlob cfg fuel blob
  releaseIfBlob cfg fuel blob
  tombstoneNode cfg node.offset
  onBody (releaseCount cfg.bodyLayout node fuel)

/-- The allocation of a blob, its length read back from its header. -/
def blobAllocation (encoded : UInt64) : StoreM (Option Allocation) := do
  if !isBlob encoded then
    if cfg.mode = .set ∧ encoded ≠ 0 then throw (.corrupt "set node stores a value")
    else return none
  else if cfg.mode ≠ .map then throw (.corrupt "set node has a blob tag")
  else
    let header ← readBlobBytes cfg (blobOffset encoded) blobHeaderSize
    let (length, _) := decodeBlobHeader header
    if blobHeaderSize + length ≥ 2 ^ 32 then
      throw (.corrupt "blob allocation length overflow")
    else return some (← ofExcept
      (allocationFor cfg.blobLayout (blobOffset encoded) (blobHeaderSize + length)))

def nodeAllocations (fuel : Nat) (offset : Nat) (encoded : UInt64) :
    StoreM (Allocation × Option Allocation) := do
  let blob ← blobAllocation cfg encoded
  let body ← ofExcept (allocationFor cfg.bodyLayout offset nodeSize)
  onBody (validateRelease cfg.bodyLayout body fuel)
  validateIfBlob cfg fuel blob
  return (body, blob)

/-- A node holding the value, with its blob, that no chain reaches yet. -/
def allocatePrivate (fuel : Nat) (key : Key) (value : Option (List UInt8)) :
    StoreM (Allocation × Option Allocation) := do
  let blob ← allocateBlob cfg fuel value
  let encoded ← ofExcept (encodedValue cfg value blob)
  match ← (allocateNode cfg fuel key encoded).attempt with
  | .ok node => return (node, blob)
  | .error e =>
    match blob with
    | some blob =>
      let _ ← (releaseBlob cfg fuel blob).attempt
      throw e
    | none => throw e

end Blob

end FlorestaDb
