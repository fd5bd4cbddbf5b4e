import FlorestaDb.Node

/-! The concurrent hash table: separate chains behind in-memory heads, the scalar and
batch operations, and online compaction. -/
namespace FlorestaDb
open Program Program.Prog Allocator

/-- The mapped heads file, by the byte offset of its words: what is mapped now, what was
synchronized last, and the word writes since then. -/
structure HeadsFile where
  words : Nat → UInt64
  durable : Nat → UInt64
  pending : List (Nat × UInt64)

def HeadsFile.write (f : HeadsFile) (offset : Nat) (word : UInt64) : HeadsFile :=
  { f with words := Function.update f.words offset word
           pending := f.pending ++ [(offset, word)] }

def HeadsFile.sync (f : HeadsFile) : HeadsFile := ⟨f.words, f.words, []⟩

/-- The fields of a `Database` that change while it is open. -/
structure Db where
  store : Store
  headsFile : HeadsFile
  runtimeHeads : Nat → Nat
  deleteLocks : Nat → Nat
  checkpointState : Nat
  checkpointGeneration : Nat
  quiescence : RwLock
  compactionState : Nat

/-- What the code runs on: the bound of its retry loops, and whether AVX2 is detected. -/
structure Machine where
  fuel : Nat
  avx2 : Bool

abbrev TableM := Prog Db Error

def onStore {α : Type} (p : StoreM α) : TableM α :=
  p.focus Db.store fun s d => { d with store := s }

inductive PutResult where
  | inserted
  | replaced
  deriving DecidableEq, Repr

inductive PutOutcome where
  | inserted
  | existing
  | replaced
  deriving DecidableEq, Repr

structure CompactionStats where
  candidatePages : Nat
  movedNodes : Nat
  reclaimedPages : Nat
  remainingCandidatePages : Nat
  deriving DecidableEq, Repr

structure PreparedKey where
  key : Key
  hash : UInt64
  bucket : Nat
  order : Nat
  deriving DecidableEq

structure PreparedInsert where
  key : Key
  value : Option (List UInt8)
  hash : UInt64
  bucket : Nat
  order : Nat
  deriving DecidableEq

structure PrivateInsert where
  node : Allocation
  blob : Option Allocation
  bucket : Nat
  deriving DecidableEq

structure DetachedNode where
  body : Allocation
  blob : Option Allocation
  deriving DecidableEq

structure PrivateGroup where
  bucket : Nat
  tailNode : Nat
  root : Nat
  deriving DecidableEq

inductive Link where
  | head (bucket : Nat)
  | node (offset : Nat)
  deriving DecidableEq

structure Found where
  node : Option Node
  root : Nat
  link : Link

section Guards

def lockQuiescenceRead : TableM Unit := atomic fun t d =>
  if d.quiescence.writer = none then
    some (.ok (), { d with quiescence :=
      { d.quiescence with readers := t :: d.quiescence.readers } })
  else none

def unlockQuiescenceRead : TableM Unit := atomic fun t d =>
  some (.ok (), { d with quiescence :=
    { d.quiescence with readers := d.quiescence.readers.erase t } })

def lockQuiescenceWrite : TableM Unit := atomic fun t d =>
  if d.quiescence.writer = none ∧ d.quiescence.readers = [] then
    some (.ok (), { d with quiescence := { d.quiescence with writer := some t } })
  else none

def unlockQuiescenceWrite : TableM Unit := atomic fun _ d =>
  some (.ok (), { d with quiescence := { d.quiescence with writer := none } })

/-- The body of a call that holds `operation_guard`. -/
def operation {α : Type} (body : TableM α) : TableM α :=
  guarded lockQuiescenceRead unlockQuiescenceRead body

def Db.setLock (d : Db) (bucket value : Nat) : Db :=
  { d with deleteLocks := Function.update d.deleteLocks bucket value }

def Db.setHead (d : Db) (bucket value : Nat) : Db :=
  { d with runtimeHeads := Function.update d.runtimeHeads bucket value }

/-- The spin lock of a bucket; a failed exchange changes nothing, so it is a wait. -/
def lockDeleteBucket (cfg : Config) (bucket : Nat) : TableM Unit := atomic fun _ d =>
  if bucket ≥ cfg.bucketCount then
    some (.error (.corrupt "delete-lock bucket is out of range"), d)
  else if d.deleteLocks bucket = 0 then some (.ok (), d.setLock bucket 1)
  else none

def casLock (bucket expected new : Nat) : TableM Bool := atomic fun _ d =>
  if d.deleteLocks bucket = expected then some (.ok true, d.setLock bucket new)
  else some (.ok false, d)

def loadLock (bucket : Nat) : TableM Nat := atomic fun _ d => some (.ok (d.deleteLocks bucket), d)

/-- `drop` of the bucket guard. -/
def unlockDeleteBucket (bucket : Nat) : Nat → TableM Unit
  | 0 => .spin
  | fuel + 1 => do
    let observed ← loadLock bucket
    if observed = 0 then return ()
    else if ← casLock bucket observed 0 then return ()
    else unlockDeleteBucket bucket fuel

def withDeleteLock {α : Type} (cfg : Config) (m : Machine) (bucket : Nat) (body : TableM α) :
    TableM α :=
  guarded (lockDeleteBucket cfg bucket) (unlockDeleteBucket bucket m.fuel) body

end Guards

section Links
variable (cfg : Config) (m : Machine)

def checkHead (bucket : Nat) : Except Error Unit :=
  if bucket ≥ cfg.bucketCount then .error (.corrupt "bucket index is out of range") else .ok ()

def loadHead (bucket : Nat) : TableM Nat := atomic fun _ d =>
  some ((checkHead cfg bucket).map fun _ => d.runtimeHeads bucket, d)

def casHead (bucket expected new : Nat) : TableM Bool := atomic fun _ d =>
  match checkHead cfg bucket with
  | .error e => some (.error e, d)
  | .ok () =>
    if d.runtimeHeads bucket = expected then some (.ok true, d.setHead bucket new)
    else some (.ok false, d)

def linkValue : Link → TableM Nat
  | .head bucket => loadHead cfg bucket
  | .node offset => onStore (readNext cfg offset)

def compareExchangeLink (link : Link) (expected replacement : Nat) : TableM Bool :=
  match link with
  | .head bucket => casHead cfg bucket expected replacement
  | .node offset => onStore (compareExchangeNext cfg offset expected replacement)

def hashOf (key : Key) : UInt64 := Hash.xxh64 key.toList cfg.hashSeed

def bucketOf (key : Key) : Nat := (hashOf cfg key).toNat % cfg.bucketCount

/-- The validated step of every traversal: the node, or nothing when a link moved. -/
def observe (link : Link) (current : Nat) : TableM (Option Node) := do
  let node ← onStore (readNode cfg current)
  if (← linkValue cfg link) ≠ current then return none
  else if (← onStore (readNext cfg current)) ≠ node.next then return none
  else return some node

/-- Where a traversal stands: the link it came through and the root it started from. -/
structure Cursor where
  root : Nat
  link : Link
  current : Nat

/-- `find`; without a cursor the traversal (re)starts at the head. -/
def find (bucket : Nat) (hash : UInt64) (key : Key) : Nat → Option Cursor → TableM Found
  | 0, _ => .spin
  | fuel + 1, none => do
    let root ← linkValue cfg (.head bucket)
    find bucket hash key fuel (some ⟨root, .head bucket, root⟩)
  | fuel + 1, some c => do
    if c.current = 0 then
      if (← loadHead cfg bucket) ≠ c.root then find bucket hash key fuel none
      else return ⟨none, c.root, c.link⟩
    else
      match ← observe cfg c.link c.current with
      | none => find bucket hash key fuel none
      | some node =>
        if hashOf cfg node.key = hash ∧ node.key = key then return ⟨some node, c.root, c.link⟩
        else find bucket hash key fuel (some ⟨c.root, .node c.current, node.next⟩)

def findOffset (bucket target : Nat) : Nat → Option Cursor → TableM (Option (Node × Link))
  | 0, _ => .spin
  | fuel + 1, none => do
    let root ← linkValue cfg (.head bucket)
    findOffset bucket target fuel (some ⟨root, .head bucket, root⟩)
  | fuel + 1, some c => do
    if c.current = 0 then
      if (← loadHead cfg bucket) = c.root then return none
      else findOffset bucket target fuel none
    else
      match ← observe cfg c.link c.current with
      | none => findOffset bucket target fuel none
      | some node =>
        if c.current = target then return some (node, c.link)
        else findOffset bucket target fuel (some ⟨c.root, .node c.current, node.next⟩)

def unlinkLink (link : Link) (target : Node) : TableM Unit := do
  let (body, blob) ← onStore (nodeAllocations cfg m.fuel target.offset target.value)
  if ← compareExchangeLink cfg link target.offset target.next then
    onStore (tombstoneNode cfg target.offset)
    onStore (releaseIfBlob cfg m.fuel blob)
    onStore (onBody (releaseCount cfg.bodyLayout body m.fuel))
  else throw (.busy "unique deletion link changed before unlink")

def detachLink (link : Link) (target : Node) : TableM DetachedNode := do
  let (body, blob) ← onStore (nodeAllocations cfg m.fuel target.offset target.value)
  if ← compareExchangeLink cfg link target.offset target.next then return ⟨body, blob⟩
  else throw (.busy "unique deletion link changed before unlink")

def releaseDetached (node : DetachedNode) : TableM Unit := do
  onStore (tombstoneNode cfg node.body.offset)
  onStore (releaseIfBlob cfg m.fuel node.blob)
  onStore (onBody (releaseCount cfg.bodyLayout node.body m.fuel))

end Links

/-- Every call is made; the first error is the result. -/
def eachFirstError {α : Type} (f : α → TableM Unit) : List α → TableM Unit
  | [] => pure ()
  | x :: xs => do
    let first ← (f x).attempt
    let rest ← (eachFirstError f xs).attempt
    match first with
    | .ok () => ofExcept rest
    | .error e => throw e

section Scalar
variable (cfg : Config) (m : Machine)

def validateKey (key : List UInt8) : Except Error Key :=
  if h : key.length = 16 then .ok ⟨key.toArray, by simpa using h⟩
  else .error (.invalidKeyLength keySize key.length)

def validateValue (value : Option (List UInt8)) : Except Error Unit :=
  if cfg.mode = .set then
    if value.isSome then .error (.unsupported "sets cannot store values") else .ok ()
  else (okOr value (.corrupt "map value is missing")).map fun _ => ()

def requireMode (mode : Mode) (message : String) : Except Error Unit :=
  if cfg.mode ≠ mode then .error (.unsupported message) else .ok ()

/-- `release_private`, then the error that caused it. -/
def abandon {α : Type} (node : Allocation) (blob : Option Allocation) (e : Error) : TableM α := do
  onStore (releasePrivate cfg m.fuel node blob)
  throw e

/-- The link once the node at `published` is in front of the chain. -/
def Link.behind (published : Nat) : Link → Link
  | .head _ => .node published
  | .node offset => .node offset

/-- Publish the private node in front of the chain found, then unlink what it replaces. -/
def putLoop (bucket : Nat) (key : Key) (node : Allocation) (blob : Option Allocation)
    (replaceExisting : Bool) : Nat → Nat → TableM PutOutcome
  | 0, _ => .spin
  | fuel + 1, privateNext => do
    match ← (find cfg bucket (hashOf cfg key) key m.fuel none).attempt with
    | .error e => abandon cfg m node blob e
    | .ok found =>
      if found.node.isSome ∧ !replaceExisting then
        onStore (releasePrivate cfg m.fuel node blob)
        return .existing
      else
        match ← (onStore (setPrivateNext cfg node.offset privateNext found.root)).attempt with
        | .error e => abandon cfg m node blob e
        | .ok () =>
          match checkHead cfg bucket with
          | .error e => abandon cfg m node blob e
          | .ok () =>
            if ← casHead cfg bucket found.root node.offset then
              match found.node with
              | some existing =>
                unlinkLink cfg m (found.link.behind node.offset) existing
                return .replaced
              | none => return .inserted
            else putLoop bucket key node blob replaceExisting fuel found.root

def putInner (key : List UInt8) (value : Option (List UInt8)) (replaceExisting : Bool) :
    TableM PutOutcome := operation do
  let key ← ofExcept (validateKey key)
  ofExcept (validateValue cfg value)
  let (node, blob) ← onStore (allocatePrivate cfg m.fuel key value)
  putLoop cfg m (bucketOf cfg key) key node blob replaceExisting m.fuel 0

def put (key value : List UInt8) : TableM PutResult := do
  ofExcept (requireMode cfg .map "put is available only for maps")
  match ← putInner cfg m key (some value) true with
  | .inserted => return .inserted
  | .replaced => return .replaced
  | .existing => throw (.corrupt "upsert reported an existing key")

def putNew (key value : List UInt8) : TableM Bool := do
  ofExcept (requireMode cfg .map "put_new is available only for maps")
  match ← putInner cfg m key (some value) false with
  | .inserted => return true
  | .existing => return false
  | .replaced => throw (.corrupt "insert-only put replaced a key")

/-- Put the observed head behind the group's last node, then swing the head to its first. -/
def commitPrivateGroup (group : PrivateGroup) : Nat → TableM Unit
  | 0 => .spin
  | fuel + 1 => do
    let observed ← loadHead cfg group.bucket
    let previousNext ← onStore (readNext cfg group.tailNode)
    if ← onStore (compareExchangeNext cfg group.tailNode previousNext observed) then
      if ← casHead cfg group.bucket observed group.root then return ()
      else commitPrivateGroup group fuel
    else commitPrivateGroup group fuel

def insertOneInner (key : List UInt8) (value : Option (List UInt8)) : TableM Unit := operation do
  let key ← ofExcept (validateKey key)
  ofExcept (validateValue cfg value)
  let bucket := bucketOf cfg key
  let (node, blob) ← onStore (allocatePrivate cfg m.fuel key value)
  match checkHead cfg bucket with
  | .error e => abandon cfg m node blob e
  | .ok () => commitPrivateGroup cfg ⟨bucket, node.offset, node.offset⟩ m.fuel

def add (key : List UInt8) : TableM PutResult := do
  ofExcept (requireMode cfg .set "add is available only for sets")
  insertOneInner cfg m key none
  return .inserted

def get (key : List UInt8) : TableM (Option (List UInt8)) := operation do
  ofExcept (requireMode cfg .map "get is available only for maps")
  let key ← ofExcept (validateKey key)
  let found ← find cfg (bucketOf cfg key) (hashOf cfg key) key m.fuel none
  match found.node with
  | none => return none
  | some node => return some (← onStore (readValue cfg node.value))

def contains (key : List UInt8) : TableM Bool := operation do
  let key ← ofExcept (validateKey key)
  let found ← find cfg (bucketOf cfg key) (hashOf cfg key) key m.fuel none
  return found.node.isSome

def Error.isBusy : Error → Bool
  | .busy _ => true
  | _ => false

def deleteLoop (bucket : Nat) (key : Key) : Nat → TableM Bool
  | 0 => .spin
  | fuel + 1 => do
    let found ← find cfg bucket (hashOf cfg key) key m.fuel none
    match found.node with
    | none => return false
    | some target =>
      match ← (unlinkLink cfg m found.link target).attempt with
      | .ok () => return true
      | .error e => if e.isBusy then deleteLoop bucket key fuel else throw e

def delete (key : List UInt8) : TableM Bool := operation do
  let key ← ofExcept (validateKey key)
  let bucket := bucketOf cfg key
  withDeleteLock cfg m bucket (deleteLoop cfg m bucket key m.fuel)

end Scalar

end FlorestaDb
