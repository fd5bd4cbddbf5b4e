import FlorestaDb.TableCalls

/-! A new database: the geometry of the heads file, its header, and `Database::create`. -/
namespace FlorestaDb
open Program Program.Prog Allocator

section Geometry

def bankSize (bucketCount : Nat) : Except Error Nat :=
  okOr ((checkedMul bucketCount 8).bind (alignUp · formatPageSize))
    (.invalidConfig "checkpoint bank size overflow")

def snapshotBankStart (bucketCount bank : Nat) : Except Error Nat := do
  if bank > 1 then .error (.corrupt "checkpoint bank index is out of range")
  let size ← bankSize bucketCount
  okOr ((checkedAdd headsStart size).bind fun start =>
    (checkedMul bank size).bind (checkedAdd start ·))
    (.invalidConfig "checkpoint bank offset overflow")

def headsLength (bucketCount : Nat) : Except Error Nat := do
  let size ← bankSize bucketCount
  let banks ← okOr (checkedMul size 3) (.invalidConfig "heads file size overflow")
  okOr (checkedAdd headsStart banks) (.invalidConfig "heads file size overflow")

end Geometry

section Header

/-- The eight bytes of `CASDB001` as a little-endian word. -/
def headerMagic : UInt64 := 0x3130304244534143
def formatVersion : UInt64 := 7
def headerChecksumOffset : Nat := 96
def headerChecksumSeed : UInt64 := 0x4341534442484452

def Mode.code : Mode → UInt64
  | .set => 1
  | .map => 2

/-- The words of the header in front of its checksum. -/
def headerWords (cfg : Config) : List UInt64 :=
  [headerMagic, formatVersion, cfg.mode.code, UInt64.ofNat cfg.bucketCount,
    UInt64.ofNat keySize, UInt64.ofNat cfg.bodyCapacity, UInt64.ofNat cfg.blobCapacity,
    UInt64.ofNat cfg.blockSize, 0, cfg.hashSeed, UInt64.ofNat nodeSize, 0]

def headerChecksum (words : List UInt64) : UInt64 :=
  Hash.xxh64 (words.flatMap fun word => Hash.leBytes 8 word.toNat) headerChecksumSeed

def HeadsFile.writeWords (f : HeadsFile) (offset : Nat) (words : List UInt64) : HeadsFile :=
  (words.zipIdx).foldl (fun f p => f.write (offset + p.2 * 8) p.1) f

/-- A new file reads as zeros. -/
def HeadsFile.zero : HeadsFile := ⟨fun _ => 0, fun _ => 0, []⟩

def initializeHeader (f : HeadsFile) (cfg : Config) : HeadsFile :=
  f.writeWords 0 (headerWords cfg ++ [headerChecksum (headerWords cfg)])

end Header

/-- The fields of a handle before anything is linked: empty runtime files and heads. -/
def Db.fresh (headsFile : HeadsFile) (generation : Nat) : Db where
  store := Store.created
  headsFile := headsFile
  runtimeHeads := fun _ => 0
  deleteLocks := fun _ => 0
  checkpointState := 0
  checkpointGeneration := generation
  quiescence := RwLock.free
  compactionState := 0

/-- The two `BlockAllocator::create` calls; a set has no blob file. -/
def createStore (cfg : Config) : Except Error Unit := do
  let _ ← Allocator.create cfg.bodyCapacity cfg.blockSize
  if cfg.mode = .map then
    let _ ← Allocator.create cfg.blobCapacity cfg.blockSize

/-- `Database::create` with its operating-system calls succeeding. -/
def Db.create (cfg : Config) : Except Error Db := do
  cfg.validate
  let length ← headsLength cfg.bucketCount
  validateMappingLength length
  createStore cfg
  return Db.fresh (initializeHeader HeadsFile.zero cfg) 0

variable {cfg : Config} {d : Db}

theorem Allocator.create_layout {capacity blockSize : Nat} {r : Layout × Cells}
    (h : Allocator.create capacity blockSize = .ok r) :
    Layout.Ok ⟨capacity, blockSize, capacity / blockSize⟩ := by
  obtain ⟨_, hlayout, -⟩ := bind_ok h
  exact Layout.ok_of_validate hlayout

/-- The files of a database that could be created have representable layouts. -/
theorem createStore_blob {u : Unit} (h : createStore cfg = .ok u) (hm : cfg.mode = .map) :
    cfg.blobLayout.Ok := by
  obtain ⟨_, -, h⟩ := bind_ok h
  rw [if_pos hm] at h
  obtain ⟨_, hblob, -⟩ := bind_ok h
  exact Allocator.create_layout hblob

theorem create_eq (h : Db.create cfg = .ok d) :
    cfg.Ready ∧ d = Db.fresh (initializeHeader HeadsFile.zero cfg) 0 := by
  obtain ⟨_, hvalid, h⟩ := bind_ok h
  obtain ⟨_, -, h⟩ := bind_ok h
  obtain ⟨_, -, h⟩ := bind_ok h
  obtain ⟨_, hstore, h⟩ := bind_ok h
  exact ⟨⟨Config.validate_ok hvalid, createStore_blob hstore⟩, (Except.ok.inj h).symm⟩

/-- The smallest map configuration: one bucket, one page for nodes and one for blobs. -/
def Config.small : Config := ⟨.map, 1, 65536, 65536, 65536, 0⟩

theorem create_small :
    Db.create Config.small = .ok (Db.fresh (initializeHeader HeadsFile.zero Config.small) 0) := by
  have hvalid : Config.small.validate = .ok () := by decide +kernel
  have hlength : headsLength Config.small.bucketCount = .ok 262144 := by decide +kernel
  have hmapping : validateMappingLength 262144 = .ok () := by decide +kernel
  have hstore : createStore Config.small = .ok () := rfl
  rw [Db.create, hvalid, hlength, ok_bind, ok_bind, hmapping, ok_bind, hstore, ok_bind]
  rfl

/-- A machine with enough fuel for `Config.small`. -/
def Machine.small : Machine := ⟨2052, true⟩

theorem enough_small : Machine.small.Enough Config.small := by
  rw [Machine.Enough]
  decide

theorem idle_fresh (f : HeadsFile) (generation : Nat) : Idle (Db.fresh f generation) :=
  ⟨rfl, fun _ => rfl, rfl, rfl⟩

theorem owned_fresh (cfg : Config) : Owned cfg Store.created (fun _ => 0) (fun _ => []) ∅ ∅ ∅ where
  heap := by
    have hnone : nodesOf (fun _ => []) ∅ = ∅ := by
      ext o
      simp [nodesOf]
    rw [hnone]
    exact heap_created cfg
  chain := fun _ => rfl
  home := by simp
  priv_free := by simp

/-- Nothing is in a new database. -/
theorem holds_fresh (cfg : Config) : Holds cfg Store.created (fun _ => 0) (fun _ => []) :=
  ⟨fun _ => [], owned_fresh cfg, rfl⟩

end FlorestaDb
