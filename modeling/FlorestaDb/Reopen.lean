import FlorestaDb.Sync

/-! Closing a database and opening its runtime files again: the configuration is read
back from the header, the heads from their places in the heads file, and the page counts
are checked before they are used. -/
namespace FlorestaDb
open Program Program.Prog Allocator Chain

variable {cfg : Config} {m : Machine} {v : Env} {t : Tid} {d d' : Db} {chains : Nat → List Nat}

namespace Allocator

/-- `MappedFile::open_growable` against the length of an existing file. -/
def openGrowable (maximumLength fileLength : Nat) : Except Error Unit := do
  validateMappingLength maximumLength
  validateMappingLength fileLength
  if fileLength > maximumLength then .error (.corrupt "growable file exceeds its configured mapping")
  else .ok ()

def closedBlockValue (c : Cells) : Except Error Nat :=
  if growingBit ≤ c.highWater then .error (.corrupt "allocator was closed while growing")
  else .ok c.highWater

def validateHeader (L : Layout) (c : Cells) : Except Error Unit := do
  let highWater ← closedBlockValue c
  if highWater > L.blockCount then .error (.corrupt "allocator high-water mark is out of range")
  else
    let counts ← countFileLength highWater
    if c.countsLength < counts then
      .error (.corrupt "page-count file is shorter than its high-water mark")
    else
      let data ← dataFileLength highWater L.blockSize
      if c.dataLength < data then .error (.corrupt "data file is shorter than its high-water mark")
      else
        let bytes ← okOr (checkedMul highWater 2) (.corrupt "count snapshot length overflow")
        checkedRange c.countsLength countsStart bytes
        if ∃ p ∈ List.range highWater, c.counts p = claimed then
          .error (.corrupt "allocator was closed with an unfinished page")
        else .ok ()

/-- `BlockAllocator::open`: the atomics of the handle start anew, the files stay. -/
def openAllocator (capacity blockSize : Nat) (c : Cells) : Except Error (Layout × Cells) := do
  validateLayout capacity blockSize
  let (data, count, blocks) ← fileLengths capacity blockSize
  openGrowable data c.dataLength
  openGrowable count c.countsLength
  validateHeader ⟨capacity, blockSize, blocks⟩ c
  return (⟨capacity, blockSize, blocks⟩,
    { c with currentBlock := 0, currentWord := 0, guard := RwLock.free })

end Allocator

/-- What a database leaves in its directory when its handle is gone. -/
structure Directory where
  headsFile : HeadsFile
  headsLength : Nat
  store : Store

/-- The heads file keeps the length it was created with. -/
def Db.directory (cfg : Config) (d : Db) : Directory where
  headsFile := d.headsFile
  headsLength := (headsLength cfg.bucketCount).toOption.getD 0
  store := d.store

def close (cfg : Config) (m : Machine) : TableM Unit := sync cfg m

section Header

def readMode (word : UInt64) : Except Error Mode :=
  if word = 1 then .ok .set
  else if word = 2 then .ok .map
  else .error (.corrupt "database mode is invalid")

/-- The words of the header that its checksum covers. -/
def HeadsFile.header (f : HeadsFile) : List UInt64 := (List.range 12).map fun i => f.words (i * 8)

def readConfig (f : HeadsFile) : Except Error Config := do
  if f.words 0 ≠ headerMagic then .error (.corrupt "heads header magic does not match")
  else if f.words 8 ≠ formatVersion then
    .error (.unsupported "database format version is not supported")
  else if f.words headerChecksumOffset ≠ headerChecksum f.header then
    .error (.corrupt "heads header checksum does not match")
  else
    let mode ← readMode (f.words 16)
    if (f.words 32).toNat ≠ keySize then .error (.corrupt "stored key size is invalid")
    else if f.words 88 ≠ 0 then .error (.corrupt "stored inline policy is invalid")
    else
      let config : Config := ⟨mode, (f.words 24).toNat, (f.words 40).toNat, (f.words 48).toNat,
        (f.words 56).toNat, f.words 72⟩
      config.validate
      if (f.words 80).toNat ≠ nodeSize then .error (.corrupt "stored body node size is invalid")
      else .ok config

end Header

/-- `create_runtime_heads` with the persisted heads loaded. -/
def loadPersistedHeads (bucketCount : Nat) (f : HeadsFile) (bucket : Nat) : Nat :=
  if bucket < bucketCount then (f.words (headsStart + bucket * 8)).toNat else 0

/-- Both allocators of an opened store; a set has no blob file. -/
def openStore (cfg : Config) (s : Store) : Except Error Store := do
  let body ← openAllocator cfg.bodyCapacity cfg.blockSize s.body
  if cfg.mode = .map then
    let blobs ← openAllocator cfg.blobCapacity cfg.blockSize s.blobs
    return { s with body := body.2, blobs := blobs.2 }
  else return { s with body := body.2 }

/-- `Database::open_runtime` with its operating-system calls succeeding. -/
def openRuntime (dir : Directory) : Except Error (Config × Db) := do
  validateMappingLength dir.headsLength
  let cfg ← readConfig dir.headsFile
  let length ← headsLength cfg.bucketCount
  if length ≠ dir.headsLength then
    .error (.corrupt "heads file length does not match its configuration")
  else
    let store ← openStore cfg dir.store
    return (cfg, { Db.fresh dir.headsFile 0 with
      store := store
      runtimeHeads := loadPersistedHeads cfg.bucketCount dir.headsFile })

section Words
variable {f : HeadsFile} {words : List UInt64} {offset : Nat}

theorem writeWords_append (f : HeadsFile) (offset : Nat) (words : List UInt64) (word : UInt64) :
    f.writeWords offset (words ++ [word]) =
      (f.writeWords offset words).write (offset + words.length * 8) word := by
  simp [HeadsFile.writeWords, List.zipIdx_append]

/-- A word that none of the written ones lands on. -/
theorem writeWords_other {o : Nat} (h : ∀ i < words.length, o ≠ offset + i * 8) :
    (f.writeWords offset words).words o = f.words o := by
  induction words using List.reverseRecOn with
  | nil => rfl
  | append_singleton words word ih =>
    rw [writeWords_append]
    simp only [HeadsFile.write, List.length_append, List.length_singleton] at h ⊢
    rw [Function.update_of_ne (h words.length (by omega))]
    exact ih fun i hi => h i (by omega)

theorem writeWords_get {i : Nat} (hi : i < words.length) :
    (f.writeWords offset words).words (offset + i * 8) = words[i] := by
  induction words using List.reverseRecOn with
  | nil => exact absurd hi (Nat.not_lt_zero i)
  | append_singleton words word ih =>
    rw [writeWords_append]
    simp only [HeadsFile.write]
    by_cases heq : i = words.length
    · subst heq
      simp
    · have hlt : i < words.length := by
        simp only [List.length_append, List.length_singleton] at hi
        omega
      rw [Function.update_of_ne (by omega), ih hlt, List.getElem_append_left hlt]

end Words

section Headers
variable {f f' : HeadsFile}

/-- What `create` checked before it made any file. -/
structure Config.Accepted (cfg : Config) : Prop where
  validate : cfg.validate = .ok ()
  heads : ∃ n, headsLength cfg.bucketCount = .ok n ∧ validateMappingLength n = .ok ()
  store : createStore cfg = .ok ()

theorem create_accepted (h : Db.create cfg = .ok d) : cfg.Accepted := by
  obtain ⟨_, hvalid, h⟩ := bind_ok h
  obtain ⟨n, hlength, h⟩ := bind_ok h
  obtain ⟨_, hmapping, h⟩ := bind_ok h
  obtain ⟨_, hstore, -⟩ := bind_ok h
  exact ⟨hvalid, ⟨n, hlength, hmapping⟩, hstore⟩

theorem Config.Accepted.ready (h : cfg.Accepted) : cfg.Ready :=
  ⟨Config.validate_ok h.validate, createStore_blob h.store⟩

/-- The buckets fit the heads file, so their number fits a word. -/
theorem Config.Accepted.bucket_bound (h : cfg.Accepted) : cfg.bucketCount < 2 ^ 61 := by
  obtain ⟨n, hlength, -⟩ := h.heads
  obtain ⟨size, hsize, -⟩ := bind_ok hlength
  cases hmul : checkedMul cfg.bucketCount 8 with
  | none =>
    rw [bankSize, hmul] at hsize
    cases hsize
  | some bytes =>
    have hlt := (checkedMul_some hmul).1
    have hu : u64Bound = 2 ^ 64 := rfl
    omega

theorem Config.Accepted.blob_bound (h : cfg.Accepted) : cfg.blobCapacity < 2 ^ 64 := by
  rcases mode_set_or_map cfg with hm | hm
  · rw [h.ready.valid.set_blob hm]
    decide
  · have hL := h.ready.blob hm
    have hcap : cfg.blobCapacity = cfg.blobLayout.blockCount * cfg.blobLayout.blockSize :=
      hL.capacity_eq
    have hbound := hL.page_bound (Nat.le_refl _)
    omega

/-- The header in the file is the one `create` wrote for `cfg`. -/
structure HeaderOf (cfg : Config) (f : HeadsFile) : Prop where
  words : f.header = headerWords cfg
  checksum : f.words headerChecksumOffset = headerChecksum (headerWords cfg)

theorem headerOf_initialize (f : HeadsFile) (cfg : Config) :
    HeaderOf cfg (initializeHeader f cfg) := ⟨rfl, rfl⟩

theorem HeaderOf.of_words (h : HeaderOf cfg f)
    (heq : ∀ i ≤ 12, f'.words (i * 8) = f.words (i * 8)) : HeaderOf cfg f' := by
  constructor
  · rw [← h.words]
    apply List.map_congr_left
    intro i hi
    exact heq i (List.mem_range.mp hi).le
  · rw [← h.checksum]
    exact heq 12 (Nat.le_refl 12)

theorem HeaderOf.kept (h : HeaderOf cfg f)
    (heq : ∀ offset < headsStart, f'.words offset = f.words offset) : HeaderOf cfg f' := by
  apply h.of_words
  intro i hi
  have hs : headsStart = 65536 := rfl
  exact heq _ (by omega)

theorem readMode_code (mode : Mode) : readMode mode.code = .ok mode := by
  cases mode with
  | set => rfl
  | map => rfl

/-- The configuration is read back as it was written. -/
theorem readConfig_of_header (hvalid : cfg.validate = .ok ()) (hbuckets : cfg.bucketCount < 2 ^ 64)
    (hblob : cfg.blobCapacity < 2 ^ 64) (h : HeaderOf cfg f) : readConfig f = .ok cfg := by
  have hv := Config.validate_ok hvalid
  have hword : ∀ i (hi : i < 12), f.words (i * 8) = (headerWords cfg)[i] := by
    intro i hi
    have hget := congrArg (fun l : List UInt64 => l[i]?) h.words
    simp only [HeadsFile.header, List.getElem?_map] at hget
    rw [List.getElem?_range hi] at hget
    exact Option.some.inj (hget.trans (List.getElem?_eq_getElem hi))
  have h0 : f.words 0 = headerMagic := hword 0 (by decide)
  have h8 : f.words 8 = formatVersion := hword 1 (by decide)
  have h16 : f.words 16 = cfg.mode.code := hword 2 (by decide)
  have h24 : (f.words 24).toNat = cfg.bucketCount := by
    rw [show f.words 24 = UInt64.ofNat cfg.bucketCount from hword 3 (by decide)]
    exact UInt64.toNat_ofNat_of_lt' hbuckets
  have h32 : (f.words 32).toNat = keySize := by
    rw [show f.words 32 = UInt64.ofNat keySize from hword 4 (by decide)]
    rfl
  have h40 : (f.words 40).toNat = cfg.bodyCapacity := by
    rw [show f.words 40 = UInt64.ofNat cfg.bodyCapacity from hword 5 (by decide)]
    exact UInt64.toNat_ofNat_of_lt' (Nat.lt_of_le_of_lt hv.body_bound (by decide))
  have h48 : (f.words 48).toNat = cfg.blobCapacity := by
    rw [show f.words 48 = UInt64.ofNat cfg.blobCapacity from hword 6 (by decide)]
    exact UInt64.toNat_ofNat_of_lt' hblob
  have h56 : (f.words 56).toNat = cfg.blockSize := by
    rw [show f.words 56 = UInt64.ofNat cfg.blockSize from hword 7 (by decide)]
    exact UInt64.toNat_ofNat_of_lt' (Nat.lt_trans hv.block_bound (by decide))
  have h72 : f.words 72 = cfg.hashSeed := hword 9 (by decide)
  have h80 : (f.words 80).toNat = nodeSize := by
    rw [show f.words 80 = UInt64.ofNat nodeSize from hword 10 (by decide)]
    rfl
  have h88 : f.words 88 = 0 := hword 11 (by decide)
  rw [readConfig, if_neg (not_not.mpr h0), if_neg (not_not.mpr h8), h.words,
    if_neg (not_not.mpr h.checksum), h16, readMode_code, ok_bind, if_neg (not_not.mpr h32),
    if_neg (not_not.mpr h88), h24, h40, h48, h56, h72]
  change (cfg.validate >>= fun _ => if (f.words 80).toNat ≠ nodeSize then
    .error (.corrupt "stored body node size is invalid") else .ok cfg) = .ok cfg
  rw [hvalid, ok_bind, if_neg (not_not.mpr h80)]

theorem readConfig_header (ha : cfg.Accepted) (h : HeaderOf cfg f) : readConfig f = .ok cfg :=
  readConfig_of_header ha.validate (Nat.lt_trans ha.bucket_bound (by decide)) ha.blob_bound h

/-- What the header says is a configuration that is accepted. -/
theorem readConfig_body {f : HeadsFile} {c : Config} (h : readConfig f = .ok c) :
    c.validate = .ok () ∧ c.bodyCapacity = (f.words 40).toNat := by
  rw [readConfig] at h
  simp only [guard_ok] at h
  obtain ⟨-, -, -, h⟩ := h
  obtain ⟨mode, -, h⟩ := bind_ok h
  simp only [guard_ok] at h
  obtain ⟨-, -, h⟩ := h
  obtain ⟨_, hvalid, h⟩ := bind_ok h
  simp only [guard_ok] at h
  obtain ⟨-, h⟩ := h
  cases h
  exact ⟨hvalid, rfl⟩

/-- Nothing behind the header is read. -/
theorem readConfig_words (h : ∀ i ≤ 12, f'.words (i * 8) = f.words (i * 8)) :
    readConfig f' = readConfig f := by
  have hheader : f'.header = f.header :=
    List.map_congr_left fun i hi => h i (List.mem_range.mp hi).le
  have h0 : f'.words 0 = f.words 0 := h 0 (by decide)
  have h8 : f'.words 8 = f.words 8 := h 1 (by decide)
  have h16 : f'.words 16 = f.words 16 := h 2 (by decide)
  have h24 : f'.words 24 = f.words 24 := h 3 (by decide)
  have h32 : f'.words 32 = f.words 32 := h 4 (by decide)
  have h40 : f'.words 40 = f.words 40 := h 5 (by decide)
  have h48 : f'.words 48 = f.words 48 := h 6 (by decide)
  have h56 : f'.words 56 = f.words 56 := h 7 (by decide)
  have h72 : f'.words 72 = f.words 72 := h 9 (by decide)
  have h80 : f'.words 80 = f.words 80 := h 10 (by decide)
  have h88 : f'.words 88 = f.words 88 := h 11 (by decide)
  have h96 : f'.words headerChecksumOffset = f.words headerChecksumOffset := h 12 (by decide)
  simp only [readConfig, hheader, h0, h8, h16, h24, h32, h40, h48, h56, h72, h80, h88, h96]

end Headers

section Files
variable {L : Layout} {c : Cells}

theorem mappingLength_ok {length : Nat} (hpos : 0 < length) (ha : length % 65536 = 0)
    (hb : length < growingBit) : validateMappingLength length = .ok () := by
  have hf : formatPageSize = 65536 := rfl
  rw [validateMappingLength, hf, if_neg (by omega)]

theorem openGrowable_ok {maximum length : Nat} (hmax : validateMappingLength maximum = .ok ())
    (hpos : 0 < length) (ha : length % 65536 = 0) (hle : length ≤ maximum)
    (hb : maximum < growingBit) : openGrowable maximum length = .ok () := by
  rw [openGrowable, hmax, ok_bind, mappingLength_ok hpos ha (Nat.lt_of_le_of_lt hle hb), ok_bind,
    if_neg (by omega)]

/-- A file that was grown in whole format pages covers its high-water mark. -/
theorem validateHeader_ok (hL : L.Ok) (hq : Quiet L c) (hc : ∀ p, c.counts p ≠ claimed) :
    validateHeader L c = .ok () := by
  have hp := hq.pages
  have hpages := hq.pages_eq
  have hle := hp.pages_le
  have hbound := hL.count_bound
  have hcounts := hp.counts_mapped
  have hdata := hp.data_mapped
  have haligned := hp.lengths.counts_aligned
  have hstart : countsStart = 65536 := rfl
  have hu : u64Bound = 2 ^ 64 := rfl
  have hlen : (c.highWater * 2 + countsStart + 65535) / 65536 * 65536 ≤ c.countsLength := by
    omega
  rw [hpages] at hle hcounts hdata
  have hrange : checkedRange c.countsLength countsStart (c.highWater * 2) = .ok () := by
    rw [checkedRange, checkedAdd_of_lt (by omega), okOr_some, ok_bind, if_neg (by omega)]
  have hnone : ¬∃ p ∈ List.range c.highWater, c.counts p = claimed := by
    intro h
    obtain ⟨p, -, hm⟩ := h
    exact hc p hm
  have hclosed : closedBlockValue c = .ok c.highWater := if_neg (Nat.not_le.mpr hq.settled)
  rw [validateHeader, hclosed, ok_bind, if_neg (by omega), countFileLength_ok (by omega), ok_bind,
    if_neg (by omega), dataFileLength_ok hL hle, ok_bind, if_neg (by omega),
    checkedMul_of_lt (by omega), okOr_some, ok_bind, hrange, ok_bind, if_neg hnone]

theorem Allocator.Quiet.unmarked (hq : Quiet L c) (hc : c.currentBlock = 0) : ∀ p, c.counts p ≠ claimed := by
  cases hq.current with
  | closed _ hnone => exact hnone
  | opened b used live ho =>
    have hb := ho.block
    omega

/-- The handle of an allocator that was closed with no page open. -/
theorem Allocator.Quiet.reopened (hq : Quiet L c) (hc : c.currentBlock = 0) :
    Quiet L { c with currentBlock := 0, currentWord := 0, guard := RwLock.free } where
  pages := hq.pages.current RwLock.free 0 0
  current := .closed rfl (hq.unmarked hc)
  unlocked := rfl
  settled := hq.settled

theorem openAllocator_ok {capacity blockSize : Nat} {r : Layout × Cells}
    (hcreate : Allocator.create capacity blockSize = .ok r)
    (hq : Quiet ⟨capacity, blockSize, capacity / blockSize⟩ c) (hc : c.currentBlock = 0) :
    openAllocator capacity blockSize c = .ok (⟨capacity, blockSize, capacity / blockSize⟩,
      { c with currentBlock := 0, currentWord := 0, guard := RwLock.free }) := by
  have hL := Allocator.create_layout hcreate
  obtain ⟨_, hlayout, h⟩ := bind_ok hcreate
  obtain ⟨⟨data, count, blocks⟩, hlengths, h⟩ := bind_ok h
  obtain ⟨_, hdata, h⟩ := bind_ok h
  obtain ⟨_, hcount, -⟩ := bind_ok h
  obtain ⟨data', hdata', h⟩ := bind_ok hlengths
  obtain ⟨count', hcount', h⟩ := bind_ok h
  cases h
  have hdatalen := dataFileLength_ok hL (Nat.le_refl _)
  have hcountlen := countFileLength_ok hL.count_bound
  have hdeq := Except.ok.inj (hdata'.symm.trans hdatalen)
  have hceq := Except.ok.inj (hcount'.symm.trans hcountlen)
  have hlens := hq.pages.lengths
  have hbound := hL.page_bound (Nat.le_refl _)
  have hcb := hL.count_bound
  have hg : growingBit = 2 ^ 63 := rfl
  have hs : countsStart = 65536 := rfl
  have hd : dataStart = 65536 := rfl
  have hmapped := hq.pages.data_mapped
  have hmapped' := hq.pages.counts_mapped
  have hopen : openGrowable data c.dataLength = .ok () := by
    refine openGrowable_ok hdata ?_ hlens.data_aligned ?_ ?_
    · rw [pageStart] at hmapped
      omega
    · rw [hdeq]
      exact hlens.data_le
    · rw [hdeq, pageStart]
      omega
  have hopen' : openGrowable count c.countsLength = .ok () := by
    refine openGrowable_ok hcount ?_ hlens.counts_aligned ?_ ?_
    · omega
    · rw [hceq]
      exact hlens.counts_le
    · rw [hceq]
      omega
  rw [openAllocator, hlayout, ok_bind, hlengths, ok_bind]
  simp only
  rw [hopen, ok_bind, hopen', ok_bind, validateHeader_ok hL hq (hq.unmarked hc), ok_bind]
  rfl

end Files

section Reopen

/-- What a clean `close` leaves: the heads are in the file and no page is unfinished. -/
structure Closed (cfg : Config) (d : Db) (chains : Nat → List Nat) : Prop where
  owned : Owned cfg d.store d.runtimeHeads chains ∅ ∅ ∅
  config : readConfig d.headsFile = .ok cfg
  stored : ∀ b < cfg.bucketCount,
    d.headsFile.words (headsStart + b * 8) = UInt64.ofNat (d.runtimeHeads b)
  body : d.store.body.currentBlock = 0
  blobs : d.store.blobs.currentBlock = 0

/-- A flush that succeeded: the heads are in the file, and both allocators closed their page. -/
theorem Synced.stored (h : Synced cfg v d chains (.ok ()) d') :
    (∀ b < cfg.bucketCount, d'.headsFile.words (headsStart + b * 8) = UInt64.ofNat (d'.runtimeHeads b)) ∧
      d'.store.body.currentBlock = 0 ∧ d'.store.blobs.currentBlock = 0 := by
  rcases h.outcome with ⟨-, hbody, hblobs, f, hstored, heq⟩ | ⟨-, herr, -⟩
  · have hheads : d'.runtimeHeads = d.runtimeHeads := by rw [h.frame]
    refine ⟨?_, hbody, hblobs⟩
    intro b hb
    rw [heq, hheads]
    exact hstored.stored b (List.mem_range.mpr hb)
  · cases herr

theorem Synced.closed (hconfig : readConfig d.headsFile = .ok cfg)
    (h : Synced cfg v d chains (.ok ()) d') : Closed cfg d' chains := by
  obtain ⟨hheads, hbody, hblobs⟩ := h.stored
  have hstart : headsStart = 65536 := rfl
  rcases h.outcome with ⟨-, -, -, f, hstored, heq⟩ | ⟨-, herr, -⟩
  · refine ⟨h.owned, ?_, hheads, hbody, hblobs⟩
    rw [heq, ← hconfig]
    refine readConfig_words fun i hi => ?_
    exact hstored.others (i * 8) fun b _ => by omega
  · cases herr

/-- The heads that are loaded are the heads that were stored. -/
theorem heads_loaded (hv : cfg.Valid) (howned : Owned cfg d.store d.runtimeHeads chains ∅ ∅ ∅)
    (hstored : ∀ b < cfg.bucketCount,
      d.headsFile.words (headsStart + b * 8) = UInt64.ofNat (d.runtimeHeads b)) :
    loadPersistedHeads cfg.bucketCount d.headsFile = d.runtimeHeads := by
  funext b
  rw [loadPersistedHeads]
  by_cases hb : b < cfg.bucketCount
  · have hle := howned.head_le hv b
    rw [if_pos hb, hstored b hb]
    exact UInt64.toNat_ofNat_of_lt' (Nat.lt_of_le_of_lt hle (by decide))
  · have hnil : chains b = [] := by
      apply List.eq_nil_iff_forall_not_mem.mpr
      intro o ho
      exact hb (howned.bucket_lt hv ho)
    have hchain := (howned.chain b).head_eq
    rw [hnil] at hchain
    rw [if_neg hb, hchain]
    rfl

theorem Closed.heads (h : Closed cfg d chains) (hv : cfg.Valid) :
    loadPersistedHeads cfg.bucketCount d.headsFile = d.runtimeHeads :=
  heads_loaded hv h.owned h.stored

theorem createStore_create {u : Unit} (h : createStore cfg = .ok u) :
    (∃ r, Allocator.create cfg.bodyCapacity cfg.blockSize = .ok r) ∧
      (cfg.mode = .map → ∃ r, Allocator.create cfg.blobCapacity cfg.blockSize = .ok r) := by
  obtain ⟨r, hbody, h⟩ := bind_ok h
  refine ⟨⟨r, hbody⟩, ?_⟩
  intro hm
  rw [if_pos hm] at h
  obtain ⟨r', hblob, -⟩ := bind_ok h
  exact ⟨r', hblob⟩

theorem openStore_ok (ha : cfg.Accepted) {s : Store} (hq : Quiet cfg.bodyLayout s.body)
    (hq' : Quiet cfg.blobLayout s.blobs) (hbody : s.body.currentBlock = 0)
    (hblobs : s.blobs.currentBlock = 0) :
    ∃ s', openStore cfg s = .ok s' ∧ Flushed s s' ∧
      Quiet cfg.bodyLayout s'.body ∧ Quiet cfg.blobLayout s'.blobs := by
  obtain ⟨⟨r, hcreate⟩, hcreate'⟩ := createStore_create ha.store
  rw [openStore, openAllocator_ok hcreate hq hbody, ok_bind]
  by_cases hm : cfg.mode = .map
  · obtain ⟨r', hblob⟩ := hcreate' hm
    rw [if_pos hm, openAllocator_ok hblob hq' hblobs, ok_bind]
    exact ⟨_, rfl, ⟨rfl, rfl, rfl, rfl⟩, hq.reopened hbody, hq'.reopened hblobs⟩
  · rw [if_neg hm]
    exact ⟨_, rfl, ⟨rfl, rfl, rfl, rfl⟩, hq.reopened hbody, hq'⟩

/-- The handle that `open_runtime` returns for the directory of `d`. -/
structure Reopened (cfg : Config) (d : Db) (chains : Nat → List Nat) (d' : Db) : Prop where
  idle : Idle d'
  heads : d'.runtimeHeads = d.runtimeHeads
  headsFile : d'.headsFile = d.headsFile
  generation : d'.checkpointGeneration = 0
  flushed : Flushed d.store d'.store
  owned : Owned cfg d'.store d'.runtimeHeads chains ∅ ∅ ∅

theorem openRuntime_ok (ha : cfg.Accepted) (h : Closed cfg d chains) :
    ∃ d', openRuntime (d.directory cfg) = .ok (cfg, d') ∧ Reopened cfg d chains d' := by
  obtain ⟨n, hlength, hmapping⟩ := ha.heads
  obtain ⟨s, hstore, hflush, hq, hq'⟩ :=
    openStore_ok ha h.owned.heap.body h.owned.heap.blobs h.body h.blobs
  have hn : (d.directory cfg).headsLength = n := by
    rw [Db.directory, hlength]
    rfl
  have hheads := h.heads ha.ready.valid
  refine ⟨{ Db.fresh d.headsFile 0 with store := s, runtimeHeads := d.runtimeHeads }, ?_, ?_⟩
  · have hconfig : readConfig (d.directory cfg).headsFile = .ok cfg := h.config
    have hopen : openStore cfg (d.directory cfg).store = .ok s := hstore
    rw [openRuntime, hn, hmapping, ok_bind, hconfig, ok_bind, hlength, ok_bind,
      if_neg (not_not.mpr rfl), hopen, ok_bind, ← hheads]
    rfl
  · exact ⟨⟨rfl, fun _ => rfl, rfl, rfl⟩, rfl, rfl, rfl, hflush, hflush.owned h.owned hq hq'⟩

end Reopen

end FlorestaDb
