import FlorestaDb.Create

/-! `Database::create` with the files it leaves behind. Only `Config::validate` runs before
the directory exists; the other layout checks run between the files, and pass for fewer
configurations. -/
namespace FlorestaDb
open Program Program.Prog Allocator

/-- What `create` makes in the file system. -/
inductive Entry where
  | directory
  | heads
  | body
  | bodyCounts
  | blobs
  | blobsCounts
  deriving DecidableEq, Repr

abbrev CreateM := Prog (List Entry) Error

section Files

def systemCall : CreateM Unit := .choose fun failed => if failed then throw .io else pure ()

/-- `create_dir`, or `OpenOptions` with `create_new`. -/
def makeEntry (entry : Entry) : CreateM Unit := do
  systemCall
  atomic fun _ files => some (.ok (), files ++ [entry])

/-- `try_reserve_exact`: no vector is longer than the largest signed word. -/
def tryReserve (bytes : Nat) : CreateM Unit :=
  if 2 ^ 63 ≤ bytes then throw .outOfMemory
  else .choose fun failed => if failed then throw .outOfMemory else pure ()

def createWithLengths (entry : Entry) (mappingLength fileLength : Nat) (reserve : Bool) :
    CreateM Unit := do
  ofExcept (validateMappingLength mappingLength)
  ofExcept (validateMappingLength fileLength)
  if fileLength > mappingLength then
    throw (.invalidConfig "initial file length exceeds its mapping")
  makeEntry entry
  -- the new length of the file, the reservation of its blocks, and the mapping
  systemCall
  if reserve then systemCall
  systemCall

def createAllocator (data counts : Entry) (capacity blockSize : Nat) : CreateM Unit := do
  ofExcept (validateLayout capacity blockSize)
  let (dataLength, countBytes, _) ← ofExcept (fileLengths capacity blockSize)
  createWithLengths data dataLength dataStart true
  createWithLengths counts countBytes countsStart true
  systemCall

def createDatabase (cfg : Config) : CreateM Db := do
  ofExcept cfg.validate
  makeEntry .directory
  let length ← ofExcept (headsLength cfg.bucketCount)
  createWithLengths .heads length length false
  tryReserve formatPageSize
  ofExcept (checkedRange length 0 formatPageSize)
  systemCall
  tryReserve (cfg.bucketCount * 8)
  tryReserve (cfg.bucketCount * 8)
  createAllocator .body .bodyCounts cfg.bodyCapacity cfg.blockSize
  if cfg.mode = .map then createAllocator .blobs .blobsCounts cfg.blobCapacity cfg.blockSize
  return Db.fresh (initializeHeader HeadsFile.zero cfg) 0

end Files

variable {cfg : Config}

section Lengths

/-- The most buckets whose three banks fit a mapping: `3 * n + 1` format pages stay below the
growing flag for `n` up to the second factor, and a page holds 8192 heads. -/
def maxBuckets : Nat := 8192 * 46912496118442

theorem bankSize_ok {n : Nat} (h : n ≤ maxBuckets) :
    bankSize n = .ok ((n * 8 + 65535) / 65536 * 65536) := by
  have hmax : maxBuckets = 8192 * 46912496118442 := rfl
  have hu : u64Bound = 2 ^ 64 := rfl
  have hpage : formatPageSize = 65536 := rfl
  rw [bankSize, checkedMul_of_lt (by omega), Option.bind_some,
    alignUp_eq (by decide) (by decide) (by omega), okOr_some, hpage]

theorem headsLength_ok {n : Nat} (h : n ≤ maxBuckets) :
    headsLength n = .ok (65536 + (n * 8 + 65535) / 65536 * 65536 * 3) := by
  have hmax : maxBuckets = 8192 * 46912496118442 := rfl
  have hu : u64Bound = 2 ^ 64 := rfl
  have hstart : headsStart = 65536 := rfl
  rw [headsLength, bankSize_ok h, ok_bind, checkedMul_of_lt (by omega), okOr_some, ok_bind,
    checkedAdd_of_lt (by omega), okOr_some, hstart]

theorem headsLength_range {n : Nat} :
    checkedRange (65536 + (n * 8 + 65535) / 65536 * 65536 * 3) 0 formatPageSize = .ok () := by
  have hpage : formatPageSize = 65536 := rfl
  rw [checkedRange, checkedAdd_of_lt (by decide), okOr_some, ok_bind, if_neg (by omega)]

theorem validateMappingLength_ok {n : Nat} (hpos : 0 < n) (haligned : n % 65536 = 0)
    (hlt : n < 2 ^ 63) : validateMappingLength n = .ok () := by
  have hpage : formatPageSize = 65536 := rfl
  have hg : growingBit = 2 ^ 63 := rfl
  rw [validateMappingLength, hpage, if_neg (by omega)]

theorem headsLength_mapped {n length : Nat} (hlength : headsLength n = .ok length)
    (hmapping : validateMappingLength length = .ok ()) : n ≤ maxBuckets := by
  have hmax : maxBuckets = 8192 * 46912496118442 := rfl
  have hg : growingBit = 2 ^ 63 := rfl
  have hpage : formatPageSize = 65536 := rfl
  have hu : u64Bound = 2 ^ 64 := rfl
  obtain ⟨size, hsize, hlength⟩ := bind_ok hlength
  obtain ⟨banks, hbanks, hlength⟩ := bind_ok hlength
  obtain ⟨bytes, hmul, hround⟩ := Option.bind_eq_some_iff.mp (okOr_ok hsize)
  obtain ⟨-, rfl⟩ := checkedMul_some hmul
  rw [alignUp, if_neg (by decide)] at hround
  obtain ⟨sum, hadd, rfl⟩ := Option.map_eq_some_iff.mp hround
  obtain ⟨-, rfl⟩ := checkedAdd_some hadd
  obtain ⟨-, rfl⟩ := checkedMul_some (okOr_ok hbanks)
  obtain ⟨-, rfl⟩ := checkedAdd_some (okOr_ok hlength)
  obtain ⟨hrefused, -⟩ := guard_ok.mp hmapping
  rw [hpage] at hrefused
  omega

/-- The layout checks of `BlockAllocator::create`, in their order. -/
def LayoutAccepted (capacity blockSize : Nat) : Prop :=
  validateLayout capacity blockSize = .ok () ∧
    ∃ data counts blocks, fileLengths capacity blockSize = .ok (data, counts, blocks) ∧
      validateMappingLength data = .ok () ∧ validateMappingLength counts = .ok () ∧
      dataStart ≤ data ∧ countsStart ≤ counts

theorem layoutAccepted_of_validate {capacity blockSize : Nat}
    (h : validateLayout capacity blockSize = .ok ()) : LayoutAccepted capacity blockSize := by
  have hL := Layout.ok_of_validate h
  have hcount : capacity / blockSize < 2 ^ 32 := hL.count_bound
  have hstart : countsStart = 65536 := rfl
  have hdata := dataFileLength_ok hL (Nat.le_refl (capacity / blockSize))
  have hcounts := countFileLength_ok hcount
  refine ⟨h, pageStart ⟨capacity, blockSize, capacity / blockSize⟩ (capacity / blockSize),
    (capacity / blockSize * 2 + countsStart + 65535) / 65536 * 65536, capacity / blockSize,
    ?_, ?_, ?_, Nat.le_add_right _ _, ?_⟩
  · simp only at hdata
    rw [fileLengths, hdata, ok_bind, hcounts, ok_bind]
    rfl
  · exact validateMappingLength_ok (Nat.lt_of_lt_of_le (by decide) (Nat.le_add_right dataStart _))
      (pageStart_aligned hL _) (hL.page_bound (Nat.le_refl _))
  · exact validateMappingLength_ok (by omega) (by omega) (by omega)
  · omega

theorem blob_accepted (hv : cfg.Valid) (hm : cfg.mode = .map)
    (h : cfg.blobCapacity < 2 ^ 32 * cfg.blockSize) :
    validateLayout cfg.blobCapacity cfg.blockSize = .ok () := by
  have hmin := hv.block_min
  have hpage : formatPageSize = 65536 := rfl
  have hpos := hv.map_blob hm
  have hle : cfg.blockSize ≤ cfg.blobCapacity :=
    Nat.le_of_dvd hpos (Nat.dvd_of_mod_eq_zero hv.blob_aligned)
  have hdiv : 0 < cfg.blobCapacity / cfg.blockSize := Nat.div_pos hle (by omega)
  have hlt : cfg.blobCapacity / cfg.blockSize < 2 ^ 32 := by
    rw [Nat.div_lt_iff_lt_mul (by omega)]
    exact h
  have haligned := hv.blob_aligned
  have hbound := hv.block_bound
  rw [validateLayout, hv.block_pow, if_neg (by simp; omega), if_neg (by omega), if_neg (by omega)]

end Lengths

section Outcomes
variable {α β : Type}

/-- A result that no layout check decided. -/
def Passed : Except Error α → Prop
  | .ok _ => True
  | .error e => e = .io ∨ e = .outOfMemory

/-- A part of `create` that no layout check ends. -/
def Passes (p : CreateM α) : Prop := ∀ t files, p.wp .any t (fun r _ => Passed r) files

theorem passes_bind {p : CreateM α} {f : α → CreateM β} (hp : Passes p) (hf : ∀ a, Passes (f a)) :
    Passes (p >>= f) := by
  intro t files
  refine wp_seq (hp t files) ?_
  intro r files' hr
  cases r with
  | ok a => exact hf a t files'
  | error e => exact hr

theorem passes_check {x : Except Error α} {a : α} (h : x = .ok a) {f : α → CreateM β}
    (hf : Passes (f a)) : Passes (ofExcept x >>= f) := by
  subst h
  exact hf

theorem passes_systemCall : Passes systemCall := fun _ _ => ⟨trivial, fun _ => Or.inl rfl⟩

theorem passes_makeEntry (entry : Entry) : Passes (makeEntry entry) :=
  passes_bind passes_systemCall fun _ _ _ => trivial

theorem passes_tryReserve (bytes : Nat) : Passes (tryReserve bytes) := by
  intro t files
  rw [tryReserve]
  split
  · exact Or.inr rfl
  · exact ⟨trivial, fun _ => Or.inr rfl⟩

theorem passes_createWithLengths (entry : Entry) {mappingLength fileLength : Nat} (reserve : Bool)
    (hmapping : validateMappingLength mappingLength = .ok ())
    (hfile : validateMappingLength fileLength = .ok ()) (hle : fileLength ≤ mappingLength) :
    Passes (createWithLengths entry mappingLength fileLength reserve) := by
  refine passes_check hmapping (passes_check hfile ?_)
  rw [if_neg (Nat.not_lt.mpr hle)]
  refine passes_bind (passes_makeEntry entry) fun _ => passes_bind passes_systemCall fun _ => ?_
  cases reserve with
  | false => exact passes_systemCall
  | true => exact passes_bind passes_systemCall fun _ => passes_systemCall

theorem passes_createAllocator (data counts : Entry) {capacity blockSize : Nat}
    (h : LayoutAccepted capacity blockSize) :
    Passes (createAllocator data counts capacity blockSize) := by
  obtain ⟨hlayout, dataLength, countBytes, blocks, hlengths, hdata, hcounts, hle, hle'⟩ := h
  have hstart : validateMappingLength 65536 = .ok () := by decide
  refine passes_check hlayout (passes_check hlengths ?_)
  exact passes_bind (passes_createWithLengths data true hdata hstart hle) fun _ =>
    passes_bind (passes_createWithLengths counts true hcounts hstart hle') fun _ =>
      passes_systemCall

end Outcomes

section Complete

/-- Every layout computation of `create` succeeds. -/
structure Config.Representable (cfg : Config) : Prop where
  heads : ∃ length, headsLength cfg.bucketCount = .ok length ∧
    validateMappingLength length = .ok ()
  body : LayoutAccepted cfg.bodyCapacity cfg.blockSize
  blob : cfg.mode = .map → LayoutAccepted cfg.blobCapacity cfg.blockSize
  created : ∀ t files r files', (createDatabase cfg).Returns t files r files' → Passed r

theorem passes_createDatabase (hvalid : cfg.validate = .ok ()) (hn : cfg.bucketCount ≤ maxBuckets)
    (hbody : LayoutAccepted cfg.bodyCapacity cfg.blockSize)
    (hblob : cfg.mode = .map → LayoutAccepted cfg.blobCapacity cfg.blockSize) :
    Passes (createDatabase cfg) := by
  have hmax : maxBuckets = 8192 * 46912496118442 := rfl
  have hmapped : validateMappingLength
      (65536 + (cfg.bucketCount * 8 + 65535) / 65536 * 65536 * 3) = .ok () :=
    validateMappingLength_ok (by omega) (by omega) (by omega)
  refine passes_check hvalid (passes_bind (passes_makeEntry .directory) fun _ =>
    passes_check (headsLength_ok hn) ?_)
  refine passes_bind (passes_createWithLengths .heads false hmapped hmapped (Nat.le_refl _))
    fun _ => passes_bind (passes_tryReserve _) fun _ => passes_check headsLength_range ?_
  refine passes_bind passes_systemCall fun _ => passes_bind (passes_tryReserve _) fun _ =>
    passes_bind (passes_tryReserve _) fun _ =>
    passes_bind (passes_createAllocator .body .bodyCounts hbody) fun _ => ?_
  by_cases hm : cfg.mode = .map
  · rw [if_pos hm]
    exact passes_bind (passes_createAllocator .blobs .blobsCounts (hblob hm)) fun _ _ _ => trivial
  · rw [if_neg hm]
    exact fun _ _ => trivial

/-- A validated configuration is representable exactly when the three head banks fit one
mapping and the pages of the blob file can be numbered. -/
theorem validate_complete_iff (cfg : Config) :
    (cfg.validate = .ok () → cfg.Representable) ↔
      (cfg.validate = .ok () → cfg.bucketCount ≤ maxBuckets ∧
        (cfg.mode = .map → cfg.blobCapacity < 2 ^ 32 * cfg.blockSize)) := by
  constructor
  · intro h hvalid
    obtain ⟨⟨length, hlength, hmapping⟩, -, hblob, -⟩ := h hvalid
    refine ⟨headsLength_mapped hlength hmapping, ?_⟩
    intro hm
    have hL := Layout.ok_of_validate (hblob hm).1
    have hcount : cfg.blobCapacity / cfg.blockSize < 2 ^ 32 := hL.count_bound
    rwa [Nat.div_lt_iff_lt_mul hL.block_pos] at hcount
  · intro h hvalid
    obtain ⟨hn, hpages⟩ := h hvalid
    have hv := Config.validate_ok hvalid
    have hmax : maxBuckets = 8192 * 46912496118442 := rfl
    have hbody := layoutAccepted_of_validate hv.bodyLayout_accepted
    have hblob : cfg.mode = .map → LayoutAccepted cfg.blobCapacity cfg.blockSize := fun hm =>
      layoutAccepted_of_validate (blob_accepted hv hm (hpages hm))
    refine ⟨⟨_, headsLength_ok hn, ?_⟩, hbody, hblob, ?_⟩
    · exact validateMappingLength_ok (by omega) (by omega) (by omega)
    · intro t files r files' hr
      exact post_of_returns (passes_createDatabase hvalid hn hbody hblob t files) hr

/-- A set of `2 ^ 63` buckets, and a map whose blob file has `2 ^ 32` pages. -/
def Config.vast : Config := ⟨.set, 2 ^ 63, 2 ^ 30, 0, 2 ^ 20, 0⟩
def Config.deep : Config := ⟨.map, 1024, 2 ^ 30, 2 ^ 48, 65536, 0⟩

/-- Both pass `validate`; one fails with its directory made, one with its heads and body. -/
theorem validate_incomplete :
    ¬(Config.vast.validate = .ok () → Config.vast.Representable) ∧
      ((createDatabase Config.vast).run 0 []).map (fun x => (x.1.map fun _ => (), x.2)) =
        some (.error (.invalidConfig "checkpoint bank size overflow"), [.directory]) ∧
      ¬(Config.deep.validate = .ok () → Config.deep.Representable) ∧
      ((createDatabase Config.deep).run 0 []).map (fun x => (x.1.map fun _ => (), x.2)) =
        some (.error (.invalidConfig "allocator page count is not representable"),
          [.directory, .heads, .body, .bodyCounts]) := by
  have hvast : Config.vast.validate = .ok () := by decide +kernel
  have hdeep : Config.deep.validate = .ok () := by decide +kernel
  refine ⟨?_, by decide +kernel, ?_, by decide +kernel⟩
  · intro h
    obtain ⟨length, hlength, -⟩ := (h hvast).heads
    have herror : headsLength Config.vast.bucketCount =
      .error (.invalidConfig "checkpoint bank size overflow") := by decide +kernel
    rw [herror] at hlength
    cases hlength
  · intro h
    have hlayout := ((h hdeep).blob rfl).1
    have herror : validateLayout Config.deep.blobCapacity Config.deep.blockSize =
      .error (.invalidConfig "allocator page count is not representable") := by decide +kernel
    rw [herror] at hlayout
    cases hlayout

end Complete

end FlorestaDb
