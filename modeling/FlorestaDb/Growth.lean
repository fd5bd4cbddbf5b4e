import FlorestaDb.AllocatorSequential

/-! The growth of an allocator's two files on both platforms, with the operating system as an
oracle: `MappedFile::grow` and `reserve` over the length of the file itself, the published
length and, on macOS, the committed part of the reserved addresses. -/
namespace FlorestaDb.Allocator
open Program Program.Prog

inductive Platform where
  | linux
  | macos
  deriving DecidableEq, Repr

inductive Which where
  | counts
  | data
  deriving DecidableEq, Repr

/-- A file behind its mapping: its length, and how far macOS has mapped it. -/
structure Backing where
  size : Nat
  committed : Nat
  deriving DecidableEq

/-- An allocator with the files behind it. The lengths in its cells are the published ones. -/
structure Backed where
  cells : Cells
  files : Which → Backing

abbrev BackedM := Prog Backed Error

namespace Backed
variable {v : Env} {t : Tid} {L : Layout} {b b' : Backed} {w : Which} {platform : Platform}

def length (b : Backed) : Which → Nat
  | .counts => b.cells.countsLength
  | .data => b.cells.dataLength

def setLength (b : Backed) : Which → Nat → Backed
  | .counts, n => { b with cells := { b.cells with countsLength := n } }
  | .data, n => { b with cells := { b.cells with dataLength := n } }

def setFile (b : Backed) (w : Which) (f : Backing → Backing) : Backed :=
  { b with files := Function.update b.files w (f (b.files w)) }

def onCells {α : Type} (p : AllocM α) : BackedM α := p.focus Backed.cells fun c b => { b with cells := c }

section Calls

def systemCall : BackedM Unit := .choose fun failed => if failed then throw .io else pure ()

/-- A failed `set_len` leaves the file as it was. -/
def setLen (w : Which) (n : Nat) : BackedM Unit := do
  systemCall
  atomic fun _ b => some (.ok (), b.setFile w fun file => { file with size := n })

def loadLength (w : Which) : BackedM Nat := atomic fun _ b => some (.ok (b.length w), b)

def casLength (w : Which) (expected new : Nat) : BackedM Bool := atomic fun _ b =>
  if b.length w = expected then some (.ok true, b.setLength w new) else some (.ok false, b)

def mapFileSegment (offset : Nat) : BackedM Unit := do
  if 2 ^ 63 ≤ offset then throw (.invalidConfig "mapping offset exceeds macOS off_t")
  systemCall
  .choose fun moved =>
    if moved then throw (.unsupported "macOS MAP_FIXED did not preserve the reserved address")
    else pure ()

/-- `Mapping::grow`: on Linux the whole mapping is there from the start. -/
def growMapping (platform : Platform) (w : Which) (mapping old new : Nat) : BackedM Unit :=
  match platform with
  | .linux => pure ()
  | .macos => do
    let committed ← atomic fun _ b => some (.ok (b.files w).committed, b)
    if committed ≠ old ∨ old ≥ new ∨ new > mapping then
      throw (.corrupt "invalid macOS mapping growth range")
    mapFileSegment old
    atomic fun _ b => some (.ok (), b.setFile w fun file => { file with committed := new })

/-- The body of `MappedFile::grow` between its two exchanges: when the mapping cannot follow,
the file is cut back, and whether that worked is ignored. -/
def extend (platform : Platform) (w : Which) (mapping old new : Nat) : BackedM Unit := do
  setLen w new
  match ← (growMapping platform w mapping old new).attempt with
  | .ok () => return ()
  | .error e =>
    let _ ← (setLen w old).attempt
    throw e

def growLoop (platform : Platform) (w : Which) (mapping new : Nat) : Nat → BackedM Bool
  | 0 => .spin
  | fuel + 1 => do
    let old ← loadLength w
    if growingBit ≤ old then growLoop platform w mapping new fuel
    else if old ≥ new then return false
    else if ← casLength w old (old + growingBit) then
      let result ← (extend platform w mapping old new).attempt
      let published := if result.isOk then new else old
      if ← casLength w (old + growingBit) published then
        ofExcept result
        return true
      else throw (.corrupt "mapped file growth state changed")
    else growLoop platform w mapping new fuel

def growFile (platform : Platform) (w : Which) (mapping new fuel : Nat) : BackedM Bool := do
  ofExcept (growRange mapping new)
  growLoop platform w mapping new fuel

def fileLength (w : Which) : Nat → BackedM Nat
  | 0 => .spin
  | fuel + 1 => do
    let n ← loadLength w
    if n < growingBit then return n else fileLength w fuel

/-- The `reserve` of each platform. Darwin allocates behind the end of the file. -/
def platformReserve (platform : Platform) (w : Which) (offset n : Nat) : BackedM Unit :=
  match platform with
  | .linux => do
    if 2 ^ 63 ≤ offset ∨ 2 ^ 63 ≤ n then
      throw (.invalidConfig "file offset exceeds Linux off_t")
    systemCall
    atomic fun _ b => some (.ok (), b.setFile w fun file =>
      { file with size := max file.size (offset + n) })
  | .macos => do
    let last ← ofExcept (okOr (checkedAdd offset n)
      (.invalidConfig "file reservation range overflow"))
    systemCall
    let size ← atomic fun _ b => some (.ok (b.files w).size, b)
    if size ≠ last then throw (.corrupt "macOS can only reserve the newly grown file tail")
    if 2 ^ 63 ≤ n then throw (.invalidConfig "file reservation exceeds macOS off_t")
    .choose fun scattered => if scattered then systemCall else pure ()
    .choose fun short =>
      if short then throw (.capacityExhausted "file reservation") else pure ()

def reserve (platform : Platform) (w : Which) (offset n fuel : Nat) : BackedM Unit := do
  let last ← ofExcept (okOr (checkedAdd offset n) (.corrupt "mapped range overflow"))
  if last > (← fileLength w fuel) then
    throw (.corrupt "mapped range is beyond the file length")
  platformReserve platform w offset n

def growFiles (platform : Platform) (L : Layout) (old new pages fuel : Nat) : BackedM Unit := do
  let countsMapping ← ofExcept (countFileLength L.blockCount)
  let dataMapping ← ofExcept (dataFileLength L.blockCount L.blockSize)
  let _ ← growFile platform .counts countsMapping (← ofExcept (countFileLength new)) fuel
  let _ ← growFile platform .data dataMapping (← ofExcept (dataFileLength new L.blockSize)) fuel
  reserve platform .data (← ofExcept (dataOffset L old)) (pages * L.blockSize) fuel

/-- `BlockAllocator::grow` on a platform. -/
def grow (platform : Platform) (L : Layout) (requestedBytes : Nat) : Nat → BackedM Unit
  | 0 => .spin
  | fuel + 1 => do
    let old ← onCells loadHighWater
    if growingBit ≤ old then grow platform L requestedBytes fuel
    else if old ≥ L.blockCount then throw (.capacityExhausted "mapped file")
    else
      let bytes ← ofExcept (okOr (checkedAdd requestedBytes (L.blockSize - 1))
        (.capacityExhausted "allocation growth"))
      let pages := min (max (bytes / L.blockSize) 1) (L.blockCount - old)
      let new ← ofExcept (okOr (checkedAdd old pages) (.capacityExhausted "page count"))
      if ← onCells (casHighWater old (old + growingBit)) then
        let result ← (growFiles platform L old new pages (fuel + 1)).attempt
        let published := if result.isOk then new else old
        if ← onCells (casHighWater (old + growingBit) published) then ofExcept result
        else throw (.corrupt "allocator growth state changed")
      else grow platform L requestedBytes fuel

end Calls

section Steps
variable {Q : Except Error Unit → Backed → Prop}

theorem wp_onCells {α : Type} (p : AllocM α) (Q : Except Error α → Backed → Prop) :
    (onCells p).wp v t Q b ↔ p.wp v t (fun r c => Q r { b with cells := c }) b.cells :=
  wp_focus Backed.cells (fun c b => { b with cells := c }) (fun _ _ => rfl) (fun _ _ _ => rfl)
    (fun _ => rfl) p Q b

theorem wp_systemCall : systemCall.wp v t Q b ↔ Q (.ok ()) b ∧ (v = .any → Q (.error .io) b) := by
  rw [systemCall, wp_choose]
  rfl

@[simp] theorem length_setLength (b : Backed) (w : Which) (n : Nat) :
    (b.setLength w n).length w = n := by
  cases w <;> rfl

@[simp] theorem length_setFile (b : Backed) (w w' : Which) (f : Backing → Backing) :
    (b.setFile w f).length w' = b.length w' := by
  cases w' <;> rfl

@[simp] theorem files_setLength (b : Backed) (w : Which) (n : Nat) :
    (b.setLength w n).files = b.files := by
  cases w <;> rfl

@[simp] theorem files_setFile (b : Backed) (w : Which) (f : Backing → Backing) :
    (b.setFile w f).files w = f (b.files w) := by
  simp [setFile]

@[simp] theorem setFile_setFile (b : Backed) (w : Which) (f g : Backing → Backing) :
    (b.setFile w f).setFile w g = b.setFile w (g ∘ f) := by
  simp [setFile]

@[simp] theorem setLength_setFile (b : Backed) (w : Which) (n : Nat) (f : Backing → Backing) :
    (b.setFile w f).setLength w n = (b.setLength w n).setFile w f := by
  cases w <;> rfl

@[simp] theorem setLength_setLength (b : Backed) (w : Which) (m n : Nat) :
    (b.setLength w m).setLength w n = b.setLength w n := by
  cases w <;> rfl

theorem setLength_self (b : Backed) (w : Which) : b.setLength w (b.length w) = b := by
  cases w <;> rfl

theorem setFile_self (b : Backed) (w : Which) : b.setFile w (fun _ => b.files w) = b := by
  simp [setFile]

theorem setLen_spec {n : Nat} (hok : Q (.ok ()) (b.setFile w fun file => { file with size := n }))
    (hio : v = .any → Q (.error .io) b) : (setLen w n).wp v t Q b := by
  rw [setLen, wp_bind, wp_systemCall]
  exact ⟨(wp_atomic _).mpr ⟨_, _, rfl, hok⟩, hio⟩

/-- A system call whose failure only the `any` environment can choose. -/
theorem choose_spec {fail : BackedM Unit} (hok : Q (.ok ()) b)
    (hfail : v = .any → fail.wp v t Q b) :
    (Prog.choose fun failed => if failed then fail else pure ()).wp v t Q b :=
  (wp_choose _).mpr ⟨hok, hfail⟩

theorem mapFileSegment_spec {offset : Nat} (hb : offset < growingBit) (hok : Q (.ok ()) b)
    (herr : v = .any → ∀ e, Q (.error e) b) : (mapFileSegment offset).wp v t Q b := by
  have hg : growingBit = 2 ^ 63 := rfl
  rw [mapFileSegment, if_neg (by omega), wp_bind, wp_systemCall]
  exact ⟨choose_spec hok fun hv => herr hv _, fun hv => herr hv _⟩

/-- What macOS has mapped of a file is what was published of it. -/
def Committed (platform : Platform) (file : Backing) (n : Nat) : Prop :=
  platform = .macos → file.committed = n

theorem growMapping_spec {mapping old new : Nat} (hc : Committed platform (b.files w) old)
    (hlt : old < new) (hm : new ≤ mapping) (hb : new < growingBit)
    (hok : ∀ file, file.size = (b.files w).size → Committed platform file new →
      Q (.ok ()) (b.setFile w fun _ => file))
    (herr : v = .any → ∀ e, Q (.error e) b) :
    (growMapping platform w mapping old new).wp v t Q b := by
  cases platform with
  | linux =>
    have h := hok (b.files w) rfl (fun h => by cases h)
    rw [setFile_self] at h
    exact h
  | macos =>
    rw [growMapping, wp_bind, wp_atomic]
    refine ⟨_, _, rfl, ?_⟩
    rw [andThen_ok, hc rfl, if_neg (by omega), wp_bind]
    refine mapFileSegment_spec (by omega) ?_ herr
    exact (wp_atomic _).mpr ⟨_, _, rfl, hok ⟨(b.files w).size, new⟩ rfl fun _ => rfl⟩

theorem extend_spec {mapping old new : Nat} (hc : Committed platform (b.files w) old)
    (hlt : old < new) (hm : new ≤ mapping) (hb : new < growingBit)
    (hok : ∀ file, file.size = new → Committed platform file new →
      Q (.ok ()) (b.setFile w fun _ => file))
    (herr : v = .any → ∀ e file, Committed platform file old →
      Q (.error e) (b.setFile w fun _ => file)) :
    (extend platform w mapping old new).wp v t Q b := by
  have hio : v = .any → Q (.error .io) b := by
    intro hv
    have h := herr hv .io (b.files w) hc
    rw [setFile_self] at h
    exact h
  rw [extend, wp_bind]
  refine setLen_spec ?_ hio
  rw [andThen_ok, wp_bind, wp_attempt]
  refine growMapping_spec ?_ hlt hm hb ?_ ?_
  · rw [files_setFile]
    exact hc
  · intro file hsize hcom
    rw [files_setFile] at hsize
    rw [setFile_setFile]
    exact hok file hsize hcom
  · intro hv e
    -- the mapping did not follow: the file is cut back, or stays long when that fails too
    have hlong : Q (.error e) (b.setFile w fun file => { file with size := new }) :=
      herr hv e { b.files w with size := new } hc
    rw [andThen_ok, wp_bind, wp_attempt]
    refine setLen_spec ?_ fun _ => hlong
    rw [setFile_setFile]
    exact herr hv e { b.files w with size := old } hc

theorem wp_loadLength {Q : Except Error Nat → Backed → Prop} :
    (loadLength w).wp v t Q b ↔ Q (.ok (b.length w)) b := by
  simp [loadLength, wp_atomic]

theorem wp_casLength {expected new : Nat} {Q : Except Error Bool → Backed → Prop} :
    (casLength w expected new).wp v t Q b ↔
      if b.length w = expected then Q (.ok true) (b.setLength w new) else Q (.ok false) b := by
  simp only [casLength, wp_atomic]
  split <;> simp

/-- One file asked for `new` bytes: it keeps what it has, or follows, or the call fails and the
published length stays. -/
theorem growFile_spec {mapping new fuel : Nat} {Q : Except Error Bool → Backed → Prop}
    (hc : Committed platform (b.files w) (b.length w)) (hl : b.length w < growingBit)
    (hrange : growRange mapping new = .ok ()) (hm : new ≤ mapping) (hb : new < growingBit)
    (hf : v = .fair → 1 ≤ fuel) (hkeep : new ≤ b.length w → Q (.ok false) b)
    (hok : b.length w < new → ∀ file, file.size = new → Committed platform file new →
      Q (.ok true) ((b.setLength w new).setFile w fun _ => file))
    (herr : v = .any → ∀ e file, Committed platform file (b.length w) →
      Q (.error e) (b.setFile w fun _ => file)) :
    (growFile platform w mapping new fuel).wp v t Q b := by
  rw [growFile, hrange, wp_bind, wp_ofExcept, andThen_ok]
  cases fuel with
  | zero =>
    cases v with
    | fair => exact absurd (hf rfl) (by decide)
    | any => exact rfl
  | succ fuel =>
    rw [growLoop, wp_bind, wp_loadLength, andThen_ok, if_neg (by omega)]
    by_cases hge : b.length w ≥ new
    · rw [if_pos hge]
      exact hkeep hge
    · rw [if_neg hge, wp_bind, wp_casLength, if_pos rfl, andThen_ok, if_pos rfl, wp_bind,
        wp_attempt]
      refine extend_spec ?_ (by omega) hm hb ?_ ?_
      · rw [files_setLength]
        exact hc
      · intro file hsize hcom
        rw [andThen_ok, wp_bind, wp_casLength, if_pos (by simp), andThen_ok, if_pos rfl]
        simp only [setLength_setFile, setLength_setLength]
        exact hok (by omega) file hsize hcom
      · intro hv e file hcom
        have h := herr hv e file hcom
        rw [andThen_ok, wp_bind, wp_casLength, if_pos (by simp), andThen_ok, if_pos rfl]
        simp only [setLength_setFile, setLength_setLength]
        rw [← setLength_self b w] at h
        exact h

theorem fileLength_spec {fuel : Nat} {Q : Except Error Nat → Backed → Prop}
    (hl : b.length w < growingBit) (hf : v = .fair → 1 ≤ fuel) (hok : Q (.ok (b.length w)) b) :
    (fileLength w fuel).wp v t Q b := by
  cases fuel with
  | zero =>
    cases v with
    | fair => exact absurd (hf rfl) (by decide)
    | any => exact rfl
  | succ fuel =>
    rw [fileLength, wp_bind, wp_loadLength, andThen_ok, if_pos hl]
    exact hok

/-- Darwin reserves behind the end of the file, so the range has to end there. -/
def Reservable (platform : Platform) (file : Backing) (last : Nat) : Prop :=
  platform = .linux ∨ file.size = last

theorem platformReserve_spec {offset n : Nat} (hb : offset + n < growingBit)
    (hc : Committed platform (b.files w) (b.length w))
    (hok : Reservable platform (b.files w) (offset + n) →
      ∀ file, Committed platform file (b.length w) → Q (.ok ()) (b.setFile w fun _ => file))
    (herr : v = .any ∨ ¬Reservable platform (b.files w) (offset + n) → ∀ e, Q (.error e) b) :
    (platformReserve platform w offset n).wp v t Q b := by
  have hg : growingBit = 2 ^ 63 := rfl
  have hu : u64Bound = 2 ^ 64 := rfl
  cases platform with
  | linux =>
    rw [platformReserve, if_neg (by omega), wp_bind, wp_systemCall]
    exact ⟨(wp_atomic _).mpr ⟨_, _, rfl, hok (Or.inl rfl) _ hc⟩, fun hv => herr (Or.inl hv) _⟩
  | macos =>
    rw [platformReserve, checkedAdd_of_lt (by omega), okOr_some, wp_bind, wp_ofExcept, andThen_ok,
      wp_bind, wp_systemCall]
    refine ⟨?_, fun hv => herr (Or.inl hv) _⟩
    rw [andThen_ok, wp_bind, wp_atomic]
    refine ⟨_, _, rfl, ?_⟩
    rw [andThen_ok]
    by_cases hsize : (b.files w).size = offset + n
    · have h := hok (Or.inr hsize) (b.files w) hc
      rw [setFile_self] at h
      have hlast : (Prog.choose fun short => if short then throw (.capacityExhausted "file reservation")
          else pure () : BackedM Unit).wp v t Q b :=
        choose_spec h fun hv => herr (Or.inl hv) _
      rw [if_neg (by simpa using hsize), if_neg (by omega), wp_bind]
      refine choose_spec hlast ?_
      intro hv
      rw [wp_systemCall]
      exact ⟨hlast, fun _ => herr (Or.inl hv) _⟩
    · have hnot : ¬Reservable .macos (b.files w) (offset + n) := by
        intro h
        cases h with
        | inl h => cases h
        | inr h => exact hsize h
      rw [if_pos hsize]
      exact herr (Or.inr hnot) _

theorem reserve_spec {offset n fuel : Nat} (hle : offset + n ≤ b.length w)
    (hl : b.length w < growingBit) (hf : v = .fair → 1 ≤ fuel)
    (hc : Committed platform (b.files w) (b.length w))
    (hok : Reservable platform (b.files w) (offset + n) →
      ∀ file, Committed platform file (b.length w) → Q (.ok ()) (b.setFile w fun _ => file))
    (herr : v = .any ∨ ¬Reservable platform (b.files w) (offset + n) → ∀ e, Q (.error e) b) :
    (reserve platform w offset n fuel).wp v t Q b := by
  have hg : growingBit = 2 ^ 63 := rfl
  have hu : u64Bound = 2 ^ 64 := rfl
  rw [reserve, checkedAdd_of_lt (by omega), okOr_some, wp_bind, wp_ofExcept, andThen_ok, wp_bind]
  refine fileLength_spec hl hf ?_
  rw [andThen_ok, if_neg (by omega)]
  exact platformReserve_spec (by omega) hc hok herr

/-- The file `w` after a growth: the others and all other cells are as before. -/
structure Resized (platform : Platform) (w : Which) (b b' : Backed) (n : Nat) (file : Backing) :
    Prop where
  eq : b' = (b.setLength w n).setFile w fun _ => file
  committed : Committed platform file n

theorem Resized.refl (hc : Committed platform (b.files w) (b.length w)) :
    Resized platform w b b (b.length w) (b.files w) := by
  refine ⟨?_, hc⟩
  rw [setLength_self, setFile_self]

theorem growFile_resized {mapping new fuel : Nat}
    (hc : Committed platform (b.files w) (b.length w)) (hl : b.length w < growingBit)
    (hrange : growRange mapping new = .ok ()) (hm : new ≤ mapping) (hb : new < growingBit)
    (hf : v = .fair → 1 ≤ fuel) :
    (growFile platform w mapping new fuel).wp v t (fun r b' =>
      (∃ a file, r = .ok a ∧ Resized platform w b b' (max (b.length w) new) file ∧
        (b.length w < new → file.size = new) ∧ (new ≤ b.length w → file = b.files w)) ∨
      ∃ e file, r = .error e ∧ Resized platform w b b' (b.length w) file ∧ v = .any) b := by
  refine growFile_spec hc hl hrange hm hb hf ?_ ?_ ?_
  · intro hle
    have hmax : max (b.length w) new = b.length w := Nat.max_eq_left hle
    refine Or.inl ⟨false, b.files w, rfl, ?_, fun hlt => absurd hle (by omega), fun _ => rfl⟩
    rw [hmax]
    exact .refl hc
  · intro hlt file hsize hcom
    have hmax : max (b.length w) new = new := Nat.max_eq_right (by omega)
    refine Or.inl ⟨true, file, rfl, ?_, fun _ => hsize, fun hle => absurd hle (by omega)⟩
    rw [hmax]
    exact ⟨rfl, hcom⟩
  · intro hv e file hcom
    refine Or.inr ⟨e, file, rfl, ⟨?_, hcom⟩, hv⟩
    rw [setLength_self]

/-- The files of `b'` carry on where those of `b` were: lengths only grew, and macOS has mapped
what is published. -/
structure Follows (platform : Platform) (L : Layout) (b b' : Backed) : Prop where
  extended : Extended L b.cells b'.cells
  committed : ∀ w, Committed platform (b'.files w) (b'.length w)

/-- The data file either has to grow to `new` pages or ends there already. -/
def Tail (L : Layout) (b : Backed) (new : Nat) : Prop :=
  b.length .data < pageStart L new ∨ (b.files .data).size = pageStart L new

theorem countsRange_ok (hL : L.Ok) {n : Nat} (hn : n ≤ L.blockCount) :
    growRange ((L.blockCount * 2 + countsStart + 65535) / 65536 * 65536)
        ((n * 2 + countsStart + 65535) / 65536 * 65536) = .ok () ∧
      (n * 2 + countsStart + 65535) / 65536 * 65536 ≤
        (L.blockCount * 2 + countsStart + 65535) / 65536 * 65536 ∧
      (L.blockCount * 2 + countsStart + 65535) / 65536 * 65536 < growingBit := by
  have hcb := hL.count_bound
  have hcs : countsStart = 65536 := rfl
  have hg : growingBit = 2 ^ 63 := rfl
  have hmono : (n * 2 + countsStart + 65535) / 65536 * 65536 ≤
      (L.blockCount * 2 + countsStart + 65535) / 65536 * 65536 :=
    Nat.mul_le_mul_right _ (Nat.div_le_div_right (by omega))
  exact ⟨growRange_ok (by omega) (Nat.mul_mod_left _ _) (by omega) hmono, hmono, by omega⟩

theorem dataRange_ok (hL : L.Ok) {n : Nat} (hn : n ≤ L.blockCount) :
    growRange (pageStart L L.blockCount) (pageStart L n) = .ok () ∧
      pageStart L n ≤ pageStart L L.blockCount ∧ pageStart L L.blockCount < growingBit := by
  have hfull : pageStart L L.blockCount < growingBit := hL.page_bound (Nat.le_refl _)
  have hps : pageStart L n = dataStart + n * L.blockSize := rfl
  have hds : dataStart = 65536 := rfl
  have hmono := pageStart_mono L hn
  exact ⟨growRange_ok (by omega) (pageStart_aligned hL n) (by omega) hmono, hmono, hfull⟩

theorem extended_refl {c : Cells} (h : Lengths L c.countsLength c.dataLength) : Extended L c c :=
  ⟨rfl, Nat.le_refl _, Nat.le_refl _, h⟩

theorem growTail_spec (hL : L.Ok) {old new pages fuel : Nat} (hnew : new = old + pages)
    (hle : new ≤ L.blockCount) (hlen : Lengths L b.cells.countsLength b.cells.dataLength)
    (hc : ∀ w, Committed platform (b.files w) (b.length w)) (hf : v = .fair → 1 ≤ fuel) :
    (growFile platform .data (pageStart L L.blockCount) (pageStart L new) fuel >>= fun _ =>
        reserve platform .data (pageStart L old) (pages * L.blockSize) fuel).wp v t
      (fun r b' => Follows platform L b b' ∧
        (r = .ok () ∧ pageStart L new ≤ b'.length .data ∧ (platform = .linux ∨ Tail L b new) ∨
          (∃ e, r = .error e) ∧ (v = .any ∨ ¬(platform = .linux ∨ Tail L b new)))) b := by
  obtain ⟨hdr, hdm, hdg⟩ := dataRange_ok hL hle
  have hlt : b.length .data < growingBit := Nat.lt_of_le_of_lt hlen.data_le hdg
  have hps : ∀ n, pageStart L n = dataStart + n * L.blockSize := fun _ => rfl
  have hsplit : pageStart L old + pages * L.blockSize = pageStart L new := by
    rw [hps, hps, hnew, Nat.add_mul]
    omega
  refine wp_seq (growFile_resized (hc .data) hlt hdr hdm (by omega) hf) ?_
  intro r b1 h1
  cases h1 with
  | inr h1 =>
    obtain ⟨e, file, rfl, ⟨rfl, hcom⟩, hv⟩ := h1
    refine ⟨⟨extended_refl hlen, ?_⟩, Or.inr ⟨⟨e, rfl⟩, Or.inl hv⟩⟩
    intro w
    cases w with
    | counts => exact hc .counts
    | data => simpa using hcom
  | inl h1 =>
    obtain ⟨a, file, rfl, ⟨rfl, hcom⟩, hgrew, hkept⟩ := h1
    have hext : Extended L b.cells
        ((b.setLength .data (max (b.length .data) (pageStart L new))).setFile .data
          fun _ => file).cells :=
      ⟨rfl, Nat.le_refl _, Nat.le_max_left _ _, hlen.data hL hle⟩
    have htail : Reservable platform file (pageStart L new) ↔
        platform = .linux ∨ Tail L b new := by
      refine or_congr_right ?_
      by_cases hlt : b.length .data < pageStart L new
      · simp [Tail, hlt, hgrew hlt]
      · simp [Tail, hlt, hkept (Nat.le_of_not_lt hlt)]
    have hcom' : ∀ f, Committed platform f (max (b.length .data) (pageStart L new)) → ∀ w,
        Committed platform (((b.setLength .data (max (b.length .data) (pageStart L new))).setFile
          .data fun _ => f).files w)
          (((b.setLength .data (max (b.length .data) (pageStart L new))).setFile
            .data fun _ => f).length w) := by
      intro f hcf w
      cases w with
      | counts => exact hc .counts
      | data => simpa using hcf
    rw [andThen_ok]
    refine reserve_spec ?_ ?_ hf (hcom' file hcom .data) ?_ ?_
    · rw [hsplit, length_setFile, length_setLength]
      exact Nat.le_max_right _ _
    · rw [length_setFile, length_setLength]
      exact Nat.max_lt.mpr ⟨hlt, by omega⟩
    · rw [hsplit, files_setFile, htail]
      intro hok f hcf
      rw [length_setFile, length_setLength] at hcf
      rw [setFile_setFile]
      exact ⟨⟨hext, hcom' f hcf⟩, Or.inl ⟨rfl, Nat.le_max_right _ _, hok⟩⟩
    · rw [hsplit, files_setFile, htail]
      intro hno e
      exact ⟨⟨hext, hcom' file hcom⟩, Or.inr ⟨⟨e, rfl⟩, hno⟩⟩

theorem growFiles_spec (hL : L.Ok) {old new pages fuel : Nat} (hnew : new = old + pages)
    (hle : new ≤ L.blockCount) (hlen : Lengths L b.cells.countsLength b.cells.dataLength)
    (hc : ∀ w, Committed platform (b.files w) (b.length w)) (hf : v = .fair → 1 ≤ fuel) :
    (growFiles platform L old new pages fuel).wp v t (fun r b' => Follows platform L b b' ∧
      (r = .ok () ∧ countsStart + 2 * new ≤ b'.length .counts ∧ pageStart L new ≤ b'.length .data ∧
          (platform = .linux ∨ Tail L b new) ∨
        (∃ e, r = .error e) ∧ (v = .any ∨ ¬(platform = .linux ∨ Tail L b new)))) b := by
  have hcb := hL.count_bound
  obtain ⟨hcr, hcm, hcg⟩ := countsRange_ok hL hle
  have hclen : b.length .counts < growingBit := Nat.lt_of_le_of_lt hlen.counts_le hcg
  have hnb : new < 2 ^ 32 := Nat.lt_of_le_of_lt hle hcb
  rw [growFiles, countFileLength_ok hcb, wp_bind, wp_ofExcept, andThen_ok,
    dataFileLength_ok hL (Nat.le_refl _), wp_bind, wp_ofExcept, andThen_ok,
    countFileLength_ok hnb, wp_bind, wp_ofExcept, andThen_ok]
  refine wp_seq (growFile_resized (hc .counts) hclen hcr hcm (Nat.lt_of_le_of_lt hcm hcg) hf) ?_
  intro r b1 h1
  cases h1 with
  | inr h1 =>
    obtain ⟨e, file, rfl, ⟨rfl, hcom⟩, hv⟩ := h1
    refine ⟨⟨extended_refl hlen, ?_⟩, Or.inr ⟨⟨e, rfl⟩, Or.inl hv⟩⟩
    intro w
    cases w with
    | counts => simpa using hcom
    | data => exact hc .data
  | inl h1 =>
    obtain ⟨a, file, rfl, ⟨rfl, hcom⟩, -, -⟩ := h1
    rw [andThen_ok, dataFileLength_ok hL hle, wp_bind, wp_ofExcept, andThen_ok,
      dataOffset_ok hL (by omega)]
    have hlen1 := hlen.counts hle
    refine wp_mono (growTail_spec hL hnew hle hlen1 ?_ hf) ?_
    · intro w
      cases w with
      | counts => simpa using hcom
      | data => exact hc .data
    · rintro r b2 ⟨⟨⟨heq, hcl, hdl, hlen2⟩, hcom2⟩, hr⟩
      refine ⟨⟨⟨heq, Nat.le_trans (Nat.le_max_left _ _) hcl, hdl, hlen2⟩, hcom2⟩, ?_⟩
      refine hr.imp_left ?_
      rintro ⟨rfl, hdata, htail⟩
      have hnew' : countsStart + 2 * new ≤ (new * 2 + countsStart + 65535) / 65536 * 65536 := by
        omega
      exact ⟨rfl, Nat.le_trans hnew' (Nat.le_trans (Nat.le_max_right _ _) hcl), hdata, htail⟩

end Steps

section Growth
variable {requestedBytes fuel : Nat}

/-- Between two calls: no growth is under way, and macOS has mapped what is published. -/
structure Steady (platform : Platform) (L : Layout) (b : Backed) : Prop where
  settled : b.cells.highWater < growingBit
  lengths : Lengths L b.cells.countsLength b.cells.dataLength
  committed : ∀ w, Committed platform (b.files w) (b.length w)

/-- How many pages `grow` asks for. -/
def growthPages (L : Layout) (requestedBytes old : Nat) : Nat :=
  min (max ((requestedBytes + (L.blockSize - 1)) / L.blockSize) 1) (L.blockCount - old)

/-- Pages are left, the request has a page count, and the platform can reserve them. -/
structure Growable (platform : Platform) (L : Layout) (b : Backed) (requestedBytes : Nat) :
    Prop where
  left : b.cells.highWater < L.blockCount
  sized : requestedBytes + (L.blockSize - 1) < u64Bound
  tail : platform = .linux ∨
    Tail L b (b.cells.highWater + growthPages L requestedBytes b.cells.highWater)

/-- Only the high-water mark and the two published lengths may differ. -/
def SameCells (b b' : Backed) : Prop :=
  b'.cells = { b.cells with highWater := b'.cells.highWater,
                            countsLength := b'.cells.countsLength,
                            dataLength := b'.cells.dataLength }

/-- What a growth can come to. -/
inductive Outcome (platform : Platform) (L : Layout) (v : Env) (requestedBytes : Nat)
    (b b' : Backed) : Except Error Unit → Prop where
  | grown (growable : Growable platform L b requestedBytes)
      (published : b'.cells.highWater =
        b.cells.highWater + growthPages L requestedBytes b.cells.highWater) :
      Outcome platform L v requestedBytes b b' (.ok ())
  | failed (e : Error) (kept : b'.cells.highWater = b.cells.highWater)
      (cause : v = .any ∨ ¬Growable platform L b requestedBytes) :
      Outcome platform L v requestedBytes b b' (.error e)

theorem grow_spec (hL : L.Ok) (hs : Steady platform L b) (hf : v = .fair → 1 ≤ fuel) :
    (grow platform L requestedBytes fuel).wp v t (fun r b' => Steady platform L b' ∧
      SameCells b b' ∧ (Pages L b.cells → Pages L b'.cells) ∧
      Outcome platform L v requestedBytes b b' r) b := by
  cases fuel with
  | zero =>
    cases v with
    | fair => exact absurd (hf rfl) (by decide)
    | any => exact rfl
  | succ fuel =>
    have hcb := hL.count_bound
    have hu : u64Bound = 2 ^ 64 := rfl
    have hg : growingBit = 2 ^ 63 := rfl
    have hset := hs.settled
    rw [grow, wp_bind, wp_onCells, wp_loadHighWater, andThen_ok, if_neg (by omega)]
    by_cases hfull : b.cells.highWater ≥ L.blockCount
    · rw [if_pos hfull, wp_throw]
      exact ⟨hs, rfl, id, .failed _ rfl (Or.inr fun h => absurd h.left (by omega))⟩
    · rw [if_neg hfull]
      by_cases hbytes : requestedBytes + (L.blockSize - 1) < u64Bound
      · rw [checkedAdd_of_lt hbytes, okOr_some, wp_bind, wp_ofExcept, andThen_ok]
        have hn : growthPages L requestedBytes b.cells.highWater ≤
            L.blockCount - b.cells.highWater := Nat.min_le_right _ _
        have hdef : min (max ((requestedBytes + (L.blockSize - 1)) / L.blockSize) 1)
            (L.blockCount - b.cells.highWater) =
            growthPages L requestedBytes b.cells.highWater := rfl
        have hiff : Growable platform L b requestedBytes ↔ platform = .linux ∨
            Tail L b (b.cells.highWater + growthPages L requestedBytes b.cells.highWater) :=
          ⟨fun h => h.tail, fun h => ⟨by omega, hbytes, h⟩⟩
        simp only [hdef]
        generalize hpages : growthPages L requestedBytes b.cells.highWater = n at hn hiff
        rw [checkedAdd_of_lt (by omega), okOr_some, wp_bind, wp_ofExcept, andThen_ok, wp_bind,
          wp_onCells, wp_casHighWater, if_pos rfl, andThen_ok, if_pos rfl, wp_bind, wp_attempt]
        refine wp_mono (growFiles_spec hL rfl (by omega) hs.lengths hs.committed
          fun _ => Nat.le_add_left 1 fuel) ?_
        rintro r b' ⟨⟨hext, hcom⟩, hr⟩
        have hhw : b'.cells.highWater = b.cells.highWater + growingBit := by rw [hext.eq]
        have hsame : ∀ hw, SameCells b { b' with cells := { b'.cells with highWater := hw } } := by
          intro hw
          rw [SameCells, hext.eq]
        have hsteady : ∀ hw, hw < growingBit →
            Steady platform L { b' with cells := { b'.cells with highWater := hw } } := by
          intro hw hlt
          refine ⟨hlt, hext.lengths, ?_⟩
          intro w
          cases w with
          | counts => exact hcom .counts
          | data => exact hcom .data
        rw [andThen_ok, wp_bind, wp_onCells, wp_casHighWater, if_pos hhw, andThen_ok, if_pos rfl,
          wp_ofExcept]
        cases hr with
        | inl hr =>
          obtain ⟨rfl, hcl, hdl, htail⟩ := hr
          refine ⟨hsteady _ ?_, hsame _, ?_, .grown (hiff.mpr htail) ?_⟩
          · change b.cells.highWater + n < growingBit
            omega
          · intro hp
            have hpages : b.cells.pages = b.cells.highWater := Nat.mod_eq_of_lt hset
            have hle : b.cells.highWater + n ≤ L.blockCount := by omega
            rw [hext.eq]
            exact hp.grow (by omega) hle hL hcl hdl hext.lengths
          · rw [hpages]
            rfl
        | inr hr =>
          obtain ⟨⟨e, rfl⟩, hcause⟩ := hr
          refine ⟨hsteady _ hset, hsame _, ?_, .failed e rfl ?_⟩
          · intro hp
            have hpages : b.cells.pages = b.cells.highWater := Nat.mod_eq_of_lt hset
            have hge : b.cells.pages ≤ b.cells.highWater := Nat.le_of_eq hpages
            have hle : b.cells.highWater ≤ L.blockCount := by omega
            have hcl := hp.counts_mapped
            have hdl := hp.data_mapped
            rw [hpages] at hcl hdl
            rw [hext.eq]
            exact hp.grow hge hle hL (Nat.le_trans hcl hext.counts_le)
              (Nat.le_trans hdl hext.data_le) hext.lengths
          · rw [hiff]
            exact hcause
      · have hnone : checkedAdd requestedBytes (L.blockSize - 1) = none := if_neg hbytes
        rw [hnone, wp_bind]
        exact ⟨hs, rfl, id, .failed _ rfl (Or.inr fun h => hbytes h.sized)⟩

/-- An allocator as `create` or `open` hands it out: each file is mapped as long as it is. -/
structure Mapped (L : Layout) (b : Backed) : Prop where
  high_le : b.cells.highWater ≤ L.blockCount
  lengths : Lengths L b.cells.countsLength b.cells.dataLength
  files : ∀ w, b.files w = ⟨b.length w, b.length w⟩

/-- The states of an allocator between two calls, whatever the system answered during them.
The calls that do not grow leave the high-water mark and both files alone. -/
inductive Reached (platform : Platform) (L : Layout) : Backed → Prop where
  | mapped {b : Backed} (h : Mapped L b) : Reached platform L b
  | grow {t : Tid} {requestedBytes fuel : Nat} {b b' : Backed} {r : Except Error Unit}
      (h : Reached platform L b) (hr : (grow platform L requestedBytes fuel).Returns t b r b') :
      Reached platform L b'
  | other {b b' : Backed} (h : Reached platform L b) (files : b'.files = b.files)
      (high : b'.cells.highWater = b.cells.highWater) (lengths : b'.length = b.length) :
      Reached platform L b'

theorem Reached.steady (hL : L.Ok) (h : Reached platform L b) : Steady platform L b := by
  induction h with
  | mapped h =>
    have h1 := h.high_le
    have h2 := hL.count_bound
    have h3 : growingBit = 2 ^ 63 := rfl
    refine ⟨by omega, h.lengths, ?_⟩
    intro w hmac
    rw [h.files w]
  | grow _ hr ih =>
    exact (post_of_returns (grow_spec hL ih fun hv => by cases hv) hr).1
  | @other b b' _ hfiles hhigh hlengths ih =>
    have hcounts : b'.cells.countsLength = b.cells.countsLength := congrFun hlengths .counts
    have hdata : b'.cells.dataLength = b.cells.dataLength := congrFun hlengths .data
    refine ⟨?_, ?_, ?_⟩
    · rw [hhigh]
      exact ih.settled
    · rw [hcounts, hdata]
      exact ih.lengths
    · intro w
      rw [hfiles, hlengths]
      exact ih.committed w

/-- A growth that fails, wherever it fails, leaves the high-water mark, the page counts and the
live allocations alone. A growth in which the system refuses nothing publishes its pages exactly
when there are pages left for it and, on macOS, its pages end where the data file ends once it
has been grown. -/
theorem growth_publishes_iff (hL : L.Ok) (h : Reached platform L b) (t : Tid)
    (requestedBytes fuel : Nat) :
    (∀ e b', (grow platform L requestedBytes fuel).Returns t b (.error e) b' →
      b'.cells.highWater = b.cells.highWater ∧ b'.cells.counts = b.cells.counts ∧
        b'.cells.live = b.cells.live) ∧
    ((∃ b', (grow platform L requestedBytes (fuel + 1)).run t b = some (.ok (), b') ∧
        b'.cells.highWater =
          b.cells.highWater + growthPages L requestedBytes b.cells.highWater) ↔
      Growable platform L b requestedBytes) := by
  have hs := h.steady hL
  refine ⟨?_, ?_⟩
  · intro e b' hr
    obtain ⟨-, hsame, -, hout⟩ := post_of_returns (grow_spec hL hs fun hv => by cases hv) hr
    cases hout with
    | failed _ hkept _ =>
      rw [SameCells] at hsame
      refine ⟨hkept, ?_, ?_⟩
      · rw [hsame]
      · rw [hsame]
  · obtain ⟨r, b', hrun, -, -, -, hout⟩ := run_of_wp
      (p := grow platform L requestedBytes (fuel + 1)) (t := t)
      (grow_spec hL hs fun _ => Nat.le_add_left 1 fuel)
    rw [hrun]
    cases hout with
    | grown hgrow hpub => exact ⟨fun _ => hgrow, fun _ => ⟨b', rfl, hpub⟩⟩
    | failed e _ hcause =>
      refine ⟨?_, ?_⟩
      · rintro ⟨b'', heq, -⟩
        cases heq
      · intro hgrow
        cases hcause with
        | inl hv => cases hv
        | inr hno => exact absurd hgrow hno

/-- An allocator just created over two new files. -/
def created : Backed where
  cells := Cells.created
  files
    | .counts => ⟨countsStart, countsStart⟩
    | .data => ⟨dataStart, dataStart⟩

theorem mapped_created (L : Layout) : Mapped L created where
  high_le := Nat.zero_le _
  lengths := lengths_created L
  files
    | .counts => rfl
    | .data => rfl

/-- On macOS the reservation of three pages fails after both files have grown for them. One page
can then no longer be had, as the data file does not end behind it, but three pages can. -/
theorem poisoned_runs : ∃ b', (grow .macos ⟨262144, 65536, 4⟩ 196608 1).Returns 0 created
      (.error (.capacityExhausted "file reservation")) b' ∧ b'.cells.highWater = 0 ∧
    (∃ b'', (grow .macos ⟨262144, 65536, 4⟩ 65536 1).run 0 b' =
      some (.error (.corrupt "macOS can only reserve the newly grown file tail"), b'')) ∧
    ∃ b'', (grow .macos ⟨262144, 65536, 4⟩ 196608 1).run 0 b' = some (.ok (), b'') ∧
      b''.cells.highWater = 3 := by
  have hruns : ((grow .macos ⟨262144, 65536, 4⟩ 196608 1).runWith 0
      (List.replicate 8 false ++ [true]) created).map (fun x =>
        ((x.1, ((grow .macos ⟨262144, 65536, 4⟩ 65536 1).run 0 x.2).map (·.1),
          ((grow .macos ⟨262144, 65536, 4⟩ 196608 1).run 0 x.2).map (·.1)), x.2.cells.highWater,
          ((grow .macos ⟨262144, 65536, 4⟩ 196608 1).run 0 x.2).map fun y => y.2.cells.highWater)) =
      some ((.error (.capacityExhausted "file reservation"),
        some (.error (.corrupt "macOS can only reserve the newly grown file tail")), some (.ok ())),
        0, some 3) := by
    decide +kernel
  obtain ⟨⟨r, b'⟩, hfirst, heq⟩ := Option.map_eq_some_iff.mp hruns
  simp only [Prod.mk.injEq] at heq
  obtain ⟨⟨rfl, hone, hthree⟩, hhigh, hpublished⟩ := heq
  obtain ⟨⟨r₁, b₁⟩, hone, rfl⟩ := Option.map_eq_some_iff.mp hone
  obtain ⟨⟨r₃, b₃⟩, hthree, rfl⟩ := Option.map_eq_some_iff.mp hthree
  rw [hthree] at hpublished
  have hpublished : b₃.cells.highWater = 3 := Option.some.inj hpublished
  exact ⟨b', returns_of_runWith hfirst, hhigh, ⟨b₁, hone⟩, b₃, hthree, hpublished⟩

theorem growth_poisoned : ∃ b', (grow .macos ⟨262144, 65536, 4⟩ 196608 1).Returns 0 created
      (.error (.capacityExhausted "file reservation")) b' ∧
    ((grow .macos ⟨262144, 65536, 4⟩ 65536 1).run 0 b').map (·.1) =
      some (.error (.corrupt "macOS can only reserve the newly grown file tail")) := by
  obtain ⟨b', hfirst, -, ⟨b'', hsecond⟩, -⟩ := poisoned_runs
  exact ⟨b', hfirst, congrArg (Option.map Prod.fst) hsecond⟩

/-- In the state that the failed reservation leaves. -/
theorem growth_publishes_iff_poisoned : ∃ b', Reached .macos ⟨262144, 65536, 4⟩ b' ∧
    b'.cells.highWater = 0 ∧ Growable .macos ⟨262144, 65536, 4⟩ b' 196608 ∧
    ¬Growable .macos ⟨262144, 65536, 4⟩ b' 65536 ∧
    ∃ e b'', (grow .macos ⟨262144, 65536, 4⟩ 65536 1).run 0 b' = some (.error e, b'') ∧
      b''.cells.highWater = 0 ∧ b''.cells.counts = b'.cells.counts := by
  have hL : Layout.Ok ⟨262144, 65536, 4⟩ :=
    Layout.ok_of_validate (show validateLayout 262144 65536 = .ok () by decide)
  obtain ⟨b', hfirst, hhigh, ⟨b₁, hone⟩, b₃, hthree, hpublished⟩ := poisoned_runs
  have hreached : Reached .macos ⟨262144, 65536, 4⟩ b' := .grow (.mapped (mapped_created _)) hfirst
  have hpages : growthPages ⟨262144, 65536, 4⟩ 196608 0 = 3 := by decide
  obtain ⟨hkept, hrefused⟩ := growth_publishes_iff hL hreached 0 65536 1
  obtain ⟨hsame, hcounts, -⟩ := hkept _ b₁ (returns_of_run hone)
  refine ⟨b', hreached, hhigh, ?_, ?_, _, b₁, hone, hsame.trans hhigh, hcounts⟩
  · apply (growth_publishes_iff hL hreached 0 196608 0).2.mp
    refine ⟨b₃, hthree, ?_⟩
    rw [hpublished, hhigh, hpages]
  · intro hgrow
    obtain ⟨b₂, hrun, -⟩ := (growth_publishes_iff hL hreached 0 65536 0).2.mpr hgrow
    cases hone.symm.trans hrun

end Growth

end Backed

end FlorestaDb.Allocator
