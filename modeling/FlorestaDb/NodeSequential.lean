import FlorestaDb.AllocatorCalls
import FlorestaDb.NodeFormat

/-! One specification for each access of a single thread to a node or a blob whose
allocation is live. -/
namespace FlorestaDb
open Program Program.Prog Allocator

variable {cfg : Config} {v : Env} {t : Tid} {s : Store} {fuel : Nat}

section Focus
variable {α : Type}

theorem wp_onBody (p : AllocM α) (Q : Except Error α → Store → Prop) :
    (onBody p).wp v t Q s ↔ p.wp v t (fun r c => Q r { s with body := c }) s.body :=
  wp_focus Store.body (fun c s => { s with body := c }) (fun _ _ => rfl) (fun _ _ _ => rfl)
    (fun _ => rfl) p Q s

theorem wp_onBlobs (p : AllocM α) (Q : Except Error α → Store → Prop) :
    (onBlobs p).wp v t Q s ↔ p.wp v t (fun r c => Q r { s with blobs := c }) s.blobs :=
  wp_focus Store.blobs (fun c s => { s with blobs := c }) (fun _ _ => rfl) (fun _ _ _ => rfl)
    (fun _ => rfl) p Q s

/-- One step that cannot block. -/
theorem wp_step {S β : Type} (f : Tid → S → Except Error β × S) {s : S}
    {Q : Except Error β → S → Prop} :
    (atomic fun t s => some (f t s)).wp v t Q s ↔ Q (f t s).1 (f t s).2 := by
  rw [wp_atomic]
  constructor
  · rintro ⟨r, s', h, hQ⟩
    obtain ⟨rfl, rfl⟩ := Prod.mk.inj (Option.some.inj h)
    exact hQ
  · intro hQ
    exact ⟨_, _, rfl, hQ⟩

end Focus

/-- What the code knows about the configuration of an open database. -/
structure Config.Ready (cfg : Config) : Prop where
  valid : cfg.Valid
  blob : cfg.mode = .map → cfg.blobLayout.Ok

/-- The packed node pointer bounds the body, so its page count is representable. -/
theorem Config.Valid.bodyLayout_accepted (h : cfg.Valid) :
    validateLayout cfg.bodyCapacity cfg.blockSize = .ok () := by
  have hpos : 0 < cfg.blockSize := Nat.lt_of_lt_of_le (by decide) h.block_min
  have h1 := h.body_pos
  have h2 := h.block_min
  have h3 := h.block_bound
  have h4 := h.body_aligned
  have h5 := h.body_bound
  have hmask : nodePointerMask.toNat - dataStart = 2 ^ 48 - 1 - 65536 := by decide
  have hpage : formatPageSize = 65536 := rfl
  have hdiv : 0 < cfg.bodyCapacity / cfg.blockSize :=
    Nat.div_pos (Nat.le_of_dvd h1 (Nat.dvd_of_mod_eq_zero h4)) hpos
  have hle : cfg.bodyCapacity / cfg.blockSize ≤ (2 ^ 48 - 1 - 65536) / 65536 :=
    Nat.div_le_div (by omega) (by omega) (by decide)
  rw [validateLayout, h.block_pow, if_neg (by simp; omega), if_neg (by omega), if_neg (by omega)]

theorem Config.Valid.bodyLayout_ok (h : cfg.Valid) : cfg.bodyLayout.Ok :=
  Layout.ok_of_validate h.bodyLayout_accepted

/-- The allocation of the node at `o`. -/
def nodeAlloc (cfg : Config) (o : Nat) : Allocation :=
  ⟨o, nodeSize, (o - dataStart) / cfg.blockSize⟩

@[simp] theorem nodeAlloc_offset (cfg : Config) (o : Nat) : (nodeAlloc cfg o).offset = o := rfl

/-- The allocation of a blob of `length` bytes at `o`. -/
def blobAlloc (cfg : Config) (o length : Nat) : Allocation :=
  ⟨o, blobHeaderSize + length, (o - dataStart) / cfg.blockSize⟩

section Ranges
variable {L : Layout} {c : Cells} {x : Allocation}

/-- What the two range checks accept. -/
theorem dataRange_ok {offset length : Nat} (h : dataRange L c offset length = .ok ()) :
    dataStart ≤ offset ∧ offset + length ≤ dataStart + L.capacity ∧
      offset + length ≤ c.dataLength ∧ offset + length < u64Bound := by
  obtain ⟨_, hdata, hmapped⟩ := bind_ok h
  obtain ⟨relative, hsub, hdata⟩ := bind_ok hdata
  obtain ⟨last, hadd, hdata⟩ := bind_ok hdata
  obtain ⟨last', hadd', hmapped⟩ := bind_ok hmapped
  obtain ⟨hlast, -⟩ := guard_ok.mp hdata
  obtain ⟨hlast', -⟩ := guard_ok.mp hmapped
  obtain ⟨-, rfl⟩ := checkedAdd_some (okOr_ok hadd)
  obtain ⟨hbound, rfl⟩ := checkedAdd_some (okOr_ok hadd')
  have hsub := okOr_ok hsub
  rw [checkedSub] at hsub
  split at hsub
  · obtain rfl := Option.some.inj hsub
    omega
  · cases hsub

theorem dataRange_of {offset length : Nat} (hstart : dataStart ≤ offset)
    (hcapacity : offset + length ≤ dataStart + L.capacity)
    (hmapped : offset + length ≤ c.dataLength) (hbound : offset + length < u64Bound) :
    dataRange L c offset length = .ok () := by
  rw [dataRange, validateDataRange, checkedSub_of_le hstart, okOr_some, ok_bind,
    checkedAdd_of_lt (by omega), okOr_some, ok_bind, if_neg (by omega), ok_bind, checkedRange,
    checkedAdd_of_lt hbound, okOr_some, ok_bind, if_neg (by omega)]

/-- An address outside the data is reported as corruption. -/
theorem dataRange_error {offset length : Nat} {e : Error}
    (h : dataRange L c offset length = .error e) : ∃ message, e = .corrupt message := by
  rw [dataRange, validateDataRange, checkedRange] at h
  cases hsub : checkedSub offset dataStart with
  | none =>
    rw [hsub] at h
    cases h
    exact ⟨_, rfl⟩
  | some relative =>
    rw [hsub, okOr_some, ok_bind] at h
    cases hadd : checkedAdd relative length with
    | none =>
      rw [hadd] at h
      cases h
      exact ⟨_, rfl⟩
    | some last =>
      rw [hadd, okOr_some, ok_bind] at h
      split at h
      · cases h
        exact ⟨_, rfl⟩
      · rw [ok_bind] at h
        cases hadd' : checkedAdd offset length with
        | none =>
          rw [hadd'] at h
          cases h
          exact ⟨_, rfl⟩
        | some last' =>
          rw [hadd', okOr_some, ok_bind] at h
          split at h
          · cases h
            exact ⟨_, rfl⟩
          · cases h

/-- Every part of a published page can be read and written. -/
theorem fits_range (hL : L.Ok) (hp : Pages L c) (hfit : x.Fits L) (hb : x.block < c.pages)
    {offset length : Nat} (h1 : x.offset ≤ offset)
    (h2 : offset + length ≤ x.offset + x.length) :
    dataRange L c offset length = .ok () ∧ checkedRange c.dataLength offset length = .ok () := by
  have h3 := hfit.start_le
  have h4 := hfit.end_le
  have h5 := pageStart_mono L (show x.block + 1 ≤ c.pages from hb)
  have h6 := hp.data_mapped
  have h7 := pageStart_mono L hp.pages_le
  have h8 := hL.page_bound (Nat.le_refl L.blockCount)
  have h9 := hL.capacity_eq
  have hu : u64Bound = 2 ^ 64 := rfl
  have h10 : dataStart ≤ pageStart L x.block := Nat.le_add_right _ _
  have h11 : pageStart L L.blockCount = dataStart + L.capacity := by rw [pageStart, h9]
  rw [← h9] at h8
  have hr : checkedRange c.dataLength offset length = .ok () := by
    rw [checkedRange, checkedAdd_of_lt (by omega), okOr_some, ok_bind, if_neg (by omega)]
  refine ⟨?_, hr⟩
  rw [dataRange, validateDataRange, checkedSub_of_le (by omega), okOr_some, ok_bind,
    checkedAdd_of_lt (by omega), okOr_some, ok_bind, if_neg (by omega), ok_bind, hr]

theorem live_range (hL : L.Ok) (hp : Pages L c) (hx : x ∈ c.live) {offset length : Nat}
    (h1 : x.offset ≤ offset) (h2 : offset + length ≤ x.offset + x.length) :
    dataRange L c offset length = .ok () ∧ checkedRange c.dataLength offset length = .ok () :=
  fits_range hL hp (hp.fits x hx).1 (hp.fits x hx).2 h1 h2

/-- A fitting allocation is the one its offset and length determine. -/
theorem block_of_fits (hL : L.Ok) (hx : x.Fits L) :
    x.block = (x.offset - dataStart) / L.blockSize := by
  have h1 := hx.length_pos
  have h2 := hx.start_le
  have h3 := hx.end_le
  have hmul : (x.block + 1) * L.blockSize = x.block * L.blockSize + L.blockSize :=
    Nat.succ_mul _ _
  simp only [pageStart] at h2 h3
  symm
  rw [Nat.div_eq_iff hL.block_pos]
  omega

end Ranges

/-- The node at `o` has a live, aligned allocation. -/
structure LiveNode (cfg : Config) (s : Store) (o : Nat) : Prop where
  live : nodeAlloc cfg o ∈ s.body.live
  aligned : o % nodeAlignment = 0

section NodeAccess
variable {o : Nat}

theorem LiveNode.bounds (hv : cfg.Valid) (hq : Quiet cfg.bodyLayout s.body)
    (hn : LiveNode cfg s o) :
    dataStart ≤ o ∧ o + nodeSize ≤ dataStart + cfg.bodyCapacity ∧ o < nodePointerMask.toNat := by
  obtain ⟨hfit, hb⟩ := hq.pages.fits _ hn.live
  have h1 := hfit.start_le
  have h2 := hfit.end_le
  have h3 := pageStart_mono cfg.bodyLayout
    (Nat.le_trans (show (nodeAlloc cfg o).block + 1 ≤ s.body.pages from hb) hq.pages.pages_le)
  have h4 := hv.bodyLayout_ok.capacity_eq
  have h5 : pageStart cfg.bodyLayout cfg.bodyLayout.blockCount = dataStart + cfg.bodyCapacity := by
    rw [pageStart, ← h4]
    rfl
  have h6 := hv.body_bound
  have h7 : dataStart ≤ pageStart cfg.bodyLayout (nodeAlloc cfg o).block := Nat.le_add_right _ _
  have h8 : (nodeAlloc cfg o).offset = o := rfl
  have h9 : (nodeAlloc cfg o).length = nodeSize := rfl
  have h10 : nodeSize = 32 := rfl
  have h11 : dataStart = 65536 := rfl
  have h12 : nodePointerMask.toNat = 2 ^ 48 - 1 := rfl
  rw [h8] at h1
  rw [h8, h9] at h2
  omega

theorem LiveNode.pos (hv : cfg.Valid) (hq : Quiet cfg.bodyLayout s.body)
    (hn : LiveNode cfg s o) : o ≠ 0 := by
  have h1 := (hn.bounds hv hq).1
  have h2 : dataStart = 65536 := rfl
  omega

theorem LiveNode.range (hv : cfg.Valid) (hq : Quiet cfg.bodyLayout s.body)
    (hn : LiveNode cfg s o) {offset length : Nat} (h1 : o ≤ offset)
    (h2 : offset + length ≤ o + nodeSize) :
    dataRange cfg.bodyLayout s.body offset length = .ok () :=
  (live_range hv.bodyLayout_ok hq.pages hn.live h1 h2).1

/-- Undisturbed, the copy word by word reads the node that the bytes of the slot are. -/
theorem readNode_bytes (hv : cfg.Valid) (hq : Quiet cfg.bodyLayout s.body)
    (hn : LiveNode cfg s o) {Q : Except Error Node → Store → Prop} :
    (readNode cfg o).wp v t Q s ↔ Q (decodeNode o (s.slots o).bytes) s := by
  have hr := hn.range hv hq (Nat.le_refl o) (Nat.le_refl (o + nodeSize))
  rw [readNode, if_neg (hn.pos hv hq), if_neg (not_not.mpr hn.aligned), wp_bind, wp_step, hr,
    andThen_ok, wp_bind, wp_step, andThen_ok, wp_bind, wp_step, andThen_ok, wp_bind, wp_step,
    andThen_ok, wp_bind, wp_step, andThen_ok, decodeNode_bytes]
  simp only [Key.ofHalves_self]
  by_cases hsum : (s.slots o).checksum = nodeChecksum (s.slots o).key (s.slots o).value
  · have hsum' : ¬(s.slots o).pointer >>> nodeChecksumShift ≠
        nodeChecksum (s.slots o).key (s.slots o).value := not_not.mpr hsum
    rw [if_neg hsum', if_pos hsum, wp_pure]
    rfl
  · have hsum' : (s.slots o).pointer >>> nodeChecksumShift ≠
        nodeChecksum (s.slots o).key (s.slots o).value := hsum
    rw [if_pos hsum', if_neg hsum, wp_throw]

theorem readNode_spec (hv : cfg.Valid) (hq : Quiet cfg.bodyLayout s.body)
    (hn : LiveNode cfg s o)
    (hsum : (s.slots o).checksum = nodeChecksum (s.slots o).key (s.slots o).value)
    {Q : Except Error Node → Store → Prop}
    (hQ : Q (.ok ⟨o, (s.slots o).next, (s.slots o).value, (s.slots o).key⟩) s) :
    (readNode cfg o).wp v t Q s := by
  rw [readNode_bytes hv hq hn, decodeNode_bytes, if_pos hsum]
  exact hQ

theorem readPointerWord_spec (hv : cfg.Valid) (hq : Quiet cfg.bodyLayout s.body)
    (hn : LiveNode cfg s o) {Q : Except Error UInt64 → Store → Prop} :
    (readPointerWord cfg o).wp v t Q s ↔ Q (.ok (s.slots o).pointer) s := by
  have hb := hn.bounds hv hq
  have h1 : nodePointerMask.toNat = 2 ^ 48 - 1 := rfl
  have h2 : nodePointerOffset = 24 := rfl
  have h3 : nodeSize = 32 := rfl
  have h4 : u64Bound = 2 ^ 64 := rfl
  have hr := hn.range hv hq (show o ≤ o + nodePointerOffset by omega)
    (show o + nodePointerOffset + 8 ≤ o + nodeSize by omega)
  rw [readPointerWord, checkedAdd_of_lt (by omega), okOr_some, wp_bind, wp_ofExcept, andThen_ok,
    wp_step, hr]
  rfl

theorem readNext_spec (hv : cfg.Valid) (hq : Quiet cfg.bodyLayout s.body)
    (hn : LiveNode cfg s o) {Q : Except Error Nat → Store → Prop} :
    (readNext cfg o).wp v t Q s ↔ Q (.ok (s.slots o).next) s := by
  rw [readNext, wp_bind, readPointerWord_spec hv hq hn, andThen_ok, wp_pure]
  rfl

theorem pointerAtomic_spec (hv : cfg.Valid) (hq : Quiet cfg.bodyLayout s.body)
    (hn : LiveNode cfg s o) {Q : Except Error Unit → Store → Prop} :
    (pointerAtomic cfg o).wp v t Q s ↔ Q (.ok ()) s := by
  have h1 := hn.aligned
  have h2 : nodePointerOffset = 24 := rfl
  have h3 : nodeSize = 32 := rfl
  have h4 : nodeAlignment = 32 := rfl
  have hr := hn.range hv hq (show o ≤ o + nodePointerOffset by omega)
    (show o + nodePointerOffset + 8 ≤ o + nodeSize by omega)
  have hal : ¬(o + nodePointerOffset) % 8 ≠ 0 := by
    rw [h4] at h1
    omega
  rw [pointerAtomic, wp_step]
  simp only [hr, ok_bind, if_neg hal]

@[simp] theorem setSlot_slots_self (s : Store) (o : Nat) (f : Slot → Slot) :
    (s.setSlot o f).slots o = f (s.slots o) := by
  simp [Store.setSlot]

@[simp] theorem setSlot_bytes (s : Store) (o : Nat) (f : Slot → Slot) :
    (s.setSlot o f).bytes = s.bytes := rfl

theorem setSlot_slots_ne (s : Store) {o o' : Nat} (f : Slot → Slot) (h : o' ≠ o) :
    (s.setSlot o f).slots o' = s.slots o' := by
  simp [Store.setSlot, h]

/-- Of a node only the next field changes. -/
theorem setNext_said (s : Store) (o next z : Nat) :
    ((s.setSlot o (·.withNext next)).slots z).key = (s.slots z).key ∧
      ((s.setSlot o (·.withNext next)).slots z).value = (s.slots z).value := by
  by_cases h : z = o
  · subst h
    rw [setSlot_slots_self]
    exact ⟨rfl, rfl⟩
  · rw [setSlot_slots_ne s _ h]
    exact ⟨rfl, rfl⟩

theorem setNext_checksum (s : Store) (o z : Nat) {next : Nat} (hn : next ≤ nodePointerMask.toNat) :
    ((s.setSlot o (·.withNext next)).slots z).checksum = (s.slots z).checksum := by
  by_cases h : z = o
  · subst h
    rw [setSlot_slots_self]
    exact Slot.withNext_checksum _ hn
  · rw [setSlot_slots_ne s _ h]

@[simp] theorem setSlot_setSlot (s : Store) (o : Nat) (f g : Slot → Slot) :
    (s.setSlot o f).setSlot o g = s.setSlot o (g ∘ f) := by
  simp [Store.setSlot]

theorem tombstoneNode_spec (hv : cfg.Valid) (hq : Quiet cfg.bodyLayout s.body)
    (hn : LiveNode cfg s o) {Q : Except Error Unit → Store → Prop} :
    (tombstoneNode cfg o).wp v t Q s ↔
      Q (.ok ()) (s.setSlot o fun slot => { slot with pointer := 0 }) := by
  rw [tombstoneNode, wp_bind, pointerAtomic_spec hv hq hn, andThen_ok, wp_step]

theorem setPrivateNext_spec (hv : cfg.Valid) (hq : Quiet cfg.bodyLayout s.body)
    (hn : LiveNode cfg s o) {old new : Nat} (hold : (s.slots o).next = old)
    (hnew : new ≤ nodePointerMask.toNat) {Q : Except Error Unit → Store → Prop} :
    (setPrivateNext cfg o old new).wp v t Q s ↔
      Q (.ok ()) (s.setSlot o (·.withNext new)) := by
  have hle : old ≤ nodePointerMask.toNat := by
    rw [← hold, Slot.next, UInt64.toNat_and]
    exact Nat.and_le_right
  have hold' : ¬((s.slots o).pointer &&& nodePointerMask).toNat ≠ old := not_not.mpr hold
  rw [setPrivateNext, if_neg (by omega), wp_bind, pointerAtomic_spec hv hq hn, andThen_ok, wp_bind,
    readPointerWord_spec hv hq hn, andThen_ok, if_neg hold', wp_bind, casPointer,
    wp_atomic]
  simp only [if_pos, Option.some.injEq, Prod.mk.injEq, exists_eq_left', and_assoc, exists_and_left,
    andThen_ok]
  rw [wp_pure]
  rfl

theorem compareExchangeNext_spec (hv : cfg.Valid) (hq : Quiet cfg.bodyLayout s.body)
    (hn : LiveNode cfg s o) {expected new : Nat} (hold : (s.slots o).next = expected)
    (hnew : new ≤ nodePointerMask.toNat) {Q : Except Error Bool → Store → Prop} :
    (compareExchangeNext cfg o expected new).wp v t Q s ↔
      Q (.ok true) (s.setSlot o (·.withNext new)) := by
  have hle : expected ≤ nodePointerMask.toNat := by
    rw [← hold, Slot.next, UInt64.toNat_and]
    exact Nat.and_le_right
  have hold' : ¬((s.slots o).pointer &&& nodePointerMask).toNat ≠ expected := not_not.mpr hold
  rw [compareExchangeNext, if_neg (by omega), wp_bind, pointerAtomic_spec hv hq hn, andThen_ok,
    wp_bind, readPointerWord_spec hv hq hn, andThen_ok, if_neg hold', casPointer,
    wp_atomic]
  simp only [if_pos, Option.some.injEq, Prod.mk.injEq, exists_eq_left', and_assoc,
    exists_and_left]
  rfl

theorem writeNode_spec (hv : cfg.Valid) (hq : Quiet cfg.bodyLayout s.body)
    (hn : LiveNode cfg s o) {key : Key} {value : UInt64} {Q : Except Error Unit → Store → Prop} :
    (writeNode (nodeAlloc cfg o) key value).wp v t Q s ↔
      Q (.ok ()) (s.setSlot o fun _ => ⟨key, value, freshPointer key value⟩) := by
  have hr := (live_range hv.bodyLayout_ok hq.pages hn.live (Nat.le_refl o)
    (Nat.le_refl (o + nodeSize))).2
  have hb := hn.bounds hv hq
  have h1 : nodePointerMask.toNat = 2 ^ 48 - 1 := rfl
  have h2 : u64Bound = 2 ^ 64 := rfl
  have hw : writeRange s.body (nodeAlloc cfg o) 0 nodeSize = .ok () := by
    rw [writeRange, if_neg (by simp [nodeAlloc]), checkedAdd_of_lt (by simp only [nodeAlloc]; omega),
      okOr_some]
    exact hr
  rw [writeNode, wp_bind, wp_step, hw, andThen_ok, wp_bind, wp_step, andThen_ok, wp_bind, wp_step,
    andThen_ok, wp_bind, wp_step, andThen_ok, wp_step]
  simp only [nodeAlloc, setSlot_setSlot]
  refine iff_of_eq (congrArg _ (congrArg _ ?_))
  funext slot
  simp

theorem writeNode_bytes (hv : cfg.Valid) (hq : Quiet cfg.bodyLayout s.body)
    (hn : LiveNode cfg s o) (key : Key) (value : UInt64) :
    (writeNode (nodeAlloc cfg o) key value).wp v t (fun res s' => res = .ok () ∧
      serializeNode key.toList value = .ok (s'.slots o).bytes) s := by
  rw [writeNode_spec hv hq hn, serializeNode_bytes, setSlot_slots_self]
  exact ⟨rfl, rfl⟩

end NodeAccess

end FlorestaDb
