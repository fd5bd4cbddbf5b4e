import FlorestaDb.NodeSequential
import Mathlib.Data.Set.Insert
import Mathlib.Order.BooleanAlgebra.Set

/-! Ownership in a store: which live allocations hold a node, which hold the blob of a
node, and which are held by the call in progress. Each change the code makes is one
transition below. -/
namespace FlorestaDb
open Program Program.Prog Allocator

/-- The blob of the node at `o`, its length taken from the header. -/
def blobOf (cfg : Config) (s : Store) (o : Nat) : Allocation :=
  blobAlloc cfg (blobOffset (s.slots o).value) (blobLength s.bytes (blobOffset (s.slots o).value))

/-- The bytes a value word stands for; a set stores none. -/
def valueAt (cfg : Config) (s : Store) (value : UInt64) : List UInt8 :=
  if cfg.mode = .set then []
  else if isBlob value then
    slice s.bytes (blobOffset value + blobHeaderSize) (blobLength s.bytes (blobOffset value))
  else inlineValueBytes value

/-- What the node at `o` says: its key and the bytes of its value. -/
def entryAt (cfg : Config) (s : Store) (o : Nat) : Key × List UInt8 :=
  ((s.slots o).key, valueAt cfg s (s.slots o).value)

/-- A readable node: its checksum holds, and so does the header of its blob. -/
structure EntryOk (cfg : Config) (s : Store) (o : Nat) : Prop where
  checksum : (s.slots o).checksum = nodeChecksum (s.slots o).key (s.slots o).value
  set_value : cfg.mode = .set → (s.slots o).value = 0
  blob : isBlob (s.slots o).value = true →
    ∃ bytes, BlobAt s.bytes (blobOffset (s.slots o).value) bytes

/- The live allocations of a store are the nodes `N`, their blobs, and the bare
   allocations the running call still has to use or give back. A slot that belongs to
   no allocation has a zero checksum field; what a bare slot holds is up to the call. -/
structure Heap (cfg : Config) (s : Store) (N : Set Nat) (bare bareBlobs : Set Allocation) :
    Prop where
  body : Quiet cfg.bodyLayout s.body
  blobs : Quiet cfg.blobLayout s.blobs
  shape : ∀ x ∈ s.body.live, x = nodeAlloc cfg x.offset ∧ x.offset % nodeAlignment = 0
  live_iff : ∀ x, x ∈ s.body.live ↔ (∃ o ∈ N, x = nodeAlloc cfg o) ∨ x ∈ bare
  bare_free : ∀ x ∈ bare, x.offset ∉ N
  entry : ∀ o ∈ N, EntryOk cfg s o
  blob_iff : ∀ x, x ∈ s.blobs.live ↔
    (∃ o ∈ N, isBlob (s.slots o).value = true ∧ x = blobOf cfg s o) ∨ x ∈ bareBlobs
  blob_free : ∀ x ∈ bareBlobs, ∀ o ∈ N, isBlob (s.slots o).value = true → x ≠ blobOf cfg s o
  blob_inj : ∀ o ∈ N, ∀ o' ∈ N, isBlob (s.slots o).value = true →
    isBlob (s.slots o').value = true →
    blobOffset (s.slots o).value = blobOffset (s.slots o').value → o = o'
  zero : ∀ o, o ∉ N → nodeAlloc cfg o ∉ bare → (s.slots o).checksum = 0

/-- The nodes `N` are untouched: their slots and what they say. -/
def Keeps (cfg : Config) (N : Set Nat) (s s' : Store) : Prop :=
  ∀ o ∈ N, s'.slots o = s.slots o ∧ entryAt cfg s' o = entryAt cfg s o

theorem Keeps.refl (cfg : Config) (N : Set Nat) (s : Store) : Keeps cfg N s s :=
  fun _ _ => ⟨rfl, rfl⟩

theorem Keeps.trans {cfg : Config} {N : Set Nat} {s s' s'' : Store} (h : Keeps cfg N s s')
    (h' : Keeps cfg N s' s'') : Keeps cfg N s s'' := fun o ho =>
  ⟨(h' o ho).1.trans (h o ho).1, (h' o ho).2.trans (h o ho).2⟩

theorem Keeps.mono {cfg : Config} {N M : Set Nat} {s s' : Store} (h : Keeps cfg N s s')
    (hM : M ⊆ N) : Keeps cfg M s s' := fun o ho => h o (hM ho)

variable {cfg : Config} {s : Store} {N : Set Nat} {bare bareBlobs : Set Allocation} {o : Nat}
  {x : Allocation}

theorem heap_created (cfg : Config) : Heap cfg Store.created ∅ ∅ ∅ where
  body := quiet_created _
  blobs := quiet_created _
  shape := by simp [Store.created, Cells.created]
  live_iff := by simp [Store.created, Cells.created]
  bare_free := by simp
  entry := by simp
  blob_iff := by simp [Store.created, Cells.created]
  blob_free := by simp
  blob_inj := by simp
  zero := by
    intro o _ _
    apply UInt64.toNat_inj.mp
    rw [Slot.checksum_toNat]
    exact Nat.zero_div _

section Facts

theorem Heap.liveNode (h : Heap cfg s N bare bareBlobs) (ho : o ∈ N) : LiveNode cfg s o := by
  have hlive : nodeAlloc cfg o ∈ s.body.live := (h.live_iff _).mpr (Or.inl ⟨o, ho, rfl⟩)
  exact ⟨hlive, (h.shape _ hlive).2⟩

theorem Heap.liveBare (h : Heap cfg s N bare bareBlobs) (hx : x ∈ bare) :
    x = nodeAlloc cfg x.offset ∧ LiveNode cfg s x.offset := by
  have hlive : x ∈ s.body.live := (h.live_iff _).mpr (Or.inr hx)
  obtain ⟨heq, hal⟩ := h.shape _ hlive
  exact ⟨heq, by rwa [heq] at hlive, hal⟩

theorem Heap.blob_live (h : Heap cfg s N bare bareBlobs) (ho : o ∈ N)
    (hb : isBlob (s.slots o).value = true) : blobOf cfg s o ∈ s.blobs.live :=
  (h.blob_iff _).mpr (Or.inl ⟨o, ho, hb, rfl⟩)

theorem valueAt_blob {value : UInt64} {bytes : List UInt8} (hm : cfg.mode = .map)
    (hb : isBlob value = true) (h : BlobAt s.bytes (blobOffset value) bytes) :
    valueAt cfg s value = bytes := by
  have hne : ¬cfg.mode = .set := by
    rw [hm]
    decide
  rw [valueAt, if_neg hne, if_pos hb, h.blobLength_eq, h.content]

/-- Nodes whose slots and blobs are the same say the same. -/
theorem entryAt_congr {s' : Store} (hok : EntryOk cfg s o) (hslot : s'.slots o = s.slots o)
    (hbytes : isBlob (s.slots o).value = true →
      ∀ i, (blobOf cfg s o).offset ≤ i → i < (blobOf cfg s o).offset + (blobOf cfg s o).length →
        s'.bytes i = s.bytes i) :
    EntryOk cfg s' o ∧ entryAt cfg s' o = entryAt cfg s o ∧
      (isBlob (s.slots o).value = true → blobOf cfg s' o = blobOf cfg s o) := by
  by_cases hb : isBlob (s.slots o).value = true
  · obtain ⟨bytes, hat⟩ := hok.blob hb
    have hat' : BlobAt s'.bytes (blobOffset (s.slots o).value) bytes := by
      refine hat.congr fun i h1 h2 => hbytes hb i h1 ?_
      simpa [blobOf, blobAlloc, hat.blobLength_eq] using h2
    refine ⟨⟨?_, ?_, ?_⟩, ?_, fun _ => ?_⟩
    · rw [hslot]
      exact hok.checksum
    · rw [hslot]
      exact hok.set_value
    · rw [hslot]
      exact fun _ => ⟨bytes, hat'⟩
    · simp only [entryAt, hslot, valueAt, hat.blobLength_eq, hat'.blobLength_eq, hat.content,
        hat'.content]
    · rw [blobOf, blobOf, hslot, hat.blobLength_eq, hat'.blobLength_eq]
  · refine ⟨⟨?_, ?_, ?_⟩, ?_, fun h => absurd h hb⟩
    · rw [hslot]
      exact hok.checksum
    · rw [hslot]
      exact hok.set_value
    · rw [hslot]
      exact fun h => absurd h hb
    · simp [entryAt, hslot, valueAt, hb]

end Facts

section Cells
variable {c : Cells}

theorem EntryOk.cells (h : EntryOk cfg s o) (c d : Cells) :
    EntryOk cfg { s with body := c, blobs := d } o :=
  ⟨h.checksum, h.set_value, h.blob⟩

/-- The body allocator changed, but not what is live. -/
theorem Heap.setBody (h : Heap cfg s N bare bareBlobs) (hq : Quiet cfg.bodyLayout c)
    (hl : c.live = s.body.live) : Heap cfg { s with body := c } N bare bareBlobs where
  body := hq
  blobs := h.blobs
  shape := by
    rw [hl]
    exact h.shape
  live_iff := by
    rw [hl]
    exact h.live_iff
  bare_free := h.bare_free
  entry := fun o ho => (h.entry o ho).cells _ _
  blob_iff := h.blob_iff
  blob_free := h.blob_free
  blob_inj := h.blob_inj
  zero := h.zero

theorem Heap.setBlobs (h : Heap cfg s N bare bareBlobs) (hq : Quiet cfg.blobLayout c)
    (hl : c.live = s.blobs.live) : Heap cfg { s with blobs := c } N bare bareBlobs where
  body := h.body
  blobs := hq
  shape := h.shape
  live_iff := h.live_iff
  bare_free := h.bare_free
  entry := fun o ho => (h.entry o ho).cells _ _
  blob_iff := by
    rw [hl]
    exact h.blob_iff
  blob_free := h.blob_free
  blob_inj := h.blob_inj
  zero := h.zero

/-- New body allocations are bare. -/
theorem Heap.allocBody (h : Heap cfg s N bare bareBlobs) (hq : Quiet cfg.bodyLayout c)
    {xs : List Allocation} (hl : c.live = xs ++ s.body.live)
    (hshape : ∀ x ∈ xs, x = nodeAlloc cfg x.offset ∧ x.offset % nodeAlignment = 0) :
    Heap cfg { s with body := c } N (bare ∪ {x | x ∈ xs}) bareBlobs where
  body := hq
  blobs := h.blobs
  shape := by
    intro x hx
    rw [hl] at hx
    rcases List.mem_append.mp hx with hx | hx
    · exact hshape x hx
    · exact h.shape x hx
  live_iff := by
    intro x
    rw [hl, List.mem_append, h.live_iff]
    constructor
    · rintro (hx | hx | hx)
      · exact Or.inr (Or.inr hx)
      · exact Or.inl hx
      · exact Or.inr (Or.inl hx)
    · rintro (hx | hx | hx)
      · exact Or.inr (Or.inl hx)
      · exact Or.inr (Or.inr hx)
      · exact Or.inl hx
  bare_free := by
    rintro x (hx | hx) hN
    · exact h.bare_free x hx hN
    · have hnd := hq.pages.nodup
      rw [hl] at hnd
      have hlive := (h.liveNode hN).live
      rw [← (hshape x hx).1] at hlive
      exact (List.nodup_append.mp hnd).2.2 x hx x hlive rfl
  entry := fun o ho => (h.entry o ho).cells _ _
  blob_iff := h.blob_iff
  blob_free := h.blob_free
  blob_inj := h.blob_inj
  zero := fun o hN hb => h.zero o hN fun hx => hb (Or.inl hx)

theorem Heap.allocBlob (h : Heap cfg s N bare bareBlobs) (hq : Quiet cfg.blobLayout c)
    (hl : c.live = x :: s.blobs.live) :
    Heap cfg { s with blobs := c } N bare (insert x bareBlobs) where
  body := h.body
  blobs := hq
  shape := h.shape
  live_iff := h.live_iff
  bare_free := h.bare_free
  entry := fun o ho => (h.entry o ho).cells _ _
  blob_iff := by
    intro y
    rw [hl, List.mem_cons, h.blob_iff]
    constructor
    · rintro (hy | hy | hy)
      · exact Or.inr (Or.inl hy)
      · exact Or.inl hy
      · exact Or.inr (Or.inr hy)
    · rintro (hy | hy | hy)
      · exact Or.inr (Or.inl hy)
      · exact Or.inl hy
      · exact Or.inr (Or.inr hy)
  blob_free := by
    rintro y (rfl | hy) o ho hb heq
    · refine hq.pages.fresh_not_mem hl ?_
      rw [heq]
      exact h.blob_live ho hb
    · exact h.blob_free y hy o ho hb heq
  blob_inj := h.blob_inj
  zero := h.zero

/-- A bare allocation goes back; its slot was cleared before. -/
theorem Heap.releaseBody (h : Heap cfg s N bare bareBlobs) (hq : Quiet cfg.bodyLayout c)
    (hx : x ∈ bare) (hz : (s.slots x.offset).checksum = 0)
    (hl : c.live = s.body.live.erase x) :
    Heap cfg { s with body := c } N (bare \ {x}) bareBlobs where
  body := hq
  blobs := h.blobs
  shape := by
    intro y hy
    rw [hl] at hy
    exact h.shape y (List.mem_of_mem_erase hy)
  live_iff := by
    intro y
    rw [hl, mem_erase_live h.body.pages, h.live_iff]
    constructor
    · rintro ⟨hne, hy | hy⟩
      · exact Or.inl hy
      · exact Or.inr ⟨hy, hne⟩
    · rintro (⟨o, ho, rfl⟩ | ⟨hy, hne⟩)
      · refine ⟨?_, Or.inl ⟨o, ho, rfl⟩⟩
        rintro rfl
        exact h.bare_free _ hx ho
      · exact ⟨hne, Or.inr hy⟩
  bare_free := fun y hy => h.bare_free y hy.1
  entry := fun o ho => (h.entry o ho).cells _ _
  blob_iff := h.blob_iff
  blob_free := h.blob_free
  blob_inj := h.blob_inj
  zero := by
    intro o hN hb
    by_cases ho : nodeAlloc cfg o = x
    · have hoff : o = x.offset := congrArg Allocation.offset ho
      rw [hoff]
      exact hz
    · exact h.zero o hN fun hx' => hb ⟨hx', ho⟩

theorem Heap.releaseBlob (h : Heap cfg s N bare bareBlobs) (hq : Quiet cfg.blobLayout c)
    (hx : x ∈ bareBlobs) (hl : c.live = s.blobs.live.erase x) :
    Heap cfg { s with blobs := c } N bare (bareBlobs \ {x}) where
  body := h.body
  blobs := hq
  shape := h.shape
  live_iff := h.live_iff
  bare_free := h.bare_free
  entry := fun o ho => (h.entry o ho).cells _ _
  blob_iff := by
    intro y
    rw [hl, mem_erase_live h.blobs.pages, h.blob_iff]
    constructor
    · rintro ⟨hne, hy | hy⟩
      · exact Or.inl hy
      · exact Or.inr ⟨hy, hne⟩
    · rintro (⟨o, ho, hb, rfl⟩ | ⟨hy, hne⟩)
      · refine ⟨?_, Or.inl ⟨o, ho, hb, rfl⟩⟩
        rintro rfl
        exact h.blob_free _ hx o ho hb rfl
      · exact ⟨hne, Or.inr hy⟩
  blob_free := fun y hy => h.blob_free y hy.1
  blob_inj := h.blob_inj
  zero := h.zero

theorem keeps_cells (cfg : Config) (N : Set Nat) (s : Store) (c d : Cells) :
    Keeps cfg N s { s with body := c, blobs := d } := fun _ _ => ⟨rfl, rfl⟩

end Cells

section Bytes

/-- Bytes written inside a bare blob are not part of any node's blob. -/
theorem Heap.writeBytes (h : Heap cfg s N bare bareBlobs) (hx : x ∈ bareBlobs)
    {bytes : Nat → UInt8}
    (hout : ∀ i, i < x.offset ∨ x.offset + x.length ≤ i → bytes i = s.bytes i) :
    Heap cfg { s with bytes := bytes } N bare bareBlobs ∧
      Keeps cfg N s { s with bytes := bytes } := by
  have hxl : x ∈ s.blobs.live := (h.blob_iff x).mpr (Or.inr hx)
  have hsame : ∀ o ∈ N, EntryOk cfg { s with bytes := bytes } o ∧
      entryAt cfg { s with bytes := bytes } o = entryAt cfg s o ∧
      (isBlob (s.slots o).value = true →
        blobOf cfg { s with bytes := bytes } o = blobOf cfg s o) := by
    intro o ho
    refine entryAt_congr (h.entry o ho) rfl ?_
    intro hb i h1 h2
    have hap := h.blobs.pages.apart_of_ne hxl (h.blob_live ho hb) (h.blob_free x hx o ho hb)
    apply hout
    rcases hap with hap | hap <;> omega
  refine ⟨⟨h.body, h.blobs, h.shape, h.live_iff, h.bare_free, fun o ho => (hsame o ho).1, ?_, ?_,
    h.blob_inj, h.zero⟩, fun o ho => ⟨rfl, (hsame o ho).2.1⟩⟩
  · intro y
    rw [h.blob_iff]
    refine or_congr ?_ Iff.rfl
    constructor
    · rintro ⟨o, ho, hb, rfl⟩
      exact ⟨o, ho, hb, ((hsame o ho).2.2 hb).symm⟩
    · rintro ⟨o, ho, hb, rfl⟩
      exact ⟨o, ho, hb, (hsame o ho).2.2 hb⟩
  · intro y hy o ho hb
    rw [(hsame o ho).2.2 hb]
    exact h.blob_free y hy o ho hb

end Bytes

section Slots

/-- The blob a value word refers to, if it does. -/
def blobSet (cfg : Config) (s : Store) (value : UInt64) : Set Allocation :=
  {x | isBlob value = true ∧
    x = blobAlloc cfg (blobOffset value) (blobLength s.bytes (blobOffset value))}

/-- A slot written in place keeps what the other nodes say. -/
theorem entryAt_setSlot (s : Store) (f : Slot → Slot) {o o' : Nat} (hne : o' ≠ o) :
    entryAt cfg (s.setSlot o f) o' = entryAt cfg s o' ∧
      blobOf cfg (s.setSlot o f) o' = blobOf cfg s o' ∧
      (EntryOk cfg (s.setSlot o f) o' ↔ EntryOk cfg s o') := by
  have hslot := setSlot_slots_ne s f hne
  refine ⟨?_, ?_, ?_⟩
  · rw [entryAt, entryAt, hslot]
    rfl
  · rw [blobOf, blobOf, hslot]
    rfl
  · constructor
    · intro h
      refine ⟨?_, ?_, ?_⟩
      · simpa only [hslot] using h.checksum
      · simpa only [hslot] using h.set_value
      · simpa only [hslot, setSlot_bytes] using h.blob
    · intro h
      refine ⟨?_, ?_, ?_⟩
      · simpa only [hslot] using h.checksum
      · simpa only [hslot] using h.set_value
      · simpa only [hslot, setSlot_bytes] using h.blob

/-- The next field of a node is not part of what the node says. -/
theorem Heap.setNext (h : Heap cfg s N bare bareBlobs) {next : Nat}
    (hn : next ≤ nodePointerMask.toNat) :
    Heap cfg (s.setSlot o (·.withNext next)) N bare bareBlobs ∧
      Keeps cfg (N \ {o}) s (s.setSlot o (·.withNext next)) ∧
      ∀ o', entryAt cfg (s.setSlot o (·.withNext next)) o' = entryAt cfg s o' := by
  have hval : ∀ o', ((s.setSlot o (·.withNext next)).slots o').value = (s.slots o').value ∧
      ((s.setSlot o (·.withNext next)).slots o').key = (s.slots o').key ∧
      ((s.setSlot o (·.withNext next)).slots o').checksum = (s.slots o').checksum := by
    intro o'
    obtain ⟨hkey, hvalue⟩ := setNext_said s o next o'
    exact ⟨hvalue, hkey, setNext_checksum s o o' hn⟩
  have hblob : ∀ o', blobOf cfg (s.setSlot o (·.withNext next)) o' = blobOf cfg s o' := by
    intro o'
    simp only [blobOf, (hval o').1]
    rfl
  refine ⟨⟨h.body, h.blobs, h.shape, h.live_iff, h.bare_free, ?_, ?_, ?_, ?_, ?_⟩, ?_, ?_⟩
  · intro o' ho'
    have hok := h.entry o' ho'
    refine ⟨?_, ?_, ?_⟩
    · rw [(hval o').1, (hval o').2.1, (hval o').2.2]
      exact hok.checksum
    · rw [(hval o').1]
      exact hok.set_value
    · rw [(hval o').1]
      exact hok.blob
  · intro x
    simp only [hblob, (hval _).1]
    exact h.blob_iff x
  · intro x hx o' ho'
    rw [(hval o').1, hblob]
    exact h.blob_free x hx o' ho'
  · intro o₁ h₁ o₂ h₂
    rw [(hval o₁).1, (hval o₂).1]
    exact h.blob_inj o₁ h₁ o₂ h₂
  · intro o' ho'
    rw [(hval o').2.2]
    exact h.zero o' ho'
  · intro o' ho'
    exact ⟨setSlot_slots_ne s _ ho'.2, (entryAt_setSlot s _ ho'.2).1⟩
  · intro o'
    simp only [entryAt, (hval o').1, (hval o').2.1]
    rfl

/-- What a bare slot holds concerns no node. -/
theorem Heap.setBare (h : Heap cfg s N bare bareBlobs) (ho : nodeAlloc cfg o ∈ bare)
    (f : Slot → Slot) :
    Heap cfg (s.setSlot o f) N bare bareBlobs ∧ Keeps cfg N s (s.setSlot o f) := by
  have hne : ∀ o' ∈ N, o' ≠ o := by
    rintro o' ho' rfl
    exact h.bare_free _ ho ho'
  have hslot : ∀ o' ∈ N, (s.setSlot o f).slots o' = s.slots o' := fun o' ho' =>
    setSlot_slots_ne s f (hne o' ho')
  have hblob : ∀ o' ∈ N, blobOf cfg (s.setSlot o f) o' = blobOf cfg s o' := fun o' ho' =>
    (entryAt_setSlot s f (hne o' ho')).2.1
  refine ⟨⟨h.body, h.blobs, h.shape, h.live_iff, h.bare_free, ?_, ?_, ?_, ?_, ?_⟩,
    fun o' ho' => ⟨hslot o' ho', (entryAt_setSlot s f (hne o' ho')).1⟩⟩
  · intro o' ho'
    exact (entryAt_setSlot s f (hne o' ho')).2.2.mpr (h.entry o' ho')
  · intro x
    refine (h.blob_iff x).trans (or_congr ?_ Iff.rfl)
    constructor
    · rintro ⟨o', ho', hb, rfl⟩
      exact ⟨o', ho', by rw [hslot o' ho', hb], (hblob o' ho').symm⟩
    · rintro ⟨o', ho', hb, rfl⟩
      rw [hslot o' ho'] at hb
      exact ⟨o', ho', hb, hblob o' ho'⟩
  · intro x hx o' ho'
    rw [hslot o' ho', hblob o' ho']
    exact h.blob_free x hx o' ho'
  · intro o₁ h₁ o₂ h₂
    rw [hslot o₁ h₁, hslot o₂ h₂]
    exact h.blob_inj o₁ h₁ o₂ h₂
  · intro o' hN hb
    have hne' : o' ≠ o := by
      rintro rfl
      exact hb ho
    rw [setSlot_slots_ne s f hne']
    exact h.zero o' hN hb

/-- A node can be seen as a bare slot and, perhaps, a bare blob. -/
theorem Heap.forget (h : Heap cfg s N bare bareBlobs) (ho : o ∈ N) :
    Heap cfg s (N \ {o}) (insert (nodeAlloc cfg o) bare)
      (bareBlobs ∪ blobSet cfg s (s.slots o).value) where
  body := h.body
  blobs := h.blobs
  shape := h.shape
  live_iff := by
    intro x
    rw [h.live_iff]
    constructor
    · rintro (⟨o', ho', rfl⟩ | hx)
      · by_cases heq : o' = o
        · subst heq
          exact Or.inr (Set.mem_insert _ _)
        · exact Or.inl ⟨o', ⟨ho', heq⟩, rfl⟩
      · exact Or.inr (Set.mem_insert_of_mem _ hx)
    · rintro (⟨o', ho', rfl⟩ | rfl | hx)
      · exact Or.inl ⟨o', ho'.1, rfl⟩
      · exact Or.inl ⟨o, ho, rfl⟩
      · exact Or.inr hx
  bare_free := by
    rintro x (rfl | hx) hN
    · exact hN.2 rfl
    · exact h.bare_free x hx hN.1
  entry := fun o' ho' => h.entry o' ho'.1
  blob_iff := by
    intro x
    rw [h.blob_iff]
    constructor
    · rintro (⟨o', ho', hb, rfl⟩ | hx)
      · by_cases heq : o' = o
        · subst heq
          exact Or.inr (Or.inr ⟨hb, rfl⟩)
        · exact Or.inl ⟨o', ⟨ho', heq⟩, hb, rfl⟩
      · exact Or.inr (Or.inl hx)
    · rintro (⟨o', ho', hb, rfl⟩ | hx | hx)
      · exact Or.inl ⟨o', ho'.1, hb, rfl⟩
      · exact Or.inr hx
      · exact Or.inl ⟨o, ho, hx.1, hx.2⟩
  blob_free := by
    rintro x (hx | hx) o' ho' hb heq
    · exact h.blob_free x hx o' ho'.1 hb heq
    · refine ho'.2 (h.blob_inj o' ho'.1 o ho hb hx.1 ?_)
      exact congrArg Allocation.offset (heq.symm.trans hx.2)
  blob_inj := fun o₁ h₁ o₂ h₂ => h.blob_inj o₁ h₁.1 o₂ h₂.1
  zero := by
    intro o' hN hb
    have hne : o' ≠ o := by
      rintro rfl
      exact hb (Set.mem_insert _ _)
    exact h.zero o' (fun hN' => hN ⟨hN', hne⟩) fun hx => hb (Set.mem_insert_of_mem _ hx)

/-- A bare slot with a readable entry is a node; it takes its blob along. -/
theorem Heap.adopt (h : Heap cfg s N bare bareBlobs) (ho : nodeAlloc cfg o ∈ bare)
    (hok : EntryOk cfg s o) (hsub : blobSet cfg s (s.slots o).value ⊆ bareBlobs) :
    Heap cfg s (insert o N) (bare \ {nodeAlloc cfg o})
      (bareBlobs \ blobSet cfg s (s.slots o).value) where
  body := h.body
  blobs := h.blobs
  shape := h.shape
  live_iff := by
    intro x
    rw [h.live_iff]
    constructor
    · rintro (⟨o', ho', rfl⟩ | hx)
      · exact Or.inl ⟨o', Set.mem_insert_of_mem o ho', rfl⟩
      · by_cases hxo : x = nodeAlloc cfg o
        · exact Or.inl ⟨o, Set.mem_insert o N, hxo⟩
        · exact Or.inr ⟨hx, hxo⟩
    · rintro (⟨o', rfl | ho', rfl⟩ | hx)
      · exact Or.inr ho
      · exact Or.inl ⟨o', ho', rfl⟩
      · exact Or.inr hx.1
  bare_free := by
    rintro x ⟨hx, hxo⟩ (hxo' | hxN)
    · have heq := (h.liveBare hx).1
      rw [hxo'] at heq
      exact hxo heq
    · exact h.bare_free x hx hxN
  entry := by
    rintro o' (rfl | ho')
    · exact hok
    · exact h.entry o' ho'
  blob_iff := by
    intro x
    rw [h.blob_iff]
    constructor
    · rintro (⟨o', ho', hb, rfl⟩ | hx)
      · exact Or.inl ⟨o', Set.mem_insert_of_mem o ho', hb, rfl⟩
      · by_cases hxs : x ∈ blobSet cfg s (s.slots o).value
        · exact Or.inl ⟨o, Set.mem_insert o N, hxs.1, hxs.2⟩
        · exact Or.inr ⟨hx, hxs⟩
    · rintro (⟨o', rfl | ho', hb, rfl⟩ | hx)
      · exact Or.inr (hsub ⟨hb, rfl⟩)
      · exact Or.inl ⟨o', ho', hb, rfl⟩
      · exact Or.inr hx.1
  blob_free := by
    rintro x ⟨hx, hxs⟩ o' (rfl | ho') hb heq
    · exact hxs ⟨hb, heq⟩
    · exact h.blob_free x hx o' ho' hb heq
  blob_inj := by
    -- the blob of the new node was bare, so it is no other node's
    have hfresh : ∀ o' ∈ N, isBlob (s.slots o').value = true → isBlob (s.slots o).value = true →
        blobOffset (s.slots o').value ≠ blobOffset (s.slots o).value := by
      intro o' ho' hb hb' heq
      refine h.blob_free _ (hsub ⟨hb', rfl⟩) o' ho' hb ?_
      rw [blobOf, heq]
    rintro o₁ (rfl | h₁) o₂ (rfl | h₂) hb₁ hb₂ heq
    · rfl
    · exact absurd heq.symm (hfresh o₂ h₂ hb₂ hb₁)
    · exact absurd heq (hfresh o₁ h₁ hb₁ hb₂)
    · exact h.blob_inj o₁ h₁ o₂ h₂ hb₁ hb₂ heq
  zero := by
    intro o' hN hb
    have hne : o' ≠ o := by
      rintro rfl
      exact hN (Set.mem_insert _ _)
    refine h.zero o' (fun hN' => hN (Set.mem_insert_of_mem _ hN')) fun hx => hb ⟨hx, fun heq => ?_⟩
    exact hne (congrArg Allocation.offset heq)

/-- A value word that a new node may take: inline, or the blob it names is bare. -/
structure ValueReady (cfg : Config) (s : Store) (bareBlobs : Set Allocation) (value : UInt64) :
    Prop where
  set_value : cfg.mode = .set → value = 0
  blob : isBlob value = true → ∃ bytes, BlobAt s.bytes (blobOffset value) bytes
  bare : blobSet cfg s value ⊆ bareBlobs

/-- Writing a node into a bare slot. -/
theorem Heap.writeEntry (h : Heap cfg s N bare bareBlobs) (ho : nodeAlloc cfg o ∈ bare)
    {key : Key} {value : UInt64} (hv : ValueReady cfg s bareBlobs value) :
    Heap cfg (s.setSlot o fun _ => ⟨key, value, freshPointer key value⟩) (insert o N)
        (bare \ {nodeAlloc cfg o}) (bareBlobs \ blobSet cfg s value) ∧
      Keeps cfg N s (s.setSlot o fun _ => ⟨key, value, freshPointer key value⟩) := by
  obtain ⟨hbare, hkeep⟩ := h.setBare ho fun _ => ⟨key, value, freshPointer key value⟩
  have hself := setSlot_slots_self s o fun _ => ⟨key, value, freshPointer key value⟩
  have hset : blobSet cfg (s.setSlot o fun _ => ⟨key, value, freshPointer key value⟩)
      ((s.setSlot o fun _ => ⟨key, value, freshPointer key value⟩).slots o).value =
      blobSet cfg s value := by
    rw [hself]
    rfl
  have hok : EntryOk cfg (s.setSlot o fun _ => ⟨key, value, freshPointer key value⟩) o := by
    refine ⟨?_, ?_, ?_⟩
    · rw [hself]
      exact fresh_checksum
    · rw [hself]
      exact hv.set_value
    · rw [hself]
      exact hv.blob
  have hnode := hbare.adopt ho hok (by rw [hset]; exact hv.bare)
  rw [hset] at hnode
  exact ⟨hnode, hkeep⟩

/-- Tombstoning a node: its allocation and its blob are bare from now on. -/
theorem Heap.tombstone (h : Heap cfg s N bare bareBlobs) (ho : o ∈ N) :
    Heap cfg (s.setSlot o fun slot => { slot with pointer := 0 }) (N \ {o})
        (insert (nodeAlloc cfg o) bare) (bareBlobs ∪ blobSet cfg s (s.slots o).value) ∧
      Keeps cfg (N \ {o}) s (s.setSlot o fun slot => { slot with pointer := 0 }) :=
  (h.forget ho).setBare (Set.mem_insert _ _) _

end Slots

end FlorestaDb
