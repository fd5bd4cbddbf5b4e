import FlorestaDb.Snapshot
import FlorestaDb.Packing

/-! A store that is filled by copying nodes into it, in the order in which they come, and
from which nodes are taken back when a copy has to start over. -/
namespace FlorestaDb
open Program Program.Prog Allocator Chain

variable {cfg : Config} {m : Machine} {v : Env} {t : Tid} {s s' : Store} {fuel o : Nat}
  {nodes : List Nat} {pending : Option Allocation} {x : Allocation}

section Copies

/-- The blob that a value word refers to, if it does. -/
def blobOpt (cfg : Config) (s : Store) (value : UInt64) : Option Allocation :=
  if isBlob value then
    some (blobAlloc cfg (blobOffset value) (blobLength s.bytes (blobOffset value)))
  else none

def nodeBlob (cfg : Config) (s : Store) (o : Nat) : Option Allocation :=
  blobOpt cfg s (s.slots o).value

/-- A blob word that can be read back. -/
def WordOk (cfg : Config) (s : Store) (value : UInt64) : Prop :=
  isBlob value = true → cfg.mode = .map ∧ ∃ bytes, BlobAt s.bytes (blobOffset value) bytes

/- What is live are the nodes, in the order in which they were copied, and their blobs;
   `pending` is the blob of a node that is still to be made. -/
structure Copies (cfg : Config) (s : Store) (nodes : List Nat) (pending : Option Allocation) :
    Prop where
  body : Quiet cfg.bodyLayout s.body
  blobs : Quiet cfg.blobLayout s.blobs
  live : s.body.live.reverse = nodes.map (nodeAlloc cfg)
  blob_live : s.blobs.live.reverse = nodes.filterMap (nodeBlob cfg s) ++ pending.toList
  aligned : ∀ o ∈ nodes, o % nodeAlignment = 0
  checksum : ∀ o ∈ nodes, (s.slots o).checksum = nodeChecksum (s.slots o).key (s.slots o).value
  word : ∀ o ∈ nodes, WordOk cfg s (s.slots o).value
  groups : ∃ gs, Grouped cfg.bodyLayout nodeAlignment s.body gs
  blob_groups : ∃ gs, Grouped cfg.blobLayout 8 s.blobs gs

theorem copies_created (cfg : Config) : Copies cfg Store.created [] none where
  body := quiet_created _
  blobs := quiet_created _
  live := rfl
  blob_live := rfl
  aligned := by simp
  checksum := by simp
  word := by simp
  groups := ⟨[], grouped_created _ _⟩
  blob_groups := ⟨[], grouped_created _ _⟩

theorem Copies.mem_live (h : Copies cfg s nodes pending) (ho : o ∈ nodes) :
    nodeAlloc cfg o ∈ s.body.live := by
  rw [← List.mem_reverse, h.live]
  exact List.mem_map_of_mem ho

theorem Copies.liveNode (h : Copies cfg s nodes pending) (ho : o ∈ nodes) : LiveNode cfg s o :=
  ⟨h.mem_live ho, h.aligned o ho⟩

theorem Copies.nodup (h : Copies cfg s nodes pending) : nodes.Nodup := by
  have hnd := List.nodup_reverse.mpr h.body.pages.nodup
  rw [h.live] at hnd
  exact List.Nodup.of_map _ hnd

theorem Copies.readable (hv : cfg.Valid) (h : Copies cfg s nodes pending) (ho : o ∈ nodes) :
    Readable cfg s o where
  pos := (h.liveNode ho).pos hv h.body
  aligned := h.aligned o ho
  range := (h.liveNode ho).range hv h.body (Nat.le_refl _) (Nat.le_refl _)
  checksum := h.checksum o ho

theorem Copies.not_mem (h : Copies cfg s nodes pending) {c : Cells} (hq : Quiet cfg.bodyLayout c)
    (hx : c.live = nodeAlloc cfg o :: s.body.live) : o ∉ nodes := fun ho =>
  hq.pages.fresh_not_mem hx (h.mem_live ho)

theorem blobOpt_eq_some {value : UInt64} :
    blobOpt cfg s value = some x ↔ isBlob value = true ∧
      x = blobAlloc cfg (blobOffset value) (blobLength s.bytes (blobOffset value)) := by
  by_cases hb : isBlob value = true
  · simp [blobOpt, hb, eq_comm]
  · simp [blobOpt, hb]

theorem Copies.blob_mem (h : Copies cfg s nodes pending) (ho : o ∈ nodes)
    (hx : nodeBlob cfg s o = some x) : x ∈ s.blobs.live := by
  rw [← List.mem_reverse, h.blob_live]
  exact List.mem_append_left _ (List.mem_filterMap.mpr ⟨o, ho, hx⟩)

/-- The blob of a copied node is live at its full length, and can be read. -/
theorem Copies.liveBlob (h : Copies cfg s nodes pending) (ho : o ∈ nodes)
    (hb : isBlob (s.slots o).value = true) :
    ∃ bytes, LiveBlob cfg s (blobOffset (s.slots o).value) bytes := by
  obtain ⟨-, bytes, hat⟩ := h.word o ho hb
  refine ⟨bytes, ?_, hat⟩
  refine h.blob_mem ho ?_
  rw [nodeBlob, blobOpt_eq_some, hat.blobLength_eq]
  exact ⟨hb, rfl⟩

theorem blobOpt_congr {value : UInt64} (hw : WordOk cfg s value)
    (h : ∀ x, blobOpt cfg s value = some x →
      ∀ i, x.offset ≤ i → i < x.offset + x.length → s'.bytes i = s.bytes i) :
    WordOk cfg s' value ∧ blobOpt cfg s' value = blobOpt cfg s value ∧
      valueAt cfg s' value = valueAt cfg s value := by
  by_cases hb : isBlob value = true
  · obtain ⟨hm, bytes, hat⟩ := hw hb
    have hat' : BlobAt s'.bytes (blobOffset value) bytes := by
      refine hat.congr fun i h1 h2 => h _ (blobOpt_eq_some.mpr ⟨hb, rfl⟩) i h1 ?_
      simpa [blobAlloc, hat.blobLength_eq] using h2
    refine ⟨fun _ => ⟨hm, bytes, hat'⟩, ?_, ?_⟩
    · simp only [blobOpt, hat.blobLength_eq, hat'.blobLength_eq]
    · rw [valueAt_blob hm hb hat, valueAt_blob hm hb hat']
  · refine ⟨fun h => absurd h hb, ?_, ?_⟩
    · simp [blobOpt, hb]
    · simp [valueAt, hb]

/-- A store in which the nodes and their blobs look as before. -/
theorem Copies.kept {pending' : Option Allocation} (h : Copies cfg s nodes pending) (s' : Store)
    (hbody : Quiet cfg.bodyLayout s'.body) (hblobs : Quiet cfg.blobLayout s'.blobs)
    (hgroups : ∃ gs, Grouped cfg.bodyLayout nodeAlignment s'.body gs)
    (hgroups' : ∃ gs, Grouped cfg.blobLayout 8 s'.blobs gs)
    (hlive : s'.body.live = s.body.live)
    (hblive : s'.blobs.live.reverse = nodes.filterMap (nodeBlob cfg s) ++ pending'.toList)
    (hslots : ∀ o ∈ nodes, s'.slots o = s.slots o)
    (hbytes : ∀ o ∈ nodes, ∀ x, nodeBlob cfg s o = some x →
      ∀ i, x.offset ≤ i → i < x.offset + x.length → s'.bytes i = s.bytes i) :
    Copies cfg s' nodes pending' ∧ Keeps cfg {o | o ∈ nodes} s s' := by
  have hsame := fun o ho => blobOpt_congr (h.word o ho) (hbytes o ho)
  have hnode : nodes.filterMap (nodeBlob cfg s') = nodes.filterMap (nodeBlob cfg s) := by
    refine List.filterMap_congr fun o ho => ?_
    rw [nodeBlob, hslots o ho]
    exact (hsame o ho).2.1
  refine ⟨⟨hbody, hblobs, by rw [hlive, h.live], by rw [hblive, hnode], h.aligned, ?_, ?_, hgroups,
    hgroups'⟩, ?_⟩
  · intro o ho
    rw [hslots o ho]
    exact h.checksum o ho
  · intro o ho
    rw [hslots o ho]
    exact (hsame o ho).1
  · intro o ho
    refine ⟨hslots o ho, ?_⟩
    rw [entryAt, hslots o ho, (hsame o ho).2.2]
    rfl

/-- What is left of the allocation order when one allocation is taken out. -/
theorem reverse_erase {live before behind : List Allocation} (hnd : live.Nodup)
    (h : live.reverse = before ++ x :: behind) : (live.erase x).reverse = before ++ behind := by
  have hsplit : live = behind.reverse ++ x :: before.reverse := by
    rw [← List.reverse_reverse live, h]
    simp
  have hnot : x ∉ behind.reverse := by
    intro hmem
    rw [hsplit] at hnd
    exact (List.nodup_append.mp hnd).2.2 x hmem x List.mem_cons_self rfl
  rw [hsplit, List.erase_append_right _ hnot, List.erase_cons_head]
  simp

/-- The pending blob is given back. -/
theorem Copies.dropped {d : Cells} (h : Copies cfg s nodes (some x))
    (hx : Released cfg.blobLayout x s.blobs d) :
    Copies cfg { s with blobs := d } nodes none ∧ Keeps cfg {o | o ∈ nodes} s { s with blobs := d } := by
  obtain ⟨gs, hgs⟩ := h.blob_groups
  have hold : s.blobs.live.reverse = nodes.filterMap (nodeBlob cfg s) ++ x :: [] := h.blob_live
  have hlive : d.live.reverse = nodes.filterMap (nodeBlob cfg s) ++ (none : Option Allocation).toList := by
    rw [hx.live, reverse_erase h.blobs.pages.nodup hold]
    rfl
  exact h.kept { s with blobs := d } h.body hx.quiet h.groups ⟨_, hgs.released h.blobs hx⟩ rfl hlive
    (fun _ _ => rfl) fun _ _ _ _ _ _ _ => rfl

/-- With nothing else in its slots, such a store belongs to its nodes. -/
theorem Copies.heap (h : Copies cfg s nodes none)
    (hset : ∀ o ∈ nodes, cfg.mode = .set → (s.slots o).value = 0)
    (hzero : ∀ o, o ∉ nodes → (s.slots o).checksum = 0) : Heap cfg s {o | o ∈ nodes} ∅ ∅ where
  body := h.body
  blobs := h.blobs
  shape := by
    intro x hx
    rw [← List.mem_reverse, h.live] at hx
    obtain ⟨o, ho, rfl⟩ := List.mem_map.mp hx
    exact ⟨rfl, h.aligned o ho⟩
  live_iff := by
    intro x
    rw [← List.mem_reverse, h.live, List.mem_map]
    simp only [Set.mem_ofPred_eq, Set.mem_empty_iff_false, or_false]
    exact exists_congr fun o => and_congr_right fun _ => eq_comm
  bare_free := by simp
  entry := fun o ho => ⟨h.checksum o ho, hset o ho, fun hb => (h.word o ho hb).2⟩
  blob_iff := by
    intro x
    rw [← List.mem_reverse, h.blob_live, Option.toList_none, List.append_nil, List.mem_filterMap]
    simp only [Set.mem_ofPred_eq, Set.mem_empty_iff_false, or_false]
    exact exists_congr fun o => and_congr_right fun _ => blobOpt_eq_some
  blob_free := by simp
  blob_inj := by
    intro o ho o' ho' hb hb' heq
    have hnd := List.nodup_reverse.mpr h.blobs.pages.nodup
    rw [h.blob_live, Option.toList_none, List.append_nil] at hnd
    have hx : nodeBlob cfg s o = some (blobOf cfg s o) := blobOpt_eq_some.mpr ⟨hb, rfl⟩
    have hx' : nodeBlob cfg s o' = some (blobOf cfg s o) := by
      rw [blobOf, heq]
      exact blobOpt_eq_some.mpr ⟨hb', rfl⟩
    have hsymm : Std.Symm fun a a' => ∀ x, nodeBlob cfg s a = some x →
        ∀ y, nodeBlob cfg s a' = some y → x ≠ y :=
      ⟨fun a b hab x hx y hy hxy => hab y hy x hx hxy.symm⟩
    by_contra hne
    exact (List.pairwise_filterMap.mp hnd).forall ho ho' hne _ hx _ hx' rfl
  zero := fun o ho _ => hzero o ho

end Copies

section Blobs

/-- Room for the blob of the next node. -/
theorem allocateBlob_copies (hL : cfg.blobLayout.Ok) (h : Copies cfg s nodes none) {length : Nat}
    (hf : v = .fair → 3 ≤ fuel) :
    (onBlobs (allocate cfg.blobLayout fuel length 8)).wp v t (fun r s' =>
      s' = { s with blobs := s'.blobs } ∧
      ((∃ x, r = .ok x ∧ Fresh cfg.blobLayout length 8 s.blobs s'.blobs x ∧
          Copies cfg s' nodes (some x)) ∨
        ∃ e, r = .error e ∧ Refused cfg.blobLayout v length 8 1 s.blobs e ∧
          Copies cfg s' nodes none ∧ Keeps cfg {o | o ∈ nodes} s s')) s := by
  have hmin := hL.block_min
  have hpage : formatPageSize = 65536 := rfl
  obtain ⟨gs, hgs⟩ := h.blob_groups
  rw [wp_onBlobs]
  refine wp_mono (allocate_spec hL h.blobs (by decide) (by decide) (by omega) hf) ?_
  rintro r c ⟨hq, ⟨x, rfl, hfresh⟩ | ⟨e, rfl, he, hnone⟩⟩
  · refine ⟨rfl, Or.inl ⟨x, rfl, hfresh, ?_⟩⟩
    have hblive : c.live.reverse = nodes.filterMap (nodeBlob cfg s) ++ (some x).toList := by
      rw [hfresh.live, List.reverse_cons, h.blob_live]
      simp
    exact (h.kept { s with blobs := c } h.body hq h.groups
      (hgs.fresh (by decide) hq hfresh) rfl hblive (fun _ _ => rfl)
      fun _ _ _ _ _ _ _ => rfl).1
  · have hblive : c.live.reverse = nodes.filterMap (nodeBlob cfg s) ++ (none : Option Allocation).toList := by
      rw [hnone.live, h.blob_live]
    obtain ⟨hcopies, hkeeps⟩ := h.kept { s with blobs := c } h.body hq h.groups ⟨gs, hgs.ungranted hnone⟩ rfl
      hblive (fun _ _ => rfl) fun _ _ _ _ _ _ _ => rfl
    exact ⟨rfl, Or.inr ⟨e, rfl, he, hcopies, hkeeps⟩⟩

/-- The content of the blob is written; no node looks at it yet. -/
theorem writeFreshBlob_copies (hL : cfg.blobLayout.Ok) (h : Copies cfg s nodes (some x))
    {bytes : List UInt8} (hlen : x.length = blobHeaderSize + bytes.length)
    (hlt : bytes.length < 2 ^ 32) :
    (writeFreshBlob cfg fuel x (headerOf bytes) bytes).wp v t (fun r s' => r = .ok () ∧
      s' = { s with bytes := s'.bytes } ∧ BlobAt s'.bytes x.offset bytes ∧
      Copies cfg s' nodes (some x) ∧ Keeps cfg {o | o ∈ nodes} s s') s := by
  have h8 : blobHeaderSize = 8 := rfl
  have hh := headerOf_length bytes
  have hx : x ∈ s.blobs.live := by
    rw [← List.mem_reverse, h.blob_live]
    exact List.mem_append_right _ (List.mem_singleton.mpr rfl)
  have hw1 : 0 + (headerOf bytes).length ≤ x.length := by omega
  have hw2 : blobHeaderSize + bytes.length ≤ x.length := by omega
  rw [writeFreshBlob, wp_bind, wp_attempt, wp_bind, writeBlobBytes_spec hL h.blobs hx hw1, andThen_ok]
  have hq : Quiet cfg.blobLayout
      { s with bytes := overwrite s.bytes (x.offset + 0) (headerOf bytes) }.blobs := h.blobs
  refine (writeBlobBytes_spec hL hq hx hw2).mpr ?_
  simp only [andThen_ok, Nat.add_zero]
  rw [wp_pure]
  have hat : BlobAt (overwrite (overwrite s.bytes x.offset (headerOf bytes))
      (x.offset + blobHeaderSize) bytes) x.offset bytes := by
    refine ⟨hlt, ?_, slice_overwrite _ _ _⟩
    rw [slice_congr fun i _ h2 => overwrite_outside _ _ (Or.inl h2), h8, ← hh]
    exact slice_overwrite _ _ _
  -- the other blobs lie outside of the new one
  have hout : ∀ o ∈ nodes, ∀ y, nodeBlob cfg s o = some y → ∀ i, y.offset ≤ i →
      i < y.offset + y.length →
      overwrite (overwrite s.bytes x.offset (headerOf bytes)) (x.offset + blobHeaderSize) bytes i =
        s.bytes i := by
    intro o ho y hy i h1 h2
    have hne : x ≠ y := by
      rintro rfl
      have hnd := List.nodup_reverse.mpr h.blobs.pages.nodup
      rw [h.blob_live] at hnd
      exact (List.nodup_append.mp hnd).2.2 x (List.mem_filterMap.mpr ⟨o, ho, hy⟩) x
        (List.mem_singleton.mpr rfl) rfl
    have hap := h.blobs.pages.apart_of_ne hx (h.blob_mem ho hy) hne
    rw [overwrite_outside, overwrite_outside]
    · rcases hap with hap | hap <;> omega
    · rcases hap with hap | hap <;> omega
  generalize overwrite (overwrite s.bytes x.offset (headerOf bytes)) (x.offset + blobHeaderSize)
    bytes = new at hat hout
  obtain ⟨hcopies, hkeeps⟩ := h.kept { s with bytes := new } h.body h.blobs h.groups
    h.blob_groups rfl h.blob_live (fun _ _ => rfl) hout
  exact ⟨rfl, rfl, hat, hcopies, hkeeps⟩

end Blobs

section Nodes

/-- A node behind the others, with the pending blob if its value has one. -/
theorem Copies.push (h : Copies cfg s nodes pending) (key : Key) {value : UInt64} {c : Cells}
    (hq : Quiet cfg.bodyLayout c)
    (hx : Fresh cfg.bodyLayout nodeSize nodeAlignment s.body c (nodeAlloc cfg o))
    (hal : o % nodeAlignment = 0) (hw : WordOk cfg s value) (hp : blobOpt cfg s value = pending) :
    Copies cfg ({ s with body := c }.setSlot o fun _ => ⟨key, value, freshPointer key value⟩)
        (nodes ++ [o]) none ∧
      Keeps cfg {o | o ∈ nodes} s
        ({ s with body := c }.setSlot o fun _ => ⟨key, value, freshPointer key value⟩) := by
  have hnot : o ∉ nodes := h.not_mem hq hx.live
  generalize hs : ({ s with body := c }.setSlot o fun _ => ⟨key, value, freshPointer key value⟩) = s'
  have hself : s'.slots o = ⟨key, value, freshPointer key value⟩ := by
    rw [← hs, setSlot_slots_self]
  have hslot : ∀ z ∈ nodes, s'.slots z = s.slots z := by
    intro z hz
    rw [← hs]
    exact setSlot_slots_ne _ _ fun heq => hnot (heq ▸ hz)
  have hbytes : s'.bytes = s.bytes := by rw [← hs]; rfl
  have hbody : s'.body = c := by rw [← hs]; rfl
  have hblobs : s'.blobs = s.blobs := by rw [← hs]; rfl
  have hword : ∀ value', WordOk cfg s' value' ↔ WordOk cfg s value' := by
    intro value'
    rw [WordOk, hbytes]
    rfl
  have hopt : ∀ value', blobOpt cfg s' value' = blobOpt cfg s value' := by
    intro value'
    simp only [blobOpt, hbytes]
  have hmem : ∀ z ∈ nodes ++ [o], z ∈ nodes ∨ z = o := by
    intro z hz
    simpa using hz
  obtain ⟨gs, hgs⟩ := h.groups
  have hgs' := hgs.fresh (by decide) hq hx
  rw [← hbody] at hq hx hgs'
  refine ⟨⟨hq, by rw [hblobs]; exact h.blobs, ?_, ?_, ?_, ?_, ?_, hgs',
    by rw [hblobs]; exact h.blob_groups⟩, ?_⟩
  · rw [hx.live, List.reverse_cons, h.live, List.map_append]
    rfl
  · have hold : nodes.filterMap (nodeBlob cfg s') = nodes.filterMap (nodeBlob cfg s) := by
      refine List.filterMap_congr fun z hz => ?_
      rw [nodeBlob, hslot z hz, hopt]
      rfl
    have hnew : nodeBlob cfg s' o = pending := by
      rw [nodeBlob, hself, hopt]
      exact hp
    rw [hblobs, List.filterMap_append, h.blob_live, hold, List.filterMap_cons, hnew]
    cases pending with
    | none => simp
    | some y => simp
  · intro z hz
    rcases hmem z hz with hz | rfl
    · exact h.aligned z hz
    · exact hal
  · intro z hz
    rcases hmem z hz with hz | rfl
    · rw [hslot z hz]
      exact h.checksum z hz
    · rw [hself]
      exact fresh_checksum
  · intro z hz
    rcases hmem z hz with hz | rfl
    · rw [hslot z hz, hword]
      exact h.word z hz
    · rw [hself, hword]
      exact hw
  · intro z hz
    refine ⟨hslot z hz, ?_⟩
    simp only [entryAt, hslot z hz, valueAt, hbytes]

theorem allocateNode_copies (hv : cfg.Valid) (h : Copies cfg s nodes pending) {key : Key}
    {value : UInt64} (hw : WordOk cfg s value) (hp : blobOpt cfg s value = pending)
    (hf : v = .fair → 3 ≤ fuel) :
    (allocateNode cfg fuel key value).wp v t (fun r s' =>
      (∃ o, r = .ok (nodeAlloc cfg o) ∧ o ∉ nodes ∧
          s' = { s with body := s'.body }.setSlot o
            (fun _ => ⟨key, value, freshPointer key value⟩) ∧
          Fresh cfg.bodyLayout nodeSize nodeAlignment s.body s'.body (nodeAlloc cfg o) ∧
          Copies cfg s' (nodes ++ [o]) none ∧ Keeps cfg {o | o ∈ nodes} s s') ∨
        ∃ e, r = .error e ∧ Refused cfg.bodyLayout v nodeSize nodeAlignment 1 s.body e ∧
          Copies cfg s' nodes pending ∧ Keeps cfg {o | o ∈ nodes} s s') s := by
  refine wp_mono (allocateNode_placed hv h.body key value hf) ?_
  rintro r s' ⟨hq, ⟨o, rfl, hn, hs', hfresh⟩ | ⟨e, rfl, he, hs', hnone⟩⟩
  · obtain ⟨hcopies, hkeeps⟩ := h.push key hq hfresh hn.aligned hw hp
    rw [← hs'] at hcopies hkeeps
    exact Or.inl ⟨o, rfl, h.not_mem hq hfresh.live, hs', hfresh, hcopies, hkeeps⟩
  · obtain ⟨gs, hgs⟩ := h.groups
    have hslots : s'.slots = s.slots := by rw [hs']
    have hbytes : s'.bytes = s.bytes := by rw [hs']
    have hblobs : s'.blobs = s.blobs := by rw [hs']
    obtain ⟨hcopies, hkeeps⟩ := h.kept s' hq (hblobs ▸ h.blobs) ⟨gs, hgs.ungranted hnone⟩
      (hblobs ▸ h.blob_groups) hnone.live (by rw [hblobs, h.blob_live]) (fun _ _ => by rw [hslots])
      fun _ _ _ _ _ _ _ => by rw [hbytes]
    exact Or.inr ⟨e, rfl, he, hcopies, hkeeps⟩

/-- The next field of a copied node is set. -/
theorem Copies.setNext (h : Copies cfg s nodes pending) {next : Nat}
    (hn : next ≤ nodePointerMask.toNat) (o : Nat) :
    Copies cfg (s.setSlot o (·.withNext next)) nodes pending ∧
      ∀ z, entryAt cfg (s.setSlot o (·.withNext next)) z = entryAt cfg s z := by
  have hval : ∀ z, ((s.setSlot o (·.withNext next)).slots z).value = (s.slots z).value ∧
      ((s.setSlot o (·.withNext next)).slots z).key = (s.slots z).key ∧
      ((s.setSlot o (·.withNext next)).slots z).checksum = (s.slots z).checksum := by
    intro z
    obtain ⟨hkey, hvalue⟩ := setNext_said s o next z
    exact ⟨hvalue, hkey, setNext_checksum s o z hn⟩
  refine ⟨⟨h.body, h.blobs, h.live, ?_, h.aligned, ?_, ?_, h.groups, h.blob_groups⟩, ?_⟩
  · have hsame : nodeBlob cfg (s.setSlot o (·.withNext next)) = nodeBlob cfg s := by
      funext z
      rw [nodeBlob, (hval z).1]
      rfl
    rw [hsame]
    exact h.blob_live
  · intro z hz
    rw [(hval z).1, (hval z).2.1, (hval z).2.2]
    exact h.checksum z hz
  · intro z hz
    rw [(hval z).1]
    exact h.word z hz
  · intro z
    simp only [entryAt, (hval z).1, (hval z).2.1]
    rfl

end Nodes

section Moves
variable {s₁ s₂ : Store} {encoded value : UInt64} {bytes : List UInt8} {node : Node} {next : Nat}

/-- A value word is copied: an inline word as it is, a blob into a new pending blob. -/
structure Moved (cfg : Config) (s s' : Store) (nodes : List Nat) (encoded : UInt64)
    (bytes : List UInt8) (value : UInt64) (blob : Option Allocation) : Prop where
  copies : Copies cfg s' nodes blob
  keeps : Keeps cfg {o | o ∈ nodes} s s'
  slots : s'.slots = s.slots
  body : s'.body = s.body
  word : WordOk cfg s' value
  uses : blobOpt cfg s' value = blob
  inline : isBlob encoded = false → value = encoded ∧ s' = s
  blob : isBlob encoded = true → cfg.mode = .map ∧ isBlob value = true ∧
    valueAt cfg s' value = bytes ∧
    ∃ x, Fresh cfg.blobLayout (blobHeaderSize + bytes.length) 8 s.blobs s'.blobs x

theorem moved_inline (h : Copies cfg s nodes none) (hb : isBlob encoded = false) :
    Moved cfg s s nodes encoded bytes encoded none where
  copies := h
  keeps := .refl cfg _ s
  slots := rfl
  body := rfl
  word := fun hb' => absurd (hb.symm.trans hb') (by decide)
  uses := by simp [blobOpt, hb]
  inline := fun _ => ⟨rfl, rfl⟩
  blob := fun hb' => absurd (hb.symm.trans hb') (by decide)

theorem moved_blob (hm : cfg.mode = .map) (hL : cfg.blobLayout.Ok) (hb : isBlob encoded = true)
    (hs₁ : s₁ = { s with blobs := s₁.blobs })
    (hfresh : Fresh cfg.blobLayout (blobHeaderSize + bytes.length) 8 s.blobs s₁.blobs x)
    (hs₂ : s₂ = { s₁ with bytes := s₂.bytes }) (hat : BlobAt s₂.bytes x.offset bytes)
    (hc : Copies cfg s₂ nodes (some x)) (hk : Keeps cfg {o | o ∈ nodes} s₁ s₂) :
    Moved cfg s s₂ nodes encoded bytes (valueBlobTag ||| UInt64.ofNat x.offset) (some x) := by
  have hslots : s₁.slots = s.slots := by rw [hs₁]
  have hbytes : s₁.bytes = s.bytes := by rw [hs₁]
  have hblobs : s₂.blobs = s₁.blobs := by rw [hs₂]
  have hx : x ∈ s₂.blobs.live := by
    rw [← List.mem_reverse, hc.blob_live]
    exact List.mem_append_right _ (List.mem_singleton.mpr rfl)
  obtain ⟨hfits, hblock⟩ := hc.blobs.pages.fits x hx
  have hoff : x.offset < 2 ^ 63 := by
    have h1 := hfits.end_le
    have h2 := hL.page_bound
      (Nat.le_trans (show x.block + 1 ≤ s₂.blobs.pages from hblock) hc.blobs.pages.pages_le)
    simp only [pageStart] at h1
    omega
  have hxeq : x = blobAlloc cfg x.offset bytes.length := by
    have hb := block_of_fits hL hfits
    have hl := hfresh.length_eq
    obtain ⟨offset, length, block⟩ := x
    simp only [blobAlloc, Allocation.mk.injEq, true_and]
    exact ⟨hl, hb⟩
  have hb' := isBlob_word hoff
  have ho := blobOffset_word hoff
  refine ⟨hc, ?_, ?_, ?_, ?_, ?_, ?_, ?_⟩
  · intro o hmem
    have hkept := hk o hmem
    rw [hslots] at hkept
    refine ⟨hkept.1, hkept.2.trans ?_⟩
    simp only [entryAt, valueAt, hslots, hbytes]
  · rw [hs₂, ← hslots]
  · rw [hs₂, hs₁]
  · intro _
    rw [ho]
    exact ⟨hm, bytes, hat⟩
  · rw [blobOpt_eq_some, ho, hat.blobLength_eq]
    exact ⟨hb', hxeq⟩
  · intro hb''
    exact absurd (hb.symm.trans hb'') (by decide)
  · intro _
    rw [hblobs]
    exact ⟨hm, hb', valueAt_blob hm hb' (by rw [ho]; exact hat), x, hfresh⟩

/-- A node is copied behind the others, its next field set. -/
structure CopiedNode (cfg : Config) (s s' : Store) (nodes : List Nat) (node : Node)
    (bytes : List UInt8) (o next : Nat) : Prop where
  fresh : o ∉ nodes
  copies : Copies cfg s' (nodes ++ [o]) none
  keeps : Keeps cfg {z | z ∈ nodes} s s'
  others : ∀ z, z ≠ o → s'.slots z = s.slots z
  key : (s'.slots o).key = node.key
  next : (s'.slots o).next = next
  inline : isBlob node.value = false → (s'.slots o).value = node.value ∧ s'.blobs = s.blobs
  blob : isBlob node.value = true → cfg.mode = .map ∧ isBlob (s'.slots o).value = true ∧
    valueAt cfg s' (s'.slots o).value = bytes ∧
    ∃ x, Fresh cfg.blobLayout (blobHeaderSize + bytes.length) 8 s.blobs s'.blobs x
  body : Fresh cfg.bodyLayout nodeSize nodeAlignment s.body s'.body (nodeAlloc cfg o)

theorem Moved.copied {blob : Option Allocation}
    (hmove : Moved cfg s s₁ nodes node.value bytes value blob) (hnot : o ∉ nodes)
    (hs₂ : s₂ = { s₁ with body := s₂.body }.setSlot o
      (fun _ => ⟨node.key, value, freshPointer node.key value⟩))
    (hfresh : Fresh cfg.bodyLayout nodeSize nodeAlignment s₁.body s₂.body (nodeAlloc cfg o))
    (hc : Copies cfg s₂ (nodes ++ [o]) none) (hk : Keeps cfg {o | o ∈ nodes} s₁ s₂)
    (hn : next ≤ nodePointerMask.toNat) :
    CopiedNode cfg s (s₂.setSlot o (·.withNext next)) nodes node bytes o next := by
  obtain ⟨hc', hentry⟩ := hc.setNext hn o
  have hself : s₂.slots o = ⟨node.key, value, freshPointer node.key value⟩ := by
    rw [hs₂, setSlot_slots_self]
  have hothers : ∀ z, z ≠ o → s₂.slots z = s.slots z := by
    intro z hz
    rw [hs₂, setSlot_slots_ne _ _ hz, ← hmove.slots]
  have hbytes : s₂.bytes = s₁.bytes := by
    rw [hs₂]
    rfl
  have hblobs : s₂.blobs = s₁.blobs := by
    rw [hs₂]
    rfl
  have hvalue : ((s₂.setSlot o (·.withNext next)).slots o).value = value := by
    rw [setSlot_slots_self, hself]
    rfl
  refine ⟨hnot, hc', ?_, ?_, ?_, ?_, ?_, ?_, ?_⟩
  · intro z hz
    have hne : z ≠ o := fun heq => hnot (heq ▸ hz)
    refine ⟨?_, ?_⟩
    · rw [setSlot_slots_ne _ _ hne, hothers z hne]
    · rw [hentry, (hk z hz).2, (hmove.keeps z hz).2]
  · intro z hz
    rw [setSlot_slots_ne _ _ hz, hothers z hz]
  · rw [setSlot_slots_self, hself]
    rfl
  · rw [setSlot_slots_self, Slot.withNext_next _ hn]
  · intro hb
    obtain ⟨hv, hs⟩ := hmove.inline hb
    refine ⟨hvalue.trans hv, ?_⟩
    change s₂.blobs = s.blobs
    rw [hblobs, hs]
  · intro hb
    obtain ⟨hm, hb', hval, x, hx⟩ := hmove.blob hb
    refine ⟨hm, by rw [hvalue]; exact hb', ?_, x, ?_⟩
    · rw [hvalue, ← hval]
      simp only [valueAt, setSlot_bytes, hbytes]
    · change Fresh cfg.blobLayout _ 8 s.blobs s₂.blobs x
      rw [hblobs]
      exact hx
  · rw [← hmove.body]
    exact hfresh

/-- The copy says what its source said. -/
theorem CopiedNode.entry (h : CopiedNode cfg s s' nodes node bytes o next) (source : Store)
    (hbytes : isBlob node.value = true → valueAt cfg source node.value = bytes) :
    entryAt cfg s' o = (node.key, valueAt cfg source node.value) := by
  rw [entryAt, h.key]
  congr 1
  cases hb : isBlob node.value with
  | true => rw [(h.blob hb).2.2.1, hbytes hb]
  | false =>
    rw [(h.inline hb).1]
    simp [valueAt, hb]

end Moves

end FlorestaDb
