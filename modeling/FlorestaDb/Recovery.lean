import FlorestaDb.Copying

/-! Recovery from a validated snapshot: the runtime files are rebuilt node by node, into pages
that have only ever been allocated from. -/
namespace FlorestaDb
open Program Program.Prog Allocator Chain

variable {cfg : Config} {m : Machine} {v : Env} {t : Tid} {w : Disk} {p q : Place} {nodes : List Nat}

section Copy

/-- Why a copy was refused: no room for the blob, or none for the node. -/
inductive Shortfall (cfg : Config) (v : Env) (s : Store) (node : Node) (length : Nat) (e : Error) : Prop
  | blob (h : isBlob node.value = true)
      (refused : Refused cfg.blobLayout v (blobHeaderSize + length) 8 1 s.blobs e)
  | body (refused : Refused cfg.bodyLayout v nodeSize nodeAlignment 1 s.body e)

theorem copyBlob_spec (hr : cfg.Ready) (hne : p ≠ q) {node : Node}
    (hdec : Decodes cfg (w.store p) node.value) (hc : Copies cfg (w.store q) nodes none)
    (hf : v = .fair → 3 ≤ m.fuel) :
    (copyBlob cfg m p q node.value).wp v t (fun r w' => ∃ s', w' = w.setStore q s' ∧
      ((∃ value blob, r = .ok (value, blob) ∧ Moved cfg (w.store q) s' nodes node.value
          (valueAt cfg (w.store p) node.value) value blob) ∨
        ∃ e, r = .error e ∧ isBlob node.value = true ∧ Refused cfg.blobLayout v
          (blobHeaderSize + (valueAt cfg (w.store p) node.value).length) 8 1 (w.store q).blobs e ∧
          Copies cfg s' nodes none ∧ Keeps cfg {o | o ∈ nodes} (w.store q) s')) w := by
  rw [copyBlob]
  cases hb : isBlob node.value with
  | false =>
    rw [if_pos (by rfl), wp_pure]
    exact ⟨w.store q, (w.setStore_self q).symm, Or.inl ⟨node.value, none, rfl, moved_inline hc hb⟩⟩
  | true =>
    obtain ⟨hm, bytes, hok⟩ := hdec.blob hb
    have hL := hr.blob hm
    have hval : valueAt cfg (w.store p) node.value = bytes := valueAt_blob hm hb hok.at_bytes
    have hset : ∀ s, (w.setStore q s).store p = w.store p := fun s => w.store_setStore_ne hne s
    rw [if_neg (by decide), requireBlobs, if_pos hm, wp_bind, wp_ofExcept, andThen_ok, wp_bind,
      wp_onPlace, readBlobBytes_ok hok.header, andThen_ok, w.setStore_self, hok.at_bytes.header,
      decodeBlobHeader_headerOf hok.at_bytes.length_lt]
    dsimp only
    rw [checkedAdd_of_lt hok.bound, okOr_some, wp_bind, wp_ofExcept, andThen_ok, wp_bind, wp_onPlace,
      readBlobBytes_ok hok.content, andThen_ok, w.setStore_self, hok.at_bytes.content,
      if_neg (not_not.mpr rfl), requireBlobs, if_pos hm, wp_bind, wp_ofExcept, andThen_ok, wp_bind,
      wp_onPlace, hval]
    refine wp_mono (allocateBlob_copies hL hc hf) ?_
    rintro r s₁ ⟨hs₁, ⟨x, rfl, hfresh, hc₁⟩ | ⟨e, rfl, he, hleft⟩⟩
    · rw [andThen_ok, wp_bind, wp_onPlace, w.store_setStore]
      refine wp_mono (writeFreshBlob_copies hL hc₁ hfresh.length_eq hok.at_bytes.length_lt) ?_
      rintro r s₂ ⟨rfl, hs₂, hat, hc₂, hk⟩
      rw [andThen_ok, wp_pure, w.setStore_setStore]
      exact ⟨s₂, rfl, Or.inl ⟨_, some x, rfl, moved_blob hm hL hb hs₁ hfresh hs₂ hat hc₂ hk⟩⟩
    · rw [andThen_error]
      exact ⟨s₁, rfl, Or.inr ⟨e, rfl, rfl, he, hleft⟩⟩

theorem dropBlob_spec (hr : cfg.Ready) {s : Store} {blob : Option Allocation}
    (hc : Copies cfg s nodes blob) (hf : v = .fair → 1 ≤ m.fuel) :
    (dropBlob cfg m q blob).wp v t (fun r w' => r = .ok () ∧ ∃ s', w' = w.setStore q s' ∧
      Copies cfg s' nodes none ∧ Keeps cfg {o | o ∈ nodes} s s') (w.setStore q s) := by
  cases blob with
  | none => exact ⟨rfl, s, rfl, hc, .refl cfg _ s⟩
  | some x =>
    have hx : x ∈ s.blobs.live := by
      rw [← List.mem_reverse, hc.blob_live]
      exact List.mem_append_right _ (List.mem_singleton.mpr rfl)
    have hm := mode_of_live_blob hr hc.blobs hx
    rw [dropBlob, wp_bind, wp_attempt, wp_onPlace, w.store_setStore, wp_onBlobs]
    refine wp_mono (releaseCount_spec (hr.blob hm) hc.blobs hx hf) ?_
    rintro _ c ⟨rfl, hreleased⟩
    rw [andThen_ok, w.setStore_setStore]
    exact ⟨rfl, _, rfl, hc.dropped hreleased⟩

theorem copyNode_spec (hr : cfg.Ready) (hne : p ≠ q) {node : Node} {next : Nat}
    (hdec : Decodes cfg (w.store p) node.value) (hc : Copies cfg (w.store q) nodes none)
    (hn : next ≤ nodePointerMask.toNat) (hf : v = .fair → 3 ≤ m.fuel) :
    (copyNode cfg m p q node next).wp v t (fun r w' => ∃ s', w' = w.setStore q s' ∧
      ((∃ o, r = .ok o ∧ CopiedNode cfg (w.store q) s' nodes node
          (valueAt cfg (w.store p) node.value) o next) ∨
        ∃ e, r = .error e ∧ Shortfall cfg v (w.store q) node
          (valueAt cfg (w.store p) node.value).length e ∧
          Copies cfg s' nodes none ∧ Keeps cfg {o | o ∈ nodes} (w.store q) s')) w := by
  have hf1 : v = .fair → 1 ≤ m.fuel := fun hv => Nat.le_trans (by decide) (hf hv)
  rw [copyNode, wp_bind]
  refine wp_mono (copyBlob_spec hr hne hdec hc hf) ?_
  rintro r _ ⟨s₁, rfl, ⟨value, blob, rfl, hmove⟩ | ⟨e, rfl, hb, he, hleft⟩⟩
  · rw [andThen_ok]
    dsimp only
    rw [wp_bind, wp_attempt, wp_onPlace, w.store_setStore]
    refine wp_mono (allocateNode_copies hr.valid hmove.copies hmove.word hmove.uses hf) ?_
    rintro r s₂ (⟨o, rfl, hnot, hs₂, hfresh, hc₂, hk⟩ | ⟨e, rfl, he, hc₂, hk⟩)
    · have ho : o ∈ nodes ++ [o] := List.mem_append_right _ (List.mem_singleton.mpr rfl)
      have hself : (s₂.slots o).next = 0 := by
        rw [hs₂, setSlot_slots_self]
        exact fresh_next
      rw [andThen_ok]
      dsimp only [nodeAlloc_offset]
      rw [wp_bind, wp_attempt, wp_onPlace, w.setStore_setStore, w.store_setStore,
        setPrivateNext_spec hr.valid hc₂.body (hc₂.liveNode ho) hself hn, andThen_ok,
        w.setStore_setStore, wp_pure]
      exact ⟨_, rfl, Or.inl ⟨o, rfl, hmove.copied hnot hs₂ hfresh hc₂ hk hn⟩⟩
    · rw [andThen_ok, w.setStore_setStore, wp_bind]
      refine wp_mono (dropBlob_spec hr hc₂ hf1) ?_
      rintro _ _ ⟨rfl, s', rfl, hc', hk'⟩
      rw [andThen_ok, wp_throw]
      refine ⟨s', rfl, Or.inr ⟨e, rfl, .body ?_, hc', (hmove.keeps.trans hk).trans hk'⟩⟩
      rw [← hmove.body]
      exact he
  · rw [andThen_error]
    exact ⟨s₁, rfl, Or.inr ⟨e, rfl, .blob hb he, hleft⟩⟩

end Copy

section Room
variable {s s' : Store} {node : Node} {bytes : List UInt8} {o next length : Nat} {e : Error}

/-- Both allocators have only ever been allocated from. -/
structure Stocked (cfg : Config) (s : Store) : Prop where
  body : ∃ pages page, Filled cfg.bodyLayout nodeAlignment s.body pages page
  blobs : ∃ pages page, Filled cfg.blobLayout 8 s.blobs pages page

theorem stocked_created (cfg : Config) : Stocked cfg Store.created :=
  ⟨⟨[], [], filled_created _ _⟩, ⟨[], [], filled_created _ _⟩⟩

/-- The lengths of what is live, in the order of allocation. -/
def lengths (c : Cells) : List Nat := c.live.reverse.map Allocation.length

/-- There is room for `count` more nodes and the blobs `items`. -/
structure Room (cfg : Config) (s : Store) (count : Nat) (items : List Nat) : Prop where
  body : Packs cfg.bodyLayout nodeAlignment (lengths s.body ++ List.replicate count nodeSize)
  blobs : cfg.mode = .map → Packs cfg.blobLayout 8 (lengths s.blobs ++ items)

/-- The room that the blob of a value takes. -/
def blobItem (value : UInt64) (length : Nat) : List Nat :=
  if isBlob value then [blobHeaderSize + length] else []

theorem lengths_fresh {L : Layout} {alignment : Nat} {c c' : Cells} {x : Allocation}
    (h : Fresh L length alignment c c' x) : lengths c' = lengths c ++ [length] := by
  rw [lengths, h.live, List.reverse_cons, List.map_append, List.map_singleton, h.length_eq]
  rfl

theorem packs_le {L : Layout} {alignment : Nat} {before rest : List Nat} (hpos : 0 < alignment)
    (h : Packs L alignment (before ++ length :: rest)) : length ≤ L.blockSize := by
  obtain ⟨pages, hflat, -, hfits⟩ := h
  have hmem : length ∈ pages.flatten := by
    rw [hflat]
    simp
  obtain ⟨page, hpage, hin⟩ := List.mem_flatten.mp hmem
  obtain ⟨l, r, rfl⟩ := List.append_of_mem hin
  have hfit := hfits _ hpage
  have hsplit : l ++ length :: r = l ++ [length] ++ r := by simp
  rw [hsplit] at hfit
  have hone := (hfit.stretch (alignedStart_mono alignment) (le_alignedStart hpos)).filled_le
  have hle : length ≤ alignedStart 0 alignment + length := Nat.le_add_left _ _
  exact Nat.le_trans hle hone

/-- Where there is room, nothing but a failed system call refuses an allocation. -/
theorem refused_io {L : Layout} {alignment : Nat} {c : Cells} {pages : List (List Nat)}
    {page rest : List Nat} (hL : L.Ok) (hpos : 0 < alignment) (h : Filled L alignment c pages page)
    (hpacks : Packs L alignment (lengths c ++ length :: rest)) (hlen : 0 < length)
    (he : Refused L v length alignment 1 c e) : v = .any ∧ e = .io := by
  rw [lengths, h.lengths] at hpacks
  rcases he.short hlen (packs_le hpos hpacks) (by decide) with ⟨-, hstuck⟩ | hio
  · exact absurd hstuck (h.not_stuck hL hpos hpacks)
  · exact hio

theorem Shortfall.refusal (h : Shortfall cfg v s node length e) : Refusal v e := by
  cases h with
  | blob _ refused => exact refused.refusal
  | body refused => exact refused.refusal

theorem Shortfall.io (hr : cfg.Ready) (h : Shortfall cfg v s node length e) (hs : Stocked cfg s)
    (hmap : isBlob node.value = true → cfg.mode = .map) (count : Nat) (items : List Nat)
    (hroom : Room cfg s (count + 1) (blobItem node.value length ++ items)) : v = .any ∧ e = .io := by
  cases h with
  | blob hb refused =>
    obtain ⟨pages, page, hfill⟩ := hs.blobs
    have hpacks := hroom.blobs (hmap hb)
    rw [blobItem, if_pos hb] at hpacks
    exact refused_io (hr.blob (hmap hb)) (by decide) hfill hpacks (Nat.lt_of_lt_of_le (by decide)
      (Nat.le_add_right blobHeaderSize length)) refused
  | body refused =>
    obtain ⟨pages, page, hfill⟩ := hs.body
    have hpacks := hroom.body
    rw [List.replicate_succ] at hpacks
    exact refused_io hr.valid.bodyLayout_ok (by decide) hfill hpacks (by decide) refused

theorem CopiedNode.stocked (h : CopiedNode cfg s s' nodes node bytes o next) (hs : Stocked cfg s) :
    Stocked cfg s' := by
  obtain ⟨pages, page, hfill⟩ := hs.body
  obtain ⟨pages', page', hfill', -⟩ := hfill.fresh h.copies.body h.body
  refine ⟨⟨pages', page', hfill'⟩, ?_⟩
  cases hb : isBlob node.value with
  | false =>
    rw [(h.inline hb).2]
    exact hs.blobs
  | true =>
    obtain ⟨-, -, -, x, hx⟩ := h.blob hb
    obtain ⟨bpages, bpage, hbfill⟩ := hs.blobs
    obtain ⟨bpages', bpage', hbfill', -⟩ := hbfill.fresh h.copies.blobs hx
    exact ⟨bpages', bpage', hbfill'⟩

theorem CopiedNode.room (h : CopiedNode cfg s s' nodes node bytes o next) {count : Nat}
    {items : List Nat} : Room cfg s' count items ↔
      Room cfg s (count + 1) (blobItem node.value bytes.length ++ items) := by
  have hbody : lengths s'.body ++ List.replicate count nodeSize =
      lengths s.body ++ List.replicate (count + 1) nodeSize := by
    rw [lengths_fresh h.body, List.append_assoc, List.replicate_succ]
    rfl
  have hblobs : lengths s'.blobs ++ items =
      lengths s.blobs ++ (blobItem node.value bytes.length ++ items) := by
    cases hb : isBlob node.value with
    | false =>
      rw [(h.inline hb).2, blobItem, if_neg (by simp [hb]), List.nil_append]
    | true =>
      obtain ⟨-, -, -, x, hx⟩ := h.blob hb
      rw [lengths_fresh hx, blobItem, if_pos hb, List.append_assoc]
  constructor
  · intro hroom
    exact ⟨hbody ▸ hroom.body, fun hm => hblobs ▸ hroom.blobs hm⟩
  · intro hroom
    exact ⟨hbody ▸ hroom.body, fun hm => hblobs ▸ hroom.blobs hm⟩

end Room

section Rebuild
variable {d : Db} {chains : Nat → List Nat} {acc order : List Nat} {bank b root : Nat}

/- The runtime while it is rebuilt: some buckets have their chains, the nodes `acc` belong to
   the bucket in progress, and nothing was ever given back. -/
structure Rebuilding (cfg : Config) (d : Db) (chains : Nat → List Nat) (acc order : List Nat) :
    Prop where
  owned : Owned cfg d.store d.runtimeHeads chains {o | o ∈ acc} ∅ ∅
  copies : Copies cfg d.store order none
  all : {o | o ∈ order} = nodesOf chains {o | o ∈ acc}
  stocked : Stocked cfg d.store

theorem rebuilding_fresh (cfg : Config) (f : HeadsFile) (generation : Nat) :
    Rebuilding cfg (Db.fresh f generation) (fun _ => []) [] [] := by
  have hnodes : nodesOf (fun _ => []) {o | o ∈ ([] : List Nat)} = ∅ := by
    ext o
    simp [nodesOf]
  refine ⟨⟨?_, fun _ => rfl, by simp, by simp⟩, copies_created cfg, ?_, stocked_created cfg⟩
  · rw [hnodes]
    exact heap_created cfg
  · rw [hnodes]
    ext o
    simp

/-- One more node in front of the chain in progress. -/
theorem Rebuilding.copied (h : Rebuilding cfg d chains acc order) {s' : Store} {node : Node}
    {bytes : List UInt8} {o : Nat} (hc : CopiedNode cfg d.store s' order node bytes o root)
    (hset : cfg.mode = .set → node.value = 0) (hchain : IsChain d.store.next root acc) (hv : cfg.Valid) :
    Rebuilding cfg { d with store := s' } chains (o :: acc) (order ++ [o]) ∧
      IsChain s'.next o (o :: acc) := by
  have hall : {z | z ∈ order ++ [o]} = nodesOf chains {z | z ∈ o :: acc} := by
    have hold := h.all
    ext z
    have hz := Set.ext_iff.mp hold z
    simp only [nodesOf, Set.mem_ofPred_eq, List.mem_append, List.mem_cons] at hz ⊢
    rw [hz]
    tauto
  have hmem : ∀ z ∈ acc, z ∈ order := fun z hz =>
    (Set.ext_iff.mp h.all z).mpr (Or.inr hz)
  have hheap : Heap cfg s' (nodesOf chains {z | z ∈ o :: acc}) ∅ ∅ := by
    rw [← hall]
    refine hc.copies.heap ?_ ?_
    · intro z hz hm
      rcases List.mem_append.mp hz with hz | hz
      · rw [(hc.keeps z hz).1]
        exact (h.owned.heap.entry z ((Set.ext_iff.mp h.all z).mp hz)).set_value hm
      · rw [List.mem_singleton.mp hz]
        have hb : isBlob node.value = false := by
          rw [hset hm]
          decide
        rw [(hc.inline hb).1]
        exact hset hm
    · intro z hz
      have hne : z ≠ o := fun heq => hz (List.mem_append_right _ (List.mem_singleton.mpr heq))
      rw [hc.others z hne]
      refine h.owned.heap.zero z ?_ (by simp)
      intro hin
      exact hz (List.mem_append_left _ ((Set.ext_iff.mp h.all z).mpr hin))
  have hkeep : ∀ z ∈ order, s'.slots z = d.store.slots z := fun z hz => (hc.keeps z hz).1
  refine ⟨⟨?_, hc.copies, hall, hc.stocked h.stocked⟩, rfl, ?_, ?_⟩
  · refine h.owned.setStore ?_ hheap ?_
    · intro b' z hz
      exact hkeep z ((Set.ext_iff.mp h.all z).mpr (mem_nodesOf hz))
    · intro b' z hz hmem'
      rcases List.mem_cons.mp hmem' with rfl | hold
      · exact hc.fresh ((Set.ext_iff.mp h.all z).mpr (mem_nodesOf hz))
      · exact h.owned.priv_free b' z hz hold
  · exact (hc.copies.liveNode (List.mem_append_right _ (List.mem_singleton.mpr rfl))).pos hv
      hc.copies.body
  · have hnext : s'.next o = root := hc.next
    rw [hnext]
    refine hchain.congr fun z hz => ?_
    simp only [Store.next, hkeep z (hmem z hz)]

/-- The room that the nodes `l` of a store take in another. -/
def blobItems (cfg : Config) (s : Store) (l : List Nat) : List Nat :=
  l.flatMap fun o => blobItem (s.slots o).value (valueAt cfg s (s.slots o).value).length

/-- A rebuild that stopped: no room was left, or a system call failed. -/
def Stopped (cfg : Config) (v : Env) (s : Store) (count : Nat) (items : List Nat) (e : Error) :
    Prop :=
  Refusal v e ∧ ∀ count' items', Room cfg s (count + count') (items ++ items') → v = .any ∧ e = .io

theorem rebuildChain_spec (hr : cfg.Ready) {source fuel : Nat} {l : List Nat}
    (hchain : IsChain (w.banks bank).store.next source l)
    (hnodes : ∀ o ∈ l, NodeOk cfg (w.banks bank).store b o)
    (h : Rebuilding cfg w.db chains acc order) (hroot : IsChain w.db.store.next root acc)
    (hhome : ∀ o ∈ acc, bucketOf cfg (w.db.store.slots o).key = b)
    (hf : v = .fair → l.length + 1 ≤ fuel ∧ 3 ≤ m.fuel) :
    (rebuildChain cfg m bank fuel source root).wp v t (fun r w' => ∃ s',
      w' = w.setStore .runtime s' ∧
      ((∃ root' acc' order', r = .ok root' ∧ Rebuilding cfg w'.db chains acc' order' ∧
          IsChain s'.next root' acc' ∧ (∀ o ∈ acc', bucketOf cfg (s'.slots o).key = b) ∧
          acc'.map (entryAt cfg s') = (l.map (entryAt cfg (w.banks bank).store)).reverse ++
            acc.map (entryAt cfg w.db.store) ∧
          Keeps cfg {o | o ∈ order} w.db.store s' ∧
          ∀ count items, Room cfg s' count items ↔
            Room cfg w.db.store (l.length + count) (blobItems cfg (w.banks bank).store l ++ items)) ∨
        ∃ e, r = .error e ∧ Stopped cfg v w.db.store l.length
          (blobItems cfg (w.banks bank).store l) e)) w := by
  induction l generalizing w source fuel acc order root with
  | nil =>
    have hend : source = 0 := hchain
    cases fuel with
    | zero =>
      cases v with
      | fair => exact absurd (hf rfl).1 (by simp)
      | any => exact rfl
    | succ fuel =>
      rw [rebuildChain, if_pos hend, wp_pure]
      refine ⟨w.db.store, (w.setStore_self .runtime).symm, Or.inl ⟨root, acc, order, rfl, h, hroot,
        hhome, rfl, .refl cfg _ _, ?_⟩⟩
      intro count items
      rw [List.length_nil, Nat.zero_add]
      rfl
  | cons o l ih =>
    obtain ⟨rfl, hne, hrest⟩ := hchain
    have hnode := hnodes source List.mem_cons_self
    have hread : Readable cfg (w.store (.bank bank)) source := hnode.readable
    have hdec : Decodes cfg (w.store (.bank bank)) (nodeAt (w.banks bank).store source).value :=
      hnode.decodes
    have hmask : root ≤ nodePointerMask.toNat := by
      rw [hroot.head_eq]
      cases hacc : acc with
      | nil => exact Nat.zero_le _
      | cons z zs =>
        exact h.owned.place_le hr.valid (Or.inr (by rw [hacc]; exact List.mem_cons_self))
    have hmap : isBlob (nodeAt (w.banks bank).store source).value = true → cfg.mode = .map :=
      fun hb => (hdec.blob hb).1
    cases fuel with
    | zero =>
      cases v with
      | fair => exact absurd (hf rfl).1 (by simp)
      | any => exact rfl
    | succ fuel =>
      rw [rebuildChain, if_neg hne, wp_bind, wp_onPlace, readNode_readable hread, andThen_ok,
        w.setStore_self, wp_bind]
      refine wp_mono (copyNode_spec (p := .bank bank) (q := .runtime) hr (by simp) hdec h.copies hmask
        fun hv => (hf hv).2) ?_
      rintro r _ ⟨s', rfl, ⟨o, rfl, hcopied⟩ | ⟨e, rfl, he, -⟩⟩
      · obtain ⟨h', hroot'⟩ := h.copied hcopied hdec.set_value hroot hr.valid
        have hentry : entryAt cfg s' o = entryAt cfg (w.banks bank).store source :=
          hcopied.entry (w.banks bank).store fun _ => rfl
        have hacc : ∀ z ∈ acc, z ∈ order := fun z hz =>
          (Set.ext_iff.mp h.all z).mpr (Or.inr hz)
        have hhome' : ∀ z ∈ o :: acc, bucketOf cfg (s'.slots z).key = b := by
          intro z hz
          rcases List.mem_cons.mp hz with rfl | hz
          · rw [hcopied.key]
            exact hnode.bucket
          · rw [(hcopied.keeps z (hacc z hz)).1]
            exact hhome z hz
        -- room for the rest behind this node
        have hroom' : ∀ count items, Room cfg s' (l.length + count)
              (blobItems cfg (w.banks bank).store l ++ items) ↔
            Room cfg w.db.store ((source :: l).length + count)
              (blobItems cfg (w.banks bank).store (source :: l) ++ items) := by
          intro count items
          rw [hcopied.room, List.length_cons, Nat.add_right_comm, blobItems, blobItems,
            List.flatMap_cons, List.append_assoc]
          rfl
        rw [andThen_ok]
        refine wp_mono (ih (w := w.setStore .runtime s') hrest
          (fun z hz => hnodes z (List.mem_cons_of_mem _ hz)) h' hroot' hhome' fun hv => ?_) ?_
        · have := hf hv
          rw [List.length_cons] at this
          omega
        · rintro r _ ⟨s₂, rfl, ⟨root', acc', order', rfl, h₂, hchain₂, hhome₂, hmap₂, hkeep₂, hroom₂⟩ |
            ⟨e, rfl, he⟩⟩
          · refine ⟨s₂, rfl, Or.inl ⟨root', acc', order', rfl, h₂, hchain₂, hhome₂, ?_, ?_, ?_⟩⟩
            · have hold : acc.map (entryAt cfg s') = acc.map (entryAt cfg w.db.store) :=
                List.map_congr_left fun z hz => (hcopied.keeps z (hacc z hz)).2
              rw [hmap₂, List.map_cons, List.map_cons, List.reverse_cons, List.append_assoc, ← hold,
                ← hentry]
              rfl
            · exact hcopied.keeps.trans (hkeep₂.mono fun z hz => List.mem_append_left _ hz)
            · intro count items
              exact (hroom₂ count items).trans (hroom' count items)
          · refine ⟨s₂, rfl, Or.inr ⟨e, rfl, he.1, ?_⟩⟩
            intro count' items' hroom
            exact he.2 count' items' ((hroom' count' items').mpr hroom)
      · rw [andThen_error]
        refine ⟨s', rfl, Or.inr ⟨e, rfl, he.refusal, ?_⟩⟩
        intro count' items' hroom
        refine he.io hr h.stocked hmap (l.length + count')
          (blobItems cfg (w.banks bank).store l ++ items') ?_
        rw [List.length_cons, Nat.add_right_comm, blobItems, List.flatMap_cons,
          List.append_assoc] at hroom
        exact hroom

/-- The chain in progress becomes the chain of its bucket. -/
theorem Rebuilding.linked (h : Rebuilding cfg d chains acc order) (hroot : IsChain d.store.next root acc)
    (hhome : ∀ o ∈ acc, bucketOf cfg (d.store.slots o).key = b) (hempty : chains b = []) :
    Rebuilding cfg (d.setHead b root) (Function.update chains b acc) [] order := by
  have hsplit : chains b = [] ++ ([] ++ []) := hempty
  have hpriv : ∀ o ∈ acc, o ∈ {o | o ∈ acc} := fun _ ho => ho
  have hswing := h.owned.swing_head (show chains b = [] ++ [] from hempty) hroot hpriv hhome
  have hset : {o | o ∈ acc} \ {o | o ∈ acc} ∪ {o | o ∈ ([] : List Nat)} = {o | o ∈ ([] : List Nat)} := by
    ext o
    simp
  have hnodes := nodesOf_swing hsplit hpriv
  rw [List.append_nil, hset] at hswing
  rw [List.append_nil, List.nil_append, hset] at hnodes
  exact ⟨hswing, h.copies, h.all.trans hnodes.symm, h.stocked⟩

theorem rebuildBuckets_spec (hr : cfg.Ready) {buckets : List Nat} {schains : Nat → List Nat}
    (hs : SnapshotOk cfg w bank buckets schains) (hlt : ∀ b ∈ buckets, b < cfg.bucketCount)
    (hnd : buckets.Nodup) (h : Rebuilding cfg w.db chains [] order)
    (hempty : ∀ b ∈ buckets, chains b = []) (hf : v = .fair → m.Enough cfg) :
    (rebuildBuckets cfg m bank buckets).wp v t (fun r w' => ∃ d', w' = { w with db := d' } ∧
      Frame w.db d' ∧
      ((∃ chains' order', r = .ok () ∧ Rebuilding cfg d' chains' [] order' ∧
          content cfg d'.store chains' = fun b => if b ∈ buckets then
            (content cfg (w.banks bank).store schains b).reverse else content cfg w.db.store chains b) ∨
        ∃ e, r = .error e ∧ Stopped cfg v w.db.store (buckets.flatMap schains).length
          (blobItems cfg (w.banks bank).store (buckets.flatMap schains)) e)) w := by
  induction buckets generalizing w chains order with
  | nil =>
    rw [rebuildBuckets, wp_pure]
    refine ⟨w.db, rfl, .refl _, Or.inl ⟨chains, order, rfl, h, ?_⟩⟩
    funext b
    simp
  | cons b rest ih =>
    obtain ⟨offset, hoffset⟩ := hs.root b List.mem_cons_self
    have hchain := hs.chain b List.mem_cons_self
    have hb := hlt b List.mem_cons_self
    obtain ⟨hnot, hnd'⟩ := List.nodup_cons.mp hnd
    have hhead : chains b = [] := hempty b List.mem_cons_self
    have hfuel : v = .fair → (schains b).length + 1 ≤ m.fuel ∧ 3 ≤ m.fuel := by
      intro hv
      have h1 := hf hv
      have h2 := hchain.length_le
      rw [Machine.Enough] at h1
      rw [maximumNodes] at h2
      omega
    have hsplit : (b :: rest).flatMap schains = schains b ++ rest.flatMap schains := List.flatMap_cons
    have hitems : blobItems cfg (w.banks bank).store (schains b ++ rest.flatMap schains) =
        blobItems cfg (w.banks bank).store (schains b) ++
          blobItems cfg (w.banks bank).store (rest.flatMap schains) := List.flatMap_append
    rw [rebuildBuckets, wp_bind, readRoot_ok hoffset, andThen_ok, wp_bind]
    refine wp_mono (rebuildChain_spec hr hchain.chain hchain.nodes h rfl (by simp) hfuel) ?_
    rintro r _ ⟨s', rfl, ⟨root', acc', order', rfl, h', hroot', hhome', hentries, hkeep, hroom⟩ |
      ⟨e, rfl, he⟩⟩
    · have hzero : (w.setStore .runtime s').db.runtimeHeads b = 0 := by
        have hnil := h'.owned.chain b
        rw [hhead] at hnil
        exact hnil
      rw [andThen_ok, wp_bind, wp_onDb, casHead_spec hb hzero, andThen_ok, if_pos rfl]
      have hlinked := h'.linked hroot' hhome' hhead
      have hrest : SnapshotOk cfg { w with db := (w.setStore .runtime s').db.setHead b root' } bank rest
          schains := ⟨fun b' hb' => hs.root b' (List.mem_cons_of_mem _ hb'),
        fun b' hb' => hs.chain b' (List.mem_cons_of_mem _ hb')⟩
      have hempty' : ∀ b' ∈ rest, Function.update chains b acc' b' = [] := by
        intro b' hb'
        have hne : b' ≠ b := by
          rintro rfl
          exact hnot hb'
        rw [Function.update_of_ne hne]
        exact hempty b' (List.mem_cons_of_mem _ hb')
      refine wp_mono (ih hrest (fun b' hb' => hlt b' (List.mem_cons_of_mem _ hb')) hnd' hlinked
        hempty') ?_
      rintro r _ ⟨d', rfl, hframe, hout⟩
      have hframe' : Frame w.db ((w.setStore .runtime s').db.setHead b root') := rfl
      refine ⟨d', rfl, hframe'.trans hframe, ?_⟩
      rcases hout with ⟨chains', order'', rfl, h'', hcontent⟩ | ⟨e, rfl, he⟩
      · refine Or.inl ⟨chains', order'', rfl, h'', ?_⟩
        rw [hcontent]
        funext b'
        by_cases hin : b' ∈ rest
        · rw [if_pos hin, if_pos (List.mem_cons_of_mem _ hin)]
          rfl
        · rw [if_neg hin]
          by_cases heq : b' = b
          · rw [heq, if_pos List.mem_cons_self, content, Function.update_self, content]
            exact hentries.trans (List.append_nil _)
          · rw [if_neg (by simp [heq, hin]), content, Function.update_of_ne heq]
            exact List.map_congr_left fun o ho =>
              (hkeep o ((Set.ext_iff.mp h.all o).mpr (mem_nodesOf ho))).2
      · refine Or.inr ⟨e, rfl, he.1, ?_⟩
        intro count items hroom'
        rw [hsplit, hitems, List.length_append, Nat.add_assoc, List.append_assoc] at hroom'
        exact he.2 count items ((hroom _ _).mpr hroom')
    · rw [andThen_error]
      refine ⟨_, rfl, rfl, Or.inr ⟨e, rfl, he.1, ?_⟩⟩
      intro count items hroom'
      rw [hsplit, hitems, List.length_append, Nat.add_assoc, List.append_assoc] at hroom'
      exact he.2 _ _ hroom'

/-- What a rebuild from the chains of a bank restores: every chain in reverse. -/
def recovered (cfg : Config) (s : Store) (schains : Nat → List Nat) (b : Nat) :
    List (Key × List UInt8) :=
  if b < cfg.bucketCount then (content cfg s schains b).reverse else []

/-- The nodes of a snapshot in the order in which they are read. -/
def snapshotNodes (cfg : Config) (schains : Nat → List Nat) : List Nat :=
  (List.range cfg.bucketCount).flatMap schains

/-- New runtime files have room for the snapshot. -/
def Recoverable (cfg : Config) (s : Store) (schains : Nat → List Nat) : Prop :=
  Room cfg Store.created (snapshotNodes cfg schains).length
    (blobItems cfg s (snapshotNodes cfg schains))

theorem rebuildRuntime_spec (hr : cfg.Ready) {schains : Nat → List Nat}
    (hs : Validated cfg w bank schains) {f : HeadsFile} {generation : Nat}
    (hfresh : w.db = Db.fresh f generation) (hf : v = .fair → m.Enough cfg) :
    (rebuildRuntime cfg m bank).wp v t (fun r w' => ∃ d', w' = { w with db := d' } ∧
      Frame w.db d' ∧
      ((r = .ok () ∧ Holds cfg d'.store d'.runtimeHeads
          (recovered cfg (w.banks bank).store schains)) ∨
        ∃ e, r = .error e ∧ Refusal v e ∧
          (Recoverable cfg (w.banks bank).store schains → v = .any ∧ e = .io))) w := by
  have hstart : Rebuilding cfg w.db (fun _ => []) [] [] := by
    rw [hfresh]
    exact rebuilding_fresh cfg f generation
  refine wp_mono (rebuildBuckets_spec hr hs (fun b hb => List.mem_range.mp hb) List.nodup_range
    hstart (fun _ _ => rfl) hf) ?_
  rintro r _ ⟨d', rfl, hframe, ⟨chains', order', rfl, h, hcontent⟩ | ⟨e, rfl, he, hroom⟩⟩
  · refine ⟨d', rfl, hframe, Or.inl ⟨rfl, chains', ?_, ?_⟩⟩
    · have hnone : {o | o ∈ ([] : List Nat)} = ∅ := by
        ext o
        simp
      have howned := h.owned
      rw [hnone] at howned
      exact howned
    · rw [hcontent]
      funext b
      simp only [List.mem_range, recovered]
      rfl
  · refine ⟨d', rfl, hframe, Or.inr ⟨e, rfl, he, fun hfits => hroom 0 [] ?_⟩⟩
    rw [Nat.add_zero, List.append_nil, hfresh]
    exact hfits

end Rebuild

section Records
variable {s : Store} {schains : Nat → List Nat} {bank b o : Nat} {key : Key}

/-- A validated snapshot has one record a key. -/
theorem recovered_found (h : Validated cfg w bank schains) (hb : b < cfg.bucketCount)
    (ho : o ∈ schains b) :
    Buckets.stack (bucketOf cfg) (recovered cfg (w.banks bank).store schains)
        ((w.banks bank).store.slots o).key = [(entryAt cfg (w.banks bank).store o).2] := by
  have hchain := h.chain b (List.mem_range.mpr hb)
  obtain ⟨l, r, hsplit⟩ := List.append_of_mem ho
  have hpair := hchain.distinct
  rw [hsplit] at hpair
  obtain ⟨-, hright, hacross⟩ := List.pairwise_append.mp hpair
  have hleft : ∀ e ∈ l.map (entryAt cfg (w.banks bank).store),
      e.1 ≠ ((w.banks bank).store.slots o).key := by
    intro e he
    obtain ⟨z, hz, rfl⟩ := List.mem_map.mp he
    exact hacross z hz o List.mem_cons_self
  have hbehind : ∀ e ∈ r.map (entryAt cfg (w.banks bank).store),
      e.1 ≠ ((w.banks bank).store.slots o).key := by
    intro e he
    obtain ⟨z, hz, rfl⟩ := List.mem_map.mp he
    exact ((List.pairwise_cons.mp hright).1 z hz).symm
  have hvalues : Buckets.values (content cfg (w.banks bank).store schains b)
      ((w.banks bank).store.slots o).key = [(entryAt cfg (w.banks bank).store o).2] := by
    rw [content, hsplit, List.map_append, List.map_cons, Buckets.values_append,
      Buckets.values_eq_nil hleft, List.nil_append, Buckets.values_cons,
      Buckets.values_eq_nil hbehind]
    exact if_pos rfl
  rw [Buckets.stack, (hchain.nodes o ho).bucket, recovered, if_pos hb, Buckets.values_reverse, hvalues]
  rfl

theorem recovered_absent (h : ∀ b < cfg.bucketCount, ∀ o ∈ schains b, (s.slots o).key ≠ key) :
    Buckets.stack (bucketOf cfg) (recovered cfg s schains) key = [] := by
  rw [Buckets.stack, recovered]
  by_cases hb : bucketOf cfg key < cfg.bucketCount
  · rw [if_pos hb, Buckets.values_reverse, Buckets.values_eq_nil]
    · rfl
    · intro e he
      obtain ⟨o, ho, rfl⟩ := List.mem_map.mp he
      exact h _ hb o ho
  · rw [if_neg hb]
    rfl

/-- No key twice, in one bucket or in two. -/
theorem Validated.distinct (h : Validated cfg w bank schains) {b' o' : Nat}
    (hb : b < cfg.bucketCount) (hb' : b' < cfg.bucketCount) (ho : o ∈ schains b) (ho' : o' ∈ schains b')
    (hkey : ((w.banks bank).store.slots o).key = ((w.banks bank).store.slots o').key) :
    b = b' ∧ o = o' := by
  have hchain := h.chain b (List.mem_range.mpr hb)
  have hchain' := h.chain b' (List.mem_range.mpr hb')
  have hbb : b = b' := by
    rw [← (hchain.nodes o ho).bucket, ← (hchain'.nodes o' ho').bucket, hkey]
  subst hbb
  refine ⟨rfl, ?_⟩
  have hsymm : Std.Symm fun o o' => ((w.banks bank).store.slots o).key ≠
      ((w.banks bank).store.slots o').key := ⟨fun _ _ hne => hne.symm⟩
  by_contra hne
  exact hchain.distinct.forall ho ho' hne hkey

end Records

end FlorestaDb
