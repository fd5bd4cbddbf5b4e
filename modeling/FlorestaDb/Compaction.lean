import FlorestaDb.BatchInsert

/-! Compaction in a sequential run. A node of a thinly loaded page is copied to a fresh
slot and the link to it is swung; the old slot keeps its stale content until the pass is
over and is tombstoned before it is given back. -/
namespace FlorestaDb
open Program Program.Prog Allocator Chain

variable {cfg : Config} {m : Machine} {v : Env} {t : Tid} {d : Db} {chains : Nat → List Nat}
  {priv : Set Nat} {bare bareBlobs : Set Allocation} {b o fuel : Nat} {l r : List Nat}

section FindOffset

/-- The rest of a search for a place that is not among the places `l` already passed. -/
theorem findOffset_rest (hr : cfg.Ready)
    (h : Owned cfg d.store d.runtimeHeads chains priv bare bareBlobs)
    (hb : b < cfg.bucketCount) (hc : chains b = l ++ r) (hl : o ∉ l)
    (hf : v = .fair → r.length + 1 ≤ fuel)
    {Q : Except Error (Option (Node × Link)) → Db → Prop}
    (hfound : ∀ l r, chains b = l ++ o :: r → Q (.ok (some (nodeAt d.store o, linkAfter b l))) d)
    (habsent : o ∉ chains b → Q (.ok none) d) :
    (findOffset cfg b o fuel (some ⟨d.runtimeHeads b, linkAfter b l, r.headD 0⟩)).wp v t Q d := by
  induction r generalizing l fuel with
  | nil =>
    cases fuel with
    | zero =>
      cases v with
      | fair => exact absurd (hf rfl) (by simp)
      | any => exact rfl
    | succ fuel =>
      rw [findOffset]
      dsimp only
      rw [if_pos List.headD_nil, wp_bind, loadHead_spec hb, andThen_ok, if_pos rfl, wp_pure]
      apply habsent
      rw [hc, List.append_nil]
      exact hl
  | cons x r ih =>
    cases fuel with
    | zero =>
      cases v with
      | fair => exact absurd (hf rfl) (by simp)
      | any => exact rfl
    | succ fuel =>
      have hx : x ∈ chains b := by simp [hc]
      have hne : ¬x = 0 := (h.chain b).ne_zero x hx
      rw [findOffset]
      dsimp only
      rw [List.headD_cons, if_neg hne, wp_bind]
      apply observe_spec hr h hb hc
      rw [andThen_ok]
      dsimp only
      by_cases hxo : x = o
      · subst hxo
        rw [if_pos rfl, wp_pure]
        exact hfound l r hc
      · rw [if_neg hxo]
        have hchain := h.chain b
        rw [hc] at hchain
        have hnext : (nodeAt d.store x).next = r.headD 0 := hchain.split.2.2.head_eq
        rw [hnext, ← linkAfter_append b l x]
        apply ih
        · simp [hc]
        · simp only [List.mem_append, List.mem_singleton, not_or]
          exact ⟨hl, Ne.symm hxo⟩
        · intro hv
          have hlen := hf hv
          simp only [List.length_cons] at hlen
          omega

theorem findOffset_spec (hr : cfg.Ready)
    (h : Owned cfg d.store d.runtimeHeads chains priv bare bareBlobs)
    (hb : b < cfg.bucketCount) (hf : v = .fair → m.Enough cfg)
    {Q : Except Error (Option (Node × Link)) → Db → Prop}
    (hfound : ∀ l r, chains b = l ++ o :: r → Q (.ok (some (nodeAt d.store o, linkAfter b l))) d)
    (habsent : o ∉ chains b → Q (.ok none) d) :
    (findOffset cfg b o m.fuel none).wp v t Q d := by
  have hlen := h.chain_length hr.valid b
  cases hfuel : m.fuel with
  | zero =>
    cases v with
    | fair => exact absurd (Machine.Enough.one hf rfl) (by omega)
    | any => exact rfl
  | succ fuel =>
    rw [findOffset, wp_bind, linkValue, loadHead_spec hb, andThen_ok]
    have hhead := (h.chain b).head_eq
    nth_rewrite 2 [hhead]
    rw [← linkAfter_nil b]
    apply findOffset_rest hr h hb (List.nil_append _).symm List.not_mem_nil _ hfound habsent
    intro hv
    have henough := hf hv
    rw [Machine.Enough, hfuel] at henough
    omega

end FindOffset

section Records
variable {s s' : Store}

/-- The key and the value word of every node, bucket by bucket. -/
def records (s : Store) (chains : Nat → List Nat) (b : Nat) : List (Key × UInt64) :=
  (chains b).map fun o => ((s.slots o).key, (s.slots o).value)

theorem records_same (h : ∀ b, ∀ o ∈ chains b, (s'.slots o).key = (s.slots o).key ∧
    (s'.slots o).value = (s.slots o).value) : records s' chains = records s chains := by
  funext b
  apply List.map_congr_left
  intro o ho
  rw [(h b o ho).1, (h b o ho).2]

/-- One place of a chain is exchanged for another with the same key and value word. -/
theorem records_exchange {o' : Nat} (hc : chains b = l ++ o :: r)
    (hnew : (s.slots o').key = (s.slots o).key ∧ (s.slots o').value = (s.slots o).value) :
    records s (Function.update chains b (l ++ o' :: r)) = records s chains := by
  funext b'
  by_cases hb : b' = b
  · subst hb
    simp [records, hc, hnew.1, hnew.2]
  · simp [records, hb]

/-- The content is determined by the records and the blob bytes. -/
theorem content_records {chains' : Nat → List Nat} (h : records s' chains' = records s chains)
    (hbytes : s'.bytes = s.bytes) : content cfg s' chains' = content cfg s chains := by
  have hview : ∀ (s : Store) (chains : Nat → List Nat) (b : Nat), content cfg s chains b =
      (records s chains b).map fun e => (e.1, valueAt cfg s e.2) := by
    intro s chains b
    rw [content, records, List.map_map]
    rfl
  funext b
  rw [hview, hview, h]
  simp only [valueAt, hbytes]

end Records

section Exchange
variable {s : Store} {heads : Nat → Nat} {o' : Nat}

theorem nodesOf_exchange (h : Owned cfg s heads chains ∅ bare bareBlobs)
    (hc : chains b = l ++ o :: r) :
    nodesOf (Function.update chains b (l ++ o' :: r)) ∅ = insert o' (nodesOf chains ∅ \ {o}) := by
  rw [← nodesOf_unlink h hc]
  ext x
  simp only [nodesOf, Set.mem_ofPred_eq, mem_update_chains, Set.mem_insert_iff, List.mem_append,
    List.mem_cons, Set.mem_empty_iff_false, or_false]
  constructor
  · rintro ⟨b', ⟨rfl, hx | rfl | hx⟩ | ⟨hb, hx⟩⟩
    · exact Or.inr ⟨b', Or.inl ⟨rfl, Or.inl hx⟩⟩
    · exact Or.inl rfl
    · exact Or.inr ⟨b', Or.inl ⟨rfl, Or.inr hx⟩⟩
    · exact Or.inr ⟨b', Or.inr ⟨hb, hx⟩⟩
  · rintro (rfl | ⟨b', ⟨rfl, hx | hx⟩ | ⟨hb, hx⟩⟩)
    · exact ⟨b, Or.inl ⟨rfl, Or.inr (Or.inl rfl)⟩⟩
    · exact ⟨b', Or.inl ⟨rfl, Or.inl hx⟩⟩
    · exact ⟨b', Or.inl ⟨rfl, Or.inr (Or.inr hx)⟩⟩
    · exact ⟨b', Or.inr ⟨hb, hx⟩⟩

/- A copy at `o'` of the node at `o`, ready to take its place: both have the same key and
   next field, but the heap has the copy and no longer the original, which is bare. -/
structure Copied (cfg : Config) (s : Store) (heads : Nat → Nat) (chains : Nat → List Nat)
    (bare : Set Allocation) (b o o' : Nat) (l r : List Nat) : Prop where
  place : chains b = l ++ o :: r
  chain : ∀ b, IsChain s.next (heads b) (chains b)
  home : ∀ b, ∀ x ∈ chains b, bucketOf cfg (s.slots x).key = b
  heap : Heap cfg s (insert o' (nodesOf chains ∅ \ {o})) bare ∅
  fresh : o' ∉ nodesOf chains ∅
  key : (s.slots o').key = (s.slots o).key
  value : (s.slots o').value = (s.slots o).value
  next : s.next o' = r.headD 0

theorem Copied.nonzero (h : Copied cfg s heads chains bare b o o' l r) (hv : cfg.Valid) :
    o' ≠ 0 := (h.heap.liveNode (Set.mem_insert _ _)).pos hv h.heap.body

theorem Copied.place_le (h : Copied cfg s heads chains bare b o o' l r) (hv : cfg.Valid) :
    o' ≤ nodePointerMask.toNat :=
  Nat.le_of_lt ((h.heap.liveNode (Set.mem_insert _ _)).bounds hv h.heap.body).2.2

theorem Copied.tail (h : Copied cfg s heads chains bare b o o' l r) :
    IsChain s.next (r.headD 0) r := by
  have hchain := h.chain b
  rw [h.place] at hchain
  have hrest := hchain.split.2.2
  rw [hrest.head_eq] at hrest
  exact hrest

/-- The owner of the swung chain, once its heap and its chain are known. -/
theorem Copied.owned {s' : Store} {heads' : Nat → Nat}
    (h : Copied cfg s heads chains bare b o o' l r)
    (hnodes : nodesOf (Function.update chains b (l ++ o' :: r)) ∅ =
      insert o' (nodesOf chains ∅ \ {o}))
    (hheap : Heap cfg s' (insert o' (nodesOf chains ∅ \ {o})) bare ∅)
    (hkey : ∀ x, (s'.slots x).key = (s.slots x).key)
    (hother : ∀ b', b' ≠ b → IsChain s'.next (heads' b') (chains b'))
    (hself : IsChain s'.next (heads' b) (l ++ o' :: r)) :
    Owned cfg s' heads' (Function.update chains b (l ++ o' :: r)) ∅ bare ∅ where
  heap := by
    rw [hnodes]
    exact hheap
  chain := by
    intro b'
    by_cases hb : b' = b
    · subst hb
      rw [Function.update_self]
      exact hself
    · rw [Function.update_of_ne hb]
      exact hother b' hb
  home := by
    intro b' x hx
    rw [hkey]
    rcases mem_update_chains.mp hx with ⟨rfl, hnew⟩ | ⟨-, hold⟩
    · simp only [List.mem_append, List.mem_cons] at hnew
      rcases hnew with hl | rfl | hr
      · exact h.home b' x (by simp [h.place, hl])
      · rw [h.key]
        exact h.home b' o (by simp [h.place])
      · exact h.home b' x (by simp [h.place, hr])
    · exact h.home b' x hold
  priv_free := fun _ _ _ hx => hx

/-- Swinging the link from the original to its copy. -/
theorem exchangeCopy_spec (hr : cfg.Ready)
    (h : Copied cfg d.store d.runtimeHeads chains bare b o o' l r)
    (hnodes : nodesOf (Function.update chains b (l ++ o' :: r)) ∅ =
      insert o' (nodesOf chains ∅ \ {o})) (hb : b < cfg.bucketCount) :
    (compareExchangeLink cfg (linkAfter b l) o o').wp v t (fun res d' => res = .ok true ∧
      Frame d d' ∧ d'.store.bytes = d.store.bytes ∧ d'.store.body = d.store.body ∧
      Owned cfg d'.store d'.runtimeHeads (Function.update chains b (l ++ o' :: r)) ∅ bare ∅ ∧
      records d'.store (Function.update chains b (l ++ o' :: r)) = records d.store chains) d := by
  have hchain := h.chain b
  rw [h.place] at hchain
  have hcopy : IsChain d.store.next o' (o' :: r) := by
    refine ⟨rfl, h.nonzero hr.valid, ?_⟩
    rw [h.next]
    exact h.tail
  have hrec := records_exchange h.place ⟨h.key, h.value⟩
  rcases List.eq_nil_or_concat' l with rfl | ⟨l, p, rfl⟩
  · have hhead : d.runtimeHeads b = o := hchain.head_eq
    rw [linkAfter_nil, compareExchangeLink, casHead_spec hb hhead]
    refine ⟨rfl, rfl, rfl, rfl, ?_, hrec⟩
    apply h.owned hnodes h.heap (fun _ => rfl)
    · intro b' hb'
      rw [show (d.setHead b o').runtimeHeads b' = d.runtimeHeads b' from
        Function.update_of_ne hb' _ _]
      exact h.chain b'
    · rw [show (d.setHead b o').runtimeHeads b = o' from Function.update_self _ _ _]
      exact hcopy
  · have hsplit : ∀ u : List Nat, (l ++ [p]) ++ u = l ++ p :: u := by simp
    have hp : p ∈ chains b := by simp [h.place]
    have hnd : (chains b).Nodup := (h.chain b).nodup
    have hpo : p ≠ o := by
      rintro rfl
      rw [h.place] at hnd
      simp [List.nodup_append] at hnd
    have hpo' : p ≠ o' := by
      rintro rfl
      exact h.fresh (mem_nodesOf hp)
    have hmem : p ∈ insert o' (nodesOf chains ∅ \ {o}) := Or.inr ⟨mem_nodesOf hp, hpo⟩
    have hy := h.place_le hr.valid
    rw [hsplit] at hchain
    have hnext : (d.store.slots p).next = o := hchain.split.2.2.head_eq
    have hkey := setNext_said d.store p o'
    rw [linkAfter_append, compareExchangeLink, wp_onStore,
      compareExchangeNext_spec hr.valid h.heap.body (h.heap.liveNode hmem) hnext hy]
    refine ⟨rfl, rfl, rfl, rfl, ?_, ?_⟩
    · apply h.owned hnodes (h.heap.setNext hy).1 (fun x => (hkey x).1)
      · intro b' hb'
        rw [next_setNext _ _ hy]
        refine (h.chain b').congr fun z hz => Function.update_of_ne ?_ _ _
        rintro rfl
        exact hb' ((h.home b' z hz).symm.trans (h.home b z hp))
      · rw [next_setNext _ _ hy, hsplit]
        have hw : IsSegment d.store.next (r.headD 0) o' [o'] :=
          ⟨rfl, h.nonzero hr.valid, h.next⟩
        have hold : IsChain d.store.next (d.runtimeHeads b) (l ++ p :: ([o] ++ r)) := hchain
        exact hold.redirect hw (by simpa using hpo')
    · rw [← hrec]
      exact records_same fun b' x _ => hkey x

end Exchange

section Relocate
variable {s s' : Store} {heads : Nat → Nat} {o' : Nat}

/-- A node just written with the key and the value word of the node at `o`. -/
theorem Owned.copied (h : Owned cfg s heads chains ∅ bare ∅) (hv : cfg.Valid)
    (hc : chains b = l ++ o :: r)
    (hplaced : Placed s s' (nodesOf chains ∅ \ {o}) o' (s.slots o).key (s.slots o).value)
    (hheap : Heap cfg s' (insert o' (nodesOf chains ∅ \ {o})) (insert (nodeAlloc cfg o) bare) ∅)
    (hnew : nodeAlloc cfg o' ∉ s.body.live) :
    Copied cfg (s'.setSlot o' (·.withNext (r.headD 0))) heads chains
      (insert (nodeAlloc cfg o) bare) b o o' l r := by
  have hfresh : o' ∉ nodesOf chains ∅ := fun ho => hnew (h.heap.liveNode ho).live
  have hy : r.headD 0 ≤ nodePointerMask.toNat := by
    cases r with
    | nil => exact Nat.zero_le _
    | cons x u => exact h.place_le hv (mem_nodesOf (b := b) (by simp [hc]))
  have hslots : ∀ b, ∀ x ∈ chains b,
      (s'.setSlot o' (·.withNext (r.headD 0))).slots x = s.slots x := by
    intro b' x hx
    have hne : x ≠ o' := by
      rintro rfl
      exact hfresh (mem_nodesOf hx)
    rw [setSlot_slots_ne s' _ hne, hplaced.others x hne]
  have ho : o ∈ chains b := by simp [hc]
  refine ⟨hc, ?_, ?_, (hheap.setNext hy).1, hfresh, ?_, ?_, ?_⟩
  · intro b'
    refine (h.chain b').congr fun x hx => ?_
    simp only [Store.next, hslots b' x hx]
  · intro b' x hx
    rw [hslots b' x hx]
    exact h.home b' x hx
  · rw [hslots b o ho, setSlot_slots_self, hplaced.slot, Slot.withNext]
  · rw [hslots b o ho, setSlot_slots_self, hplaced.slot, Slot.withNext]
  · rw [Store.next, setSlot_slots_self, Slot.withNext_next _ hy]

/-- A refused copy: the node is what it was. -/
theorem Owned.recopied (h : Owned cfg s heads chains ∅ bare ∅) (ho : o ∈ chains b)
    (hheap : Heap cfg s' (nodesOf chains ∅ \ {o}) (insert (nodeAlloc cfg o) bare)
      (∅ ∪ blobSet cfg s (s.slots o).value))
    (hslots : s'.slots = s.slots) (hbytes : s'.bytes = s.bytes) :
    Owned cfg s' heads chains ∅ bare ∅ := by
  have hN : o ∈ nodesOf chains ∅ := mem_nodesOf ho
  have hok : EntryOk cfg s' o := by
    have hentry := h.heap.entry o hN
    refine ⟨?_, ?_, ?_⟩
    · rw [hslots]
      exact hentry.checksum
    · rw [hslots]
      exact hentry.set_value
    · rw [hslots, hbytes]
      exact hentry.blob
  have hset : blobSet cfg s' (s'.slots o).value = blobSet cfg s (s.slots o).value := by
    simp only [blobSet, hslots, hbytes]
  have hback := hheap.adopt (Set.mem_insert _ _) hok (by rw [hset, Set.empty_union])
  have hbare : nodeAlloc cfg o ∉ bare := fun hx => h.heap.bare_free _ hx hN
  rw [hset, Set.empty_union, Set.sdiff_self, Set.insert_sdiff_self_of_notMem hbare,
    Set.insert_sdiff_singleton, Set.insert_eq_of_mem hN] at hback
  exact h.setStore (fun _ _ _ => by rw [hslots]) hback h.priv_free

/-- What relocating the node at `o` gives: a copy in its place, or nothing changed. -/
def Relocated (cfg : Config) (v : Env) (chains : Nat → List Nat) (bare : Set Allocation) (o : Nat)
    (d : Db) (res : Except Error (Option Allocation)) (s : Store) (heads : Nat → Nat) : Prop :=
  s.bytes = d.store.bytes ∧
    ((∃ chains' o', res = .ok (some (nodeAlloc cfg o)) ∧
        Owned cfg s heads chains' ∅ (insert (nodeAlloc cfg o) bare) ∅ ∧
        nodesOf chains' ∅ = insert o' (nodesOf chains ∅ \ {o}) ∧
        records s chains' = records d.store chains ∧
        Fresh cfg.bodyLayout nodeSize nodeAlignment d.store.body s.body (nodeAlloc cfg o')) ∨
      ∃ e, res = .error e ∧ Refusal v e ∧ Owned cfg s heads chains ∅ bare ∅ ∧
        records s chains = records d.store chains)

theorem relocateLoop_spec (hr : cfg.Ready) (h : Owned cfg d.store d.runtimeHeads chains ∅ bare ∅)
    (ho : o ∈ chains b) (hf : v = .fair → m.Enough cfg) (hfuel : v = .fair → 1 ≤ fuel) :
    (relocateLoop cfg m b o fuel).wp v t (fun res d' => Frame d d' ∧
      Relocated cfg v chains bare o d res d'.store d'.runtimeHeads) d := by
  have hb := h.bucket_lt hr.valid ho
  have hN : o ∈ nodesOf chains ∅ := mem_nodesOf ho
  cases fuel with
  | zero =>
    cases v with
    | fair => exact absurd (hfuel rfl) (by decide)
    | any => exact rfl
  | succ fuel =>
    rw [relocateLoop, wp_bind]
    refine findOffset_spec hr h hb hf ?_ fun habs => absurd ho habs
    intro l r hc
    have hentry := h.heap.entry o hN
    have hready : ValueReady cfg d.store (∅ ∪ blobSet cfg d.store (d.store.slots o).value)
        (d.store.slots o).value :=
      ⟨hentry.set_value, hentry.blob, Set.subset_union_right⟩
    rw [andThen_ok]
    dsimp only [nodeAt]
    rw [wp_bind, wp_onStore]
    refine wp_mono (allocateNode_spec hr (h.heap.forget hN) hready (Machine.Enough.three hf)) ?_
    rintro _ s₁ ⟨-, ⟨o', rfl, hplaced, hheap, hfresh⟩ |
      ⟨e, rfl, he, hheap, hbytes, hslots, -, -⟩⟩
    · rw [Set.empty_union, Set.sdiff_self] at hheap
      have hnew : nodeAlloc cfg o' ∉ d.store.body.live :=
        hheap.body.pages.fresh_not_mem hfresh.live
      have hcopy := h.copied hr.valid hc hplaced hheap hnew
      have hchain := h.chain b
      rw [hc] at hchain
      have hnext : (d.store.slots o).next = r.headD 0 := hchain.split.2.2.head_eq
      have hy : r.headD 0 ≤ nodePointerMask.toNat := by
        rw [← hnext]
        exact Slot.next_le _
      have hzero : (s₁.slots o').next = 0 := by
        rw [hplaced.slot]
        exact fresh_next
      rw [andThen_ok, wp_bind, wp_attempt, wp_onStore, hnext, nodeAlloc_offset]
      refine (setPrivateNext_spec hr.valid (by exact hheap.body)
        (by exact hheap.liveNode (Set.mem_insert _ _)) hzero hy).mpr ?_
      rw [andThen_ok]
      dsimp only
      rw [wp_bind]
      refine wp_mono (exchangeCopy_spec (d := { d with
        store := s₁.setSlot o' (·.withNext (r.headD 0)) }) hr hcopy (nodesOf_exchange h hc) hb) ?_
      rintro _ d' ⟨rfl, hframe, hbytes, hbody, howned, hrec⟩
      have hlive : nodeAlloc cfg o ∈ d'.store.body.live :=
        (howned.heap.live_iff _).mpr (Or.inr (Set.mem_insert _ _))
      obtain ⟨hfits, hblock⟩ := howned.heap.body.pages.fits _ hlive
      have hfor : allocationFor cfg.bodyLayout o nodeSize = .ok (nodeAlloc cfg o) :=
        allocationFor_fits hr.valid.bodyLayout_ok hfits
          (Nat.lt_of_lt_of_le hblock howned.heap.body.pages.pages_le)
      rw [andThen_ok, if_pos rfl, hfor, wp_bind, wp_ofExcept, andThen_ok, wp_pure]
      have hstart : Frame d { d with store := s₁.setSlot o' (·.withNext (r.headD 0)) } := rfl
      refine ⟨hstart.trans hframe, hbytes.trans hplaced.bytes, Or.inl ⟨_, o', rfl, howned, ?_, ?_, ?_⟩⟩
      · exact nodesOf_exchange h hc
      · rw [hrec]
        refine records_same fun b' x hx => ?_
        have hne : x ≠ o' := by
          rintro rfl
          exact hcopy.fresh (mem_nodesOf hx)
        rw [setSlot_slots_ne s₁ _ hne, hplaced.others x hne]
        exact ⟨rfl, rfl⟩
      · rw [hbody]
        exact hfresh
    · rw [andThen_error]
      refine ⟨rfl, hbytes, Or.inr ⟨e, rfl, he.refusal, h.recopied ho hheap hslots hbytes, ?_⟩⟩
      exact records_same fun b' x _ => by rw [hslots]; exact ⟨rfl, rfl⟩

end Relocate

section Slots
variable {s : Store} {p k : Nat}

/-- The node slots of a page. -/
def pageSlots (cfg : Config) (p : Nat) : List Nat :=
  (List.range (cfg.blockSize / nodeSize)).map fun slot =>
    pageStart cfg.bodyLayout p + slot * nodeSize

theorem slot_fits (hk : k < cfg.blockSize / nodeSize) :
    (nodeAlloc cfg (pageStart cfg.bodyLayout p + k * nodeSize)).block = p ∧
      (nodeAlloc cfg (pageStart cfg.bodyLayout p + k * nodeSize)).Fits cfg.bodyLayout := by
  have hn : nodeSize = 32 := rfl
  have hend : k * nodeSize + nodeSize ≤ cfg.blockSize := by
    have := Nat.mul_le_of_le_div nodeSize (k + 1) cfg.blockSize hk
    rwa [Nat.succ_mul] at this
  have hpos : 0 < cfg.blockSize := by omega
  have hblock : (nodeAlloc cfg (pageStart cfg.bodyLayout p + k * nodeSize)).block = p := by
    have hstart : pageStart cfg.bodyLayout p + k * nodeSize - dataStart =
        k * nodeSize + p * cfg.blockSize := by
      simp only [pageStart, Config.bodyLayout]
      omega
    simp only [nodeAlloc]
    rw [hstart, Nat.add_mul_div_right _ _ hpos, Nat.div_eq_of_lt (by omega), Nat.zero_add]
  refine ⟨hblock, Nat.zero_lt_succ 31, ?_, ?_⟩
  · rw [hblock, nodeAlloc_offset]
    exact Nat.le_add_right _ _
  · rw [hblock, nodeAlloc_offset, pageStart_succ]
    simp only [nodeAlloc, Config.bodyLayout] at hend ⊢
    omega

/-- Every live node stands in a slot of its page. -/
theorem LiveNode.mem_pageSlots (hv : cfg.Valid) (hq : Quiet cfg.bodyLayout s.body)
    (hn : LiveNode cfg s o) : o ∈ pageSlots cfg (nodeAlloc cfg o).block := by
  obtain ⟨hfit, -⟩ := hq.pages.fits _ hn.live
  have h1 := hfit.start_le
  have h2 := hfit.end_le
  have h3 := hn.aligned
  have hL := hv.bodyLayout_ok
  obtain ⟨e, he⟩ := hL.block_pow
  have hmin := hL.block_min
  have h16 : 16 ≤ e := by
    rw [he, show formatPageSize = 2 ^ 16 from rfl] at hmin
    exact (Nat.pow_le_pow_iff_right (by decide)).mp hmin
  have hdvd : 32 ∣ cfg.blockSize := by
    have hbs : cfg.blockSize = 2 ^ e := he
    rw [hbs, show (32 : Nat) = 2 ^ 5 from rfl]
    exact Nat.pow_dvd_pow 2 (by omega)
  have hstart : pageStart cfg.bodyLayout (nodeAlloc cfg o).block % 32 = 0 := by
    apply Nat.mod_eq_zero_of_dvd
    exact Nat.dvd_add (by decide) (Nat.dvd_mul_left_of_dvd hdvd _)
  rw [pageStart_succ] at h2
  have hoff : (nodeAlloc cfg o).offset = o := rfl
  have hlen : (nodeAlloc cfg o).length = 32 := rfl
  have hbs : cfg.bodyLayout.blockSize = cfg.blockSize := rfl
  have hs : nodeSize = 32 := rfl
  rw [show nodeAlignment = 32 from rfl] at h3
  have hmem : ∀ start, start ≤ o → o + 32 ≤ start + cfg.blockSize → start % 32 = 0 →
      o ∈ (List.range (cfg.blockSize / nodeSize)).map fun slot => start + slot * nodeSize := by
    intro start hle hend hmod
    refine List.mem_map.mpr ⟨(o - start) / 32, List.mem_range.mpr ?_, ?_⟩
    · rw [hs]
      omega
    · rw [hs]
      omega
  exact hmem _ h1 h2 hstart

theorem readNodeIfPresent_node (hv : cfg.Valid) (hq : Quiet cfg.bodyLayout s.body)
    (hn : LiveNode cfg s o) (hok : EntryOk cfg s o)
    {Q : Except Error (Option Node) → Store → Prop} (hQ : Q (.ok (some (nodeAt s o))) s) :
    (readNodeIfPresent cfg o).wp v t Q s := by
  have hne : ¬(s.slots o).pointer >>> nodeChecksumShift = 0 := by
    intro hz
    have hpos := (nodeChecksum_toNat (s.slots o).key (s.slots o).value).1
    have hsum : (s.slots o).checksum = 0 := hz
    rw [← hok.checksum, hsum] at hpos
    exact absurd hpos (by decide)
  rw [readNodeIfPresent, wp_bind, readPointerWord_spec hv hq hn, andThen_ok, if_neg hne, wp_bind,
    wp_attempt]
  exact readNode_spec hv hq hn hok.checksum hQ

/-- A slot that holds no node is skipped by the scan. -/
theorem readNodeIfPresent_none (hv : cfg.Valid) (hq : Quiet cfg.bodyLayout s.body)
    (hfit : (nodeAlloc cfg o).Fits cfg.bodyLayout) (hb : (nodeAlloc cfg o).block < s.body.pages)
    (hz : (s.slots o).checksum = 0) {Q : Except Error (Option Node) → Store → Prop}
    (hQ : Q (.ok none) s) : (readNodeIfPresent cfg o).wp v t Q s := by
  have hoff : nodePointerOffset = 24 := rfl
  have hrange := (fits_range hv.bodyLayout_ok hq.pages hfit hb
    (show (nodeAlloc cfg o).offset ≤ o + nodePointerOffset from Nat.le_add_right _ _)
    (show o + nodePointerOffset + 8 ≤ o + 32 by omega)).1
  have hbound : o + nodePointerOffset < u64Bound := by
    have h1 := hfit.end_le
    have h2 := hv.bodyLayout_ok.page_bound
      (Nat.le_trans (show (nodeAlloc cfg o).block + 1 ≤ s.body.pages from hb) hq.pages.pages_le)
    have h3 : (nodeAlloc cfg o).offset = o := rfl
    have h4 : u64Bound = 2 ^ 64 := rfl
    simp only [pageStart] at h1
    omega
  have hzero : (s.slots o).pointer >>> nodeChecksumShift = 0 := hz
  rw [readNodeIfPresent, wp_bind, readPointerWord, checkedAdd_of_lt hbound, okOr_some, wp_bind,
    wp_ofExcept, andThen_ok, wp_step, hrange]
  change (if (s.slots o).pointer >>> nodeChecksumShift = 0 then _ else _ : StoreM _).wp v t Q s
  rw [if_pos hzero, wp_pure]
  exact hQ

end Slots

section Pass
variable {pages todo : List Nat} {retired : List Allocation} {d₀ : Db} {chains₀ : Nat → List Nat}

/- In the middle of a compaction: the chains say what they said before, and the retired
   slots are bare. -/
structure Between (cfg : Config) (d₀ : Db) (chains₀ : Nat → List Nat) (retired : List Allocation)
    (s : Store) (heads : Nat → Nat) (chains : Nat → List Nat) : Prop where
  owned : Owned cfg s heads chains ∅ {x | x ∈ retired} ∅
  records_eq : records s chains = records d₀.store chains₀
  bytes : s.bytes = d₀.store.bytes
  nodup : retired.Nodup

/- The relocation pass with the slots `todo` still to scan: the candidate pages stay
   sealed, their retired slots are behind the scan and their nodes are ahead of it. -/
structure Pass (cfg : Config) (pages : List Nat) (d₀ : Db) (chains₀ : Nat → List Nat)
    (todo : List Nat) (retired : List Allocation) (s : Store) (heads : Nat → Nat)
    (chains : Nat → List Nat) : Prop extends Between cfg d₀ chains₀ retired s heads chains where
  inside : ∀ x ∈ retired, x.block ∈ pages
  behind : ∀ x ∈ retired, x.offset ∉ todo
  sealed : ∀ p ∈ pages, Sealed s.body p
  counts : ∀ p ∈ pages, liveIn s.body.live p = liveIn d₀.store.body.live p
  ahead : ∀ x ∈ nodesOf chains ∅, (nodeAlloc cfg x).block ∈ pages → x ∈ todo

/-- A slot without a node is passed by. -/
theorem Pass.skip {s : Store} {heads : Nat → Nat}
    (h : Pass cfg pages d₀ chains₀ (o :: todo) retired s heads chains) (ho : o ∉ nodesOf chains ∅) :
    Pass cfg pages d₀ chains₀ todo retired s heads chains where
  toBetween := h.toBetween
  inside := h.inside
  behind := fun x hx hmem => h.behind x hx (List.mem_cons_of_mem o hmem)
  sealed := h.sealed
  counts := h.counts
  ahead := by
    intro x hx hp
    rcases List.mem_cons.mp (h.ahead x hx hp) with rfl | hmem
    · exact absurd hx ho
    · exact hmem

theorem Pass.retire {s s' : Store} {heads heads' : Nat → Nat} {chains' : Nat → List Nat} {o' : Nat}
    (h : Pass cfg pages d₀ chains₀ (o :: todo) retired s heads chains) (ho : o ∈ nodesOf chains ∅)
    (hp : (nodeAlloc cfg o).block ∈ pages) (hnd : o ∉ todo) (hbytes : s'.bytes = s.bytes)
    (howned : Owned cfg s' heads' chains' ∅ (insert (nodeAlloc cfg o) {x | x ∈ retired}) ∅)
    (hnodes : nodesOf chains' ∅ = insert o' (nodesOf chains ∅ \ {o}))
    (hrec : records s' chains' = records s chains)
    (hfresh : Fresh cfg.bodyLayout nodeSize nodeAlignment s.body s'.body (nodeAlloc cfg o')) :
    Pass cfg pages d₀ chains₀ todo (retired ++ [nodeAlloc cfg o]) s' heads' chains' := by
  have hset : {x | x ∈ retired ++ [nodeAlloc cfg o]} = insert (nodeAlloc cfg o) {x | x ∈ retired} := by
    ext x
    simp [or_comm]
  have hsealed := fun p (hp : p ∈ pages) => hfresh.sealed howned.heap.body (h.sealed p hp)
  refine ⟨⟨?_, hrec.trans h.records_eq, hbytes.trans h.bytes, ?_⟩, ?_, ?_, ?_, ?_, ?_⟩
  · rw [hset]
    exact howned
  · refine List.nodup_append.mpr ⟨h.nodup, List.nodup_singleton _, ?_⟩
    intro x hx y hy hxy
    rw [List.mem_singleton.mp hy] at hxy
    rw [hxy] at hx
    exact h.owned.heap.bare_free _ hx ho
  · intro x hx
    rcases List.mem_append.mp hx with hold | hnew
    · exact h.inside x hold
    · rw [List.mem_singleton.mp hnew]
      exact hp
  · intro x hx hmem
    rcases List.mem_append.mp hx with hold | hnew
    · exact h.behind x hold (List.mem_cons_of_mem o hmem)
    · rw [List.mem_singleton.mp hnew] at hmem
      exact hnd hmem
  · exact fun p hp => (hsealed p hp).2.1
  · exact fun p hp => (hsealed p hp).2.2.trans (h.counts p hp)
  · intro x hx hpx
    rw [hnodes] at hx
    rcases hx with rfl | ⟨hx, hne⟩
    · exact absurd rfl (hsealed _ hpx).1
    · rcases List.mem_cons.mp (h.ahead x hx hpx) with rfl | hmem
      · exact absurd rfl hne
      · exact hmem

/-- What is left of the scan after some of its slots, or why it stopped. -/
def Scanned (cfg : Config) (v : Env) (pages : List Nat) (d₀ : Db) (chains₀ : Nat → List Nat)
    (todo : List Nat) (retired : List Allocation) (result : Except Error Unit) (s : Store)
    (heads : Nat → Nat) : Prop :=
  (result = .ok () ∧ ∃ chains, Pass cfg pages d₀ chains₀ todo retired s heads chains) ∨
    ∃ e, result = .error e ∧ Refusal v e ∧
      ∃ chains, Between cfg d₀ chains₀ retired s heads chains

theorem relocateSlot_spec (hr : cfg.Ready) (hl : ∀ b, d.deleteLocks b = 0)
    (h : Pass cfg pages d₀ chains₀ (o :: todo) retired d.store d.runtimeHeads chains)
    (hfit : (nodeAlloc cfg o).Fits cfg.bodyLayout) (hp : (nodeAlloc cfg o).block ∈ pages)
    (hnd : o ∉ todo) (hf : v = .fair → m.Enough cfg) :
    (relocateSlot cfg m o).wp v t (fun res d' => Frame d d' ∧
      ((∃ found : Option Allocation, res = .ok found ∧ ∃ chains', Pass cfg pages d₀ chains₀ todo
          (retired ++ found.toList) d'.store d'.runtimeHeads chains') ∨
        ∃ e, res = .error e ∧ Refusal v e ∧
          ∃ chains', Between cfg d₀ chains₀ retired d'.store d'.runtimeHeads chains')) d := by
  have hq := h.owned.heap.body
  rw [relocateSlot, wp_bind, wp_onStore]
  by_cases ho : o ∈ nodesOf chains ∅
  · have hok := h.owned.heap.entry o ho
    apply readNodeIfPresent_node hr.valid hq (h.owned.heap.liveNode ho) hok
    rcases ho with ⟨b, hb⟩ | hno
    · have hN : o ∈ nodesOf chains ∅ := mem_nodesOf hb
      rw [andThen_ok]
      dsimp only [nodeAt]
      rw [h.owned.home b o hb]
      refine wp_withDeleteLock (h.owned.bucket_lt hr.valid hb) hl (Machine.Enough.one hf)
        (P := fun res s heads =>
          (∃ found : Option Allocation, res = .ok found ∧ ∃ chains', Pass cfg pages d₀ chains₀ todo
            (retired ++ found.toList) s heads chains') ∨
          ∃ e, res = .error e ∧ Refusal v e ∧
            ∃ chains', Between cfg d₀ chains₀ retired s heads chains') ?_
      refine wp_mono (relocateLoop_spec (d := d.setLock b 1) hr h.owned hb hf
        (Machine.Enough.one hf)) ?_
      rintro res d' ⟨hframe, hbytes, ⟨chains', o', rfl, howned, hnodes, hrec, hfresh⟩ |
        ⟨e, rfl, he, howned, hrec⟩⟩
      · exact ⟨hframe, Or.inl ⟨_, rfl, chains',
          h.retire hN hp hnd hbytes howned hnodes hrec hfresh⟩⟩
      · exact ⟨hframe, Or.inr ⟨e, rfl, he, chains, howned, hrec.trans h.records_eq,
          hbytes.trans h.bytes, h.nodup⟩⟩
    · exact absurd hno (Set.notMem_empty o)
  · have hz : (d.store.slots o).checksum = 0 := by
      apply h.owned.heap.zero o ho
      intro hmem
      exact h.behind _ hmem List.mem_cons_self
    have hblock : (nodeAlloc cfg o).block < d.store.body.pages := by
      have hocc := (h.sealed _ hp).occupied
      obtain ⟨x, hx, hxb⟩ := List.countP_pos_iff.mp (Nat.pos_of_ne_zero hocc)
      rw [← of_decide_eq_true hxb]
      exact (hq.pages.fits x hx).2
    apply readNodeIfPresent_none hr.valid hq hfit hblock hz
    rw [andThen_ok, wp_pure]
    refine ⟨rfl, Or.inl ⟨none, rfl, chains, ?_⟩⟩
    rw [Option.toList_none, List.append_nil]
    exact h.skip ho

theorem Frame.locks {d d' : Db} (h : Frame d d') (hl : ∀ b, d.deleteLocks b = 0) :
    ∀ b, d'.deleteLocks b = 0 := by
  rw [Frame] at h
  rw [h]
  exact hl

theorem relocateSlots_spec (hr : cfg.Ready) (hl : ∀ b, d.deleteLocks b = 0) {slots : List Nat}
    (h : Pass cfg pages d₀ chains₀ (slots ++ todo) retired d.store d.runtimeHeads chains)
    (hfit : ∀ o ∈ slots, (nodeAlloc cfg o).Fits cfg.bodyLayout)
    (hp : ∀ o ∈ slots, (nodeAlloc cfg o).block ∈ pages) (hnd : (slots ++ todo).Nodup)
    (hf : v = .fair → m.Enough cfg) :
    (relocateSlots cfg m slots retired).wp v t (fun res d' => Frame d d' ∧
      ∃ retired' result, res = .ok (retired', result) ∧
        Scanned cfg v pages d₀ chains₀ todo retired' result d'.store d'.runtimeHeads) d := by
  induction slots generalizing d chains retired with
  | nil =>
    rw [relocateSlots, wp_pure]
    exact ⟨rfl, retired, .ok (), rfl, Or.inl ⟨rfl, chains, h⟩⟩
  | cons o slots ih =>
    have hnd' := List.nodup_cons.mp hnd
    rw [relocateSlots, wp_bind, wp_attempt]
    refine wp_mono (relocateSlot_spec hr hl h (hfit o List.mem_cons_self)
      (hp o List.mem_cons_self) hnd'.1 hf) ?_
    rintro _ d₁ ⟨hframe, ⟨found, rfl, chains', hpass⟩ | ⟨e, rfl, he, chains', hbetween⟩⟩
    · have hrest := ih (hframe.locks hl) hpass (fun x hx => hfit x (List.mem_cons_of_mem o hx))
        (fun x hx => hp x (List.mem_cons_of_mem o hx)) hnd'.2
      rw [andThen_ok]
      cases found with
      | none =>
        dsimp only
        rw [Option.toList_none, List.append_nil] at hrest
        refine wp_mono hrest ?_
        rintro _ d₂ ⟨hframe', hres⟩
        exact ⟨hframe.trans hframe', hres⟩
      | some x =>
        dsimp only
        refine wp_mono hrest ?_
        rintro _ d₂ ⟨hframe', hres⟩
        exact ⟨hframe.trans hframe', hres⟩
    · rw [andThen_ok]
      dsimp only
      rw [wp_pure]
      exact ⟨hframe, retired, .error e, rfl, Or.inr ⟨e, rfl, he, chains', hbetween⟩⟩

theorem relocateBlocks_spec (hr : cfg.Ready) (hl : ∀ b, d.deleteLocks b = 0) {blocks : List Nat}
    (h : Pass cfg pages d₀ chains₀ (blocks.flatMap (pageSlots cfg)) retired d.store d.runtimeHeads
      chains) (hp : ∀ p ∈ blocks, p ∈ pages ∧ p < cfg.bodyLayout.blockCount)
    (hnd : (blocks.flatMap (pageSlots cfg)).Nodup) (hf : v = .fair → m.Enough cfg) :
    (relocateBlocks cfg m blocks retired).wp v t (fun res d' => Frame d d' ∧
      ∃ retired' result, res = .ok (retired', result) ∧
        Scanned cfg v pages d₀ chains₀ [] retired' result d'.store d'.runtimeHeads) d := by
  induction blocks generalizing d chains retired with
  | nil =>
    rw [relocateBlocks, wp_pure]
    exact ⟨rfl, retired, .ok (), rfl, Or.inl ⟨rfl, chains, h⟩⟩
  | cons p blocks ih =>
    obtain ⟨hmem, hlt⟩ := hp p List.mem_cons_self
    rw [List.flatMap_cons] at h hnd
    have hslot : ∀ o ∈ pageSlots cfg p, (nodeAlloc cfg o).block = p ∧
        (nodeAlloc cfg o).Fits cfg.bodyLayout := by
      intro o ho
      obtain ⟨k, hk, rfl⟩ := List.mem_map.mp ho
      exact slot_fits (List.mem_range.mp hk)
    rw [relocateBlocks, dataOffset_ok hr.valid.bodyLayout_ok (Nat.le_of_lt hlt)]
    dsimp only
    rw [wp_bind]
    refine wp_mono (relocateSlots_spec hr hl h (fun o ho => (hslot o ho).2)
      (fun o ho => by rw [(hslot o ho).1]; exact hmem) hnd hf) ?_
    rintro _ d₁ ⟨hframe, retired₁, result, rfl, ⟨rfl, chains₁, hpass⟩ | ⟨e, rfl, he, hbetween⟩⟩
    · rw [andThen_ok]
      dsimp only
      refine wp_mono (ih (hframe.locks hl) hpass (fun q hq => hp q (List.mem_cons_of_mem p hq))
        (List.nodup_append.mp hnd).2.1) ?_
      rintro _ d₂ ⟨hframe', hres⟩
      exact ⟨hframe.trans hframe', hres⟩
    · rw [andThen_ok]
      dsimp only
      rw [wp_pure]
      exact ⟨hframe, retired₁, .error e, rfl, Or.inr ⟨e, rfl, he, hbetween⟩⟩

theorem pageSlots_nodup (hnd : pages.Nodup) : (pages.flatMap (pageSlots cfg)).Nodup := by
  have hn : nodeSize = 32 := rfl
  refine List.nodup_flatMap.mpr ⟨?_, ?_⟩
  · intro p _
    refine List.Nodup.map_on ?_ List.nodup_range
    intro i _ j _ heq
    rw [hn] at heq
    omega
  · refine hnd.imp ?_
    intro p q hpq o hop hoq
    obtain ⟨k, hk, rfl⟩ := List.mem_map.mp hop
    obtain ⟨k', hk', heq⟩ := List.mem_map.mp hoq
    have h1 := (@slot_fits cfg p k (List.mem_range.mp hk)).1
    have h2 := (@slot_fits cfg q k' (List.mem_range.mp hk')).1
    rw [heq, h1] at h2
    exact hpq h2

end Pass

section Reclaim
variable {pages : List Nat} {retired : List Allocation} {d₀ : Db} {chains₀ : Nat → List Nat}
  {x : Allocation}

theorem liveIn_cons_pages (live : List Allocation) {p : Nat} (hp : p ∉ pages) :
    live.countP (fun x => decide (x.block ∈ p :: pages)) =
      liveIn live p + live.countP fun x => decide (x.block ∈ pages) := by
  induction live with
  | nil => rfl
  | cons x live ih =>
    rw [liveIn, List.countP_cons, List.countP_cons, List.countP_cons, ih, liveIn]
    by_cases hx : x.block = p
    · simp only [hx, List.mem_cons, true_or, decide_true, if_true, hp, decide_false,
        Bool.false_eq_true, if_false]
      omega
    · simp only [List.mem_cons, hx, false_or, decide_false, Bool.false_eq_true, if_false]
      omega

theorem sum_liveIn (live : List Allocation) (hnd : pages.Nodup) :
    (pages.map (liveIn live)).sum = live.countP fun x => decide (x.block ∈ pages) := by
  induction pages with
  | nil => simp
  | cons p pages ih =>
    obtain ⟨hp, hnd'⟩ := List.nodup_cons.mp hnd
    rw [List.map_cons, List.sum_cons, ih hnd', liveIn_cons_pages live hp]

/-- After the pass, what is live in the candidate pages is exactly what was retired. -/
theorem Pass.retired_length {s : Store} {heads : Nat → Nat}
    (h : Pass cfg pages d₀ chains₀ [] retired s heads chains) (hnd : pages.Nodup) :
    retired.length = (pages.map (liveIn s.body.live)).sum := by
  have hperm : retired.Perm (s.body.live.filter fun x => decide (x.block ∈ pages)) := by
    rw [List.perm_ext_iff_of_nodup h.nodup (h.owned.heap.body.pages.nodup.filter _)]
    intro x
    rw [List.mem_filter, decide_eq_true_iff, h.owned.heap.live_iff]
    constructor
    · intro hx
      exact ⟨Or.inr hx, h.inside x hx⟩
    · rintro ⟨⟨o, ho, rfl⟩ | hx, hp⟩
      · exact absurd (h.ahead o ho hp) List.not_mem_nil
      · exact hx
  rw [sum_liveIn _ hnd, List.countP_eq_length_filter]
  exact hperm.length_eq

/- What reclaiming keeps: the pages of `pages` are not open, and nothing but the retired
   slots still to be given back is live in them. -/
structure Draining (cfg : Config) (pages : List Nat) (d₀ : Db) (chains₀ chains : Nat → List Nat)
    (retired : List Allocation) (d₁ d : Db) : Prop where
  frame : Frame d₁ d
  between : Between cfg d₀ chains₀ retired d.store d.runtimeHeads chains
  unmarked : ∀ p ∈ pages, d.store.body.counts p ≠ claimed
  published : d.store.body.pages = d₁.store.body.pages

theorem retireNode_spec (hr : cfg.Ready) {d₁ : Db}
    (h : Draining cfg pages d₀ chains₀ chains (x :: retired) d₁ d) (hf : v = .fair → m.Enough cfg) :
    (retireNode cfg m x).wp v t (fun res d' => res = .ok () ∧
      Draining cfg pages d₀ chains₀ chains retired d₁ d') d := by
  have hheap := h.between.owned.heap
  have hmem : x ∈ {y | y ∈ x :: retired} := List.mem_cons_self
  obtain ⟨hx, hn⟩ := hheap.liveBare hmem
  have hq := hheap.body
  obtain ⟨htomb, hkeep⟩ := hheap.setBare (o := x.offset) (hx ▸ hmem) fun slot => { slot with pointer := 0 }
  have hlive : x ∈ d.store.body.live := (hheap.live_iff x).mpr (Or.inr hmem)
  rw [retireNode, wp_bind, wp_onStore, tombstoneNode_spec hr.valid hq hn, andThen_ok, wp_onStore,
    wp_onBody]
  refine wp_mono (releaseCount_spec hr.valid.bodyLayout_ok hq hlive (Machine.Enough.one hf)) ?_
  rintro _ c ⟨rfl, hrel⟩
  have hzero : ((d.store.setSlot x.offset fun slot => { slot with pointer := 0 }).slots
      x.offset).checksum = 0 := by
    rw [setSlot_slots_self]
    exact tombstone_checksum _
  have hgone := htomb.releaseBody hrel.quiet hmem hzero hrel.live
  have hset : {y | y ∈ x :: retired} \ {x} = {y | y ∈ retired} := by
    ext y
    have hnd := List.nodup_cons.mp h.between.nodup
    simp only [List.mem_cons, Set.mem_sdiff, Set.mem_ofPred_eq, Set.mem_singleton_iff]
    constructor
    · rintro ⟨rfl | hy, hne⟩
      · exact absurd rfl hne
      · exact hy
    · intro hy
      refine ⟨Or.inr hy, ?_⟩
      rintro rfl
      exact hnd.1 hy
  rw [hset] at hgone
  have hslots : ∀ b, ∀ o ∈ chains b,
      (d.store.setSlot x.offset fun slot => { slot with pointer := 0 }).slots o =
        d.store.slots o := fun b o ho => (hkeep o (mem_nodesOf ho)).1
  refine ⟨rfl, h.frame.trans rfl, ⟨?_, ?_, h.between.bytes, (List.nodup_cons.mp h.between.nodup).2⟩,
    ?_, ?_⟩
  · exact h.between.owned.setStore hslots hgone h.between.owned.priv_free
  · rw [← h.between.records_eq]
    refine records_same fun b o ho => ?_
    exact ⟨congrArg Slot.key (hslots b o ho), congrArg Slot.value (hslots b o ho)⟩
  · exact fun p hp => hrel.unmarked hq (h.unmarked p hp)
  · rw [← h.published]
    simp only [Cells.pages, hrel.published]
    rfl

/-- The retired slots are given back; the chains do not change. -/
theorem reclaimCompactionNodes_spec (hr : cfg.Ready) (hq : d.quiescence = RwLock.free)
    (h : Between cfg d₀ chains₀ retired d.store d.runtimeHeads chains)
    (hp : ∀ p ∈ pages, d.store.body.counts p ≠ claimed) (hf : v = .fair → m.Enough cfg) :
    (reclaimCompactionNodes cfg m retired).wp v t (fun res d' => res = .ok () ∧
      Draining cfg pages d₀ chains₀ chains [] d d') d := by
  rw [reclaimCompactionNodes]
  apply wp_exclusive hq
  have hstart : Draining cfg pages d₀ chains₀ chains retired
      { d with quiescence := ⟨[], some t⟩ } { d with quiescence := ⟨[], some t⟩ } :=
    ⟨rfl, h, hp, rfl⟩
  refine wp_mono (eachFirstError_spec (I := fun retired d' => Draining cfg pages d₀ chains₀ chains
    retired { d with quiescence := ⟨[], some t⟩ } d') ?_ hstart) ?_
  · intro x retired d' hdrain
    exact retireNode_spec hr hdrain hf
  · rintro _ d' ⟨rfl, hdrain⟩
    have hframe := hdrain.frame
    rw [Frame] at hframe
    refine ⟨by rw [hframe], rfl, ?_, hdrain.between, hdrain.unmarked, hdrain.published⟩
    rw [Frame, hframe, ← hq]

theorem countReclaimed_spec (hr : cfg.Ready) (hq : Quiet cfg.bodyLayout d.store.body)
    (hp : ∀ p ∈ pages, p < d.store.body.pages ∧ d.store.body.counts p = 0) :
    (countReclaimed cfg pages).wp v t (fun res d' => res = .ok pages.length ∧ d' = d) d := by
  induction pages with
  | nil =>
    rw [countReclaimed, wp_pure]
    exact ⟨rfl, rfl⟩
  | cons p pages ih =>
    obtain ⟨hlt, hzero⟩ := hp p List.mem_cons_self
    rw [countReclaimed, wp_bind, wp_onStore, wp_onBody, blockLiveCount,
      wp_readCount hq.pages hr.valid.bodyLayout_ok hlt, andThen_ok, wp_bind]
    refine wp_mono (ih fun q hq => hp q (List.mem_cons_of_mem p hq)) ?_
    rintro _ _ ⟨rfl, rfl⟩
    rw [andThen_ok, wp_pure, hzero, if_pos rfl, List.length_cons, Nat.add_comm]
    exact ⟨rfl, rfl⟩

end Reclaim

section Compact
variable {pages : List Nat} {load : Nat}

theorem mem_pagesBelow {c : Cells} {p maximumLive : Nat} (hq : Quiet cfg.bodyLayout c)
    (hp : p ∈ pagesBelow c maximumLive) : p < c.pages ∧ Sealed c p := by
  rw [pagesBelow, List.mem_filter, List.mem_range, decide_eq_true_iff] at hp
  obtain ⟨hlt, hne, hclaim, -⟩ := hp
  refine ⟨Nat.lt_of_lt_of_le hlt (Nat.le_of_eq (Nat.mod_eq_of_lt hq.settled).symm), hclaim, ?_⟩
  rw [← hq.pages.counted p hclaim]
  exact hne

/-- The pass starts with every slot of the candidate pages ahead of it. -/
theorem pass_start (hr : cfg.Ready) (h : Owned cfg d.store d.runtimeHeads chains ∅ ∅ ∅)
    (load : Nat) :
    Pass cfg (pagesBelow d.store.body load) d chains
      ((pagesBelow d.store.body load).flatMap (pageSlots cfg)) [] d.store d.runtimeHeads chains := by
  have hnil : {x : Allocation | x ∈ ([] : List Allocation)} = ∅ := by
    ext x
    simp
  refine ⟨⟨?_, rfl, rfl, List.nodup_nil⟩, ?_, ?_, ?_, fun _ _ => rfl, ?_⟩
  · rw [hnil]
    exact h
  · intro x hx
    exact absurd hx List.not_mem_nil
  · intro x hx
    exact absurd hx List.not_mem_nil
  · exact fun p hp => (mem_pagesBelow h.heap.body hp).2
  · intro x hx hp
    exact List.mem_flatMap.mpr
      ⟨_, hp, (h.heap.liveNode hx).mem_pageSlots hr.valid h.heap.body⟩

theorem relocate_spec (hr : cfg.Ready) (hi : ∀ b, d.deleteLocks b = 0)
    (hq : d.quiescence = RwLock.free) (h : Owned cfg d.store d.runtimeHeads chains ∅ ∅ ∅)
    (hf : v = .fair → m.Enough cfg) :
    (relocate cfg m load).wp v t (fun res d' => Frame d d' ∧ ∃ retired result,
      res = .ok (pagesBelow d.store.body (load - 1), retired, result) ∧
      Scanned cfg v (pagesBelow d.store.body (load - 1)) d chains [] retired result d'.store
        d'.runtimeHeads) d := by
  refine wp_operation hq (P := fun res s heads => ∃ retired result,
    res = .ok (pagesBelow d.store.body (load - 1), retired, result) ∧
      Scanned cfg v (pagesBelow d.store.body (load - 1)) d chains [] retired result s heads) ?_
  rw [wp_bind, wp_onStore, wp_onBody]
  refine wp_mono (blocksBelowLoad_spec hr.valid.bodyLayout_ok h.heap.body _
    (Machine.Enough.one hf)) ?_
  rintro _ _ ⟨rfl, rfl⟩
  rw [andThen_ok, wp_bind]
  have hnodup : (pagesBelow d.store.body (load - 1)).Nodup := List.nodup_range.filter _
  refine wp_mono (relocateBlocks_spec (d := { d with quiescence := ⟨[t], none⟩ }) hr hi
    (pass_start hr h (load - 1)) ?_ (pageSlots_nodup hnodup) hf) ?_
  · intro p hp
    exact ⟨hp, Nat.lt_of_lt_of_le (mem_pagesBelow h.heap.body hp).1 h.heap.body.pages.pages_le⟩
  · rintro _ d' ⟨hframe, retired, result, rfl, hscan⟩
    rw [andThen_ok]
    dsimp only
    rw [wp_pure]
    exact ⟨hframe, retired, result, rfl, hscan⟩

/-- With the retired slots given back, the candidate pages are empty. -/
theorem Draining.emptied {d₀ d₁ : Db} {chains₀ chains : Nat → List Nat}
    {retired : List Allocation} {s : Store} {heads : Nat → Nat}
    (hpass : Pass cfg pages d₀ chains₀ [] retired s heads chains)
    (h : Draining cfg pages d₀ chains₀ chains [] d₁ d) :
    ∀ p ∈ pages, d.store.body.counts p = 0 := by
  intro p hp
  have hq := h.between.owned.heap.body
  rw [hq.pages.counted p (h.unmarked p hp), liveIn, List.countP_eq_zero]
  intro x hx hblock
  rcases (h.between.owned.heap.live_iff x).mp hx with ⟨o, ho, rfl⟩ | hmem
  · rw [← of_decide_eq_true hblock] at hp
    exact List.not_mem_nil (hpass.ahead o ho hp)
  · exact List.not_mem_nil hmem

/-- What a compaction leaves: the same records, and the same blob bytes. -/
structure Rewritten (cfg : Config) (s₀ : Store) (chains : Nat → List Nat) (s : Store)
    (heads : Nat → Nat) (chains' : Nat → List Nat) : Prop where
  owned : Owned cfg s heads chains' ∅ ∅ ∅
  records_eq : records s chains' = records s₀ chains
  bytes : s.bytes = s₀.bytes

theorem Between.rewritten {s : Store} {heads : Nat → Nat} {chains' : Nat → List Nat}
    (h : Between cfg d chains [] s heads chains') : Rewritten cfg d.store chains s heads chains' := by
  have hnil : {x : Allocation | x ∈ ([] : List Allocation)} = ∅ := by
    ext x
    simp
  have howned := h.owned
  rw [hnil] at howned
  exact ⟨howned, h.records_eq, h.bytes⟩

/-- The statistics of a complete pass over the pages below the load. -/
def compactionStats (c : Cells) (load : Nat) : CompactionStats where
  candidatePages := (pagesBelow c (load - 1)).length
  movedNodes := ((pagesBelow c (load - 1)).map c.counts).sum
  reclaimedPages := (pagesBelow c (load - 1)).length
  remainingCandidatePages := 0

/-- How a compaction with a valid threshold ends. -/
def Compacted (v : Env) (load : Nat) (c : Cells) (res : Except Error CompactionStats)
    (c' : Cells) : Prop :=
  (res = .ok (compactionStats c load) ∧ ∀ p ∈ pagesBelow c (load - 1), c'.counts p = 0) ∨
    ∃ e, res = .error e ∧ Refusal v e

theorem compactInner_spec (hr : cfg.Ready) (hl : ∀ b, d.deleteLocks b = 0)
    (hq : d.quiescence = RwLock.free) (hs : d.checkpointState = 0)
    (h : Owned cfg d.store d.runtimeHeads chains ∅ ∅ ∅) (hf : v = .fair → m.Enough cfg) :
    (compactInner cfg m load).wp v t (fun res d' => Frame d d' ∧
      (∃ chains', Rewritten cfg d.store chains d'.store d'.runtimeHeads chains') ∧
      Compacted v load d.store.body res d'.store.body) d := by
  have hquiet := h.heap.body
  have hnodup : (pagesBelow d.store.body (load - 1)).Nodup := List.nodup_range.filter _
  rw [compactInner, wp_bind, wp_step, andThen_ok, if_neg (not_not.mpr hs), wp_bind]
  refine wp_mono (relocate_spec hr hl hq h hf) ?_
  rintro _ d₁ ⟨hframe, retired, result, rfl, hscan⟩
  have hq₁ : d₁.quiescence = RwLock.free := by
    rw [Frame] at hframe
    rw [hframe]
    exact hq
  rw [andThen_ok]
  dsimp only
  rw [wp_bind, wp_attempt]
  rcases hscan with ⟨rfl, chains₁, hpass⟩ | ⟨e, rfl, he, chains₁, hbetween⟩
  · refine wp_mono (reclaimCompactionNodes_spec hr hq₁ hpass.toBetween
      (fun p hp => (hpass.sealed p hp).unmarked) hf) ?_
    rintro _ d₂ ⟨rfl, hdrain⟩
    have hempty := hdrain.emptied hpass
    have hmoved : retired.length =
        ((pagesBelow d.store.body (load - 1)).map d.store.body.counts).sum := by
      rw [hpass.retired_length hnodup]
      congr 1
      refine List.map_congr_left fun p hp => ?_
      rw [hpass.counts p hp, (mem_pagesBelow hquiet hp).2.count hquiet]
    have hpublished : ∀ p ∈ pagesBelow d.store.body (load - 1), p < d₂.store.body.pages := by
      intro p hp
      obtain ⟨x, hx, hxb⟩ := List.countP_pos_iff.mp
        (Nat.pos_of_ne_zero (hpass.sealed p hp).occupied)
      rw [hdrain.published, ← of_decide_eq_true hxb]
      exact (hpass.owned.heap.body.pages.fits x hx).2
    rw [andThen_ok]
    dsimp only
    rw [wp_bind]
    refine wp_mono (countReclaimed_spec hr hdrain.between.owned.heap.body
      fun p hp => ⟨hpublished p hp, hempty p hp⟩) ?_
    rintro _ _ ⟨rfl, rfl⟩
    rw [andThen_ok, wp_pure, hmoved, Nat.sub_self]
    exact ⟨hframe.trans hdrain.frame, ⟨chains₁, hdrain.between.rewritten⟩,
      Or.inl ⟨rfl, hempty⟩⟩
  · refine wp_mono (reclaimCompactionNodes_spec hr hq₁ hbetween
      (fun p hp => absurd hp List.not_mem_nil) hf) ?_
    rintro _ d₂ ⟨rfl, hdrain⟩
    rw [andThen_ok]
    dsimp only
    rw [wp_throw]
    exact ⟨hframe.trans hdrain.frame, ⟨chains₁, hdrain.between.rewritten⟩, Or.inr ⟨e, rfl, he⟩⟩

/-- One compaction: the bucket contents stay what they were, whatever it returns. -/
theorem compact_spec (hr : cfg.Ready) (hi : Idle d)
    (h : Owned cfg d.store d.runtimeHeads chains ∅ ∅ ∅) (hpos : 1 ≤ load)
    (hle : load ≤ cfg.blockSize / nodeSize) (hf : v = .fair → m.Enough cfg) :
    (compact cfg m load).wp v t (fun res d' => Frame d d' ∧
      (∃ chains', Rewritten cfg d.store chains d'.store d'.runtimeHeads chains') ∧
      Compacted v load d.store.body res d'.store.body) d := by
  rw [compact, if_neg (by omega), wp_guarded, acquireCompaction, wp_bind, casCompaction, wp_atomic]
  refine ⟨.ok true, { d with compactionState := 1 }, by rw [if_pos hi.compaction], ?_⟩
  rw [andThen_ok, if_pos rfl, wp_pure, andThen_ok, wp_bind, wp_attempt]
  refine wp_mono (compactInner_spec (d := { d with compactionState := 1 }) hr hi.locks
    hi.quiescence hi.checkpoint h hf) ?_
  rintro res d' ⟨hframe, hrewritten, hres⟩
  rw [andThen_ok, wp_bind, storeCompaction, wp_step, andThen_ok, wp_ofExcept]
  refine ⟨?_, hrewritten, hres⟩
  rw [Frame] at hframe ⊢
  rw [hframe, ← hi.compaction]

theorem compact_invalid (hbad : ¬(1 ≤ load ∧ load ≤ cfg.blockSize / nodeSize)) :
    (compact cfg m load).wp v t (fun res d' => d' = d ∧ res = .error
      (.invalidConfig "compaction page load must be within the body-page capacity")) d := by
  rw [compact, if_pos (by omega), wp_throw]
  exact ⟨rfl, rfl⟩

end Compact

end FlorestaDb
