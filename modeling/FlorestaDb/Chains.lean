import FlorestaDb.HeapSequential
import FlorestaDb.Table
import FlorestaDb.Lib.Chain
import Mathlib.Data.List.Perm.Subperm

/-! Who owns the nodes of a database. Each bucket head starts a chain of nodes that hash
to the bucket; the other nodes are private to the call in progress. Every link of a
chain is the head or the next field of the node before it. -/
namespace FlorestaDb
open Program Program.Prog Allocator Chain

def Store.next (s : Store) (o : Nat) : Nat := (s.slots o).next

def nodesOf (chains : Nat → List Nat) (priv : Set Nat) : Set Nat :=
  {o | (∃ b, o ∈ chains b) ∨ o ∈ priv}

structure Owned (cfg : Config) (s : Store) (heads : Nat → Nat) (chains : Nat → List Nat)
    (priv : Set Nat) (bare bareBlobs : Set Allocation) : Prop where
  heap : Heap cfg s (nodesOf chains priv) bare bareBlobs
  chain : ∀ b, IsChain s.next (heads b) (chains b)
  home : ∀ b, ∀ o ∈ chains b, bucketOf cfg (s.slots o).key = b
  priv_free : ∀ b, ∀ o ∈ chains b, o ∉ priv

/-- Only the store and the heads changed. -/
def Frame (d d' : Db) : Prop :=
  d' = { d with store := d'.store, runtimeHeads := d'.runtimeHeads }

theorem Frame.refl (d : Db) : Frame d d := rfl

theorem Frame.trans {d d' d'' : Db} (h : Frame d d') (h' : Frame d' d'') : Frame d d'' := by
  rw [Frame] at h h' ⊢
  rw [h'] at ⊢
  rw [h]

/-- What the nodes `N` say is unchanged; their next fields may have moved. -/
def Same (cfg : Config) (N : Set Nat) (s s' : Store) : Prop :=
  ∀ o ∈ N, (s'.slots o).value = (s.slots o).value ∧ entryAt cfg s' o = entryAt cfg s o

section Same
variable {cfg : Config} {N M : Set Nat} {s s' s'' : Store}

theorem Same.refl (cfg : Config) (N : Set Nat) (s : Store) : Same cfg N s s :=
  fun _ _ => ⟨rfl, rfl⟩

theorem Same.trans (h : Same cfg N s s') (h' : Same cfg N s' s'') : Same cfg N s s'' :=
  fun o ho => ⟨(h' o ho).1.trans (h o ho).1, (h' o ho).2.trans (h o ho).2⟩

theorem Same.mono (h : Same cfg N s s') (hM : M ⊆ N) : Same cfg M s s' := fun o ho => h o (hM ho)

theorem Keeps.same (h : Keeps cfg N s s') : Same cfg N s s' := fun o ho =>
  ⟨by rw [(h o ho).1], (h o ho).2⟩

theorem Same.key (h : Same cfg N s s') {o : Nat} (ho : o ∈ N) :
    (s'.slots o).key = (s.slots o).key := congrArg Prod.fst (h o ho).2

/-- The blob of a node that says the same is the same. -/
theorem Same.blobSet_eq (h : Same cfg N s s') {o : Nat} (ho : o ∈ N) (hok : EntryOk cfg s o) :
    blobSet cfg s' (s'.slots o).value = blobSet cfg s (s.slots o).value := by
  obtain ⟨hval, hentry⟩ := h o ho
  rw [hval]
  cases hb : isBlob (s.slots o).value with
  | false => rw [blobSet_inline hb, blobSet_inline hb]
  | true =>
    have hne : ¬cfg.mode = .set := by
      intro hm
      rw [hok.set_value hm] at hb
      exact absurd hb (by decide)
    have hbytes : valueAt cfg s' (s.slots o).value = valueAt cfg s (s.slots o).value := by
      rw [← hval]
      exact (congrArg Prod.snd hentry).trans (by rw [entryAt, hval])
    rw [valueAt, valueAt, if_neg hne, if_pos hb, if_neg hne, if_pos hb] at hbytes
    have hlen := congrArg List.length hbytes
    rw [slice_length, slice_length] at hlen
    simp only [blobSet, hlen]

end Same

variable {cfg : Config} {v : Env} {t : Tid} {d : Db} {chains : Nat → List Nat} {priv : Set Nat}
  {bare bareBlobs : Set Allocation} {b o : Nat} {l r : List Nat}

theorem wp_onStore {α : Type} (p : StoreM α) (Q : Except Error α → Db → Prop) :
    (onStore p).wp v t Q d ↔ p.wp v t (fun r s' => Q r { d with store := s' }) d.store := by
  rw [onStore, wp_focus]
  · intro s d
    rfl
  · intro s s' d
    rfl
  · intro d
    rfl

section Facts
variable {s : Store} {heads : Nat → Nat}

theorem mem_nodesOf (ho : o ∈ chains b) : o ∈ nodesOf chains priv := Or.inl ⟨b, ho⟩

theorem bucketOf_lt (hv : cfg.Valid) (key : Key) : bucketOf cfg key < cfg.bucketCount :=
  Nat.mod_lt _ hv.bucket_pos

theorem Owned.liveNode (h : Owned cfg s heads chains priv bare bareBlobs) (ho : o ∈ chains b) :
    LiveNode cfg s o := h.heap.liveNode (mem_nodesOf ho)

theorem Owned.bucket_unique (h : Owned cfg s heads chains priv bare bareBlobs) {b' : Nat}
    (ho : o ∈ chains b) (ho' : o ∈ chains b') : b' = b :=
  (h.home b' o ho').symm.trans (h.home b o ho)

theorem Owned.bucket_lt (h : Owned cfg s heads chains priv bare bareBlobs) (hv : cfg.Valid)
    (ho : o ∈ chains b) : b < cfg.bucketCount := by
  rw [← h.home b o ho]
  exact bucketOf_lt hv _

/-- A new store under the same heads, the chained slots as they were. -/
theorem Owned.setStore (h : Owned cfg s heads chains priv bare bareBlobs) {s' : Store}
    {priv' : Set Nat} {bare' bareBlobs' : Set Allocation}
    (hslots : ∀ b, ∀ o ∈ chains b, s'.slots o = s.slots o)
    (hheap : Heap cfg s' (nodesOf chains priv') bare' bareBlobs')
    (hfree : ∀ b, ∀ o ∈ chains b, o ∉ priv') :
    Owned cfg s' heads chains priv' bare' bareBlobs' where
  heap := hheap
  chain := fun b => (h.chain b).congr fun o ho => by
    simp only [Store.next, hslots b o ho]
  home := fun b o ho => by
    simp only [hslots b o ho]
    exact h.home b o ho
  priv_free := hfree

/-- Slots are aligned and inside the body, so a chain is no longer than the body allows. -/
theorem Owned.chain_length (h : Owned cfg s heads chains priv bare bareBlobs) (hv : cfg.Valid) (b : Nat) :
    (chains b).length ≤ cfg.bodyCapacity / nodeSize := by
  have hslot : ∀ o ∈ chains b, dataStart ≤ o ∧ o + nodeSize ≤ dataStart + cfg.bodyCapacity ∧
      o % nodeAlignment = 0 := by
    intro o ho
    have hn := h.liveNode ho
    have hb := hn.bounds hv h.heap.body
    exact ⟨hb.1, hb.2.1, hn.aligned⟩
  have hs : dataStart = 65536 := rfl
  have hn : nodeSize = 32 := rfl
  have ha : nodeAlignment = 32 := rfl
  have hmaps : ∀ o ∈ chains b, (o - dataStart) / nodeSize < cfg.bodyCapacity / nodeSize := by
    intro o ho
    obtain ⟨h1, h2, h3⟩ := hslot o ho
    rw [hn]
    rw [ha] at h3
    omega
  have hinj : ((chains b).map fun o => (o - dataStart) / nodeSize).Nodup := by
    refine List.Nodup.map_on ?_ (h.chain b).nodup
    intro x hx y hy heq
    obtain ⟨h1, h2, h3⟩ := hslot x hx
    obtain ⟨h4, h5, h6⟩ := hslot y hy
    rw [hn] at heq
    rw [ha] at h3 h6
    omega
  have hsub : ((chains b).map fun o => (o - dataStart) / nodeSize) ⊆
      List.range (cfg.bodyCapacity / nodeSize) := by
    intro i hi
    obtain ⟨o, ho, rfl⟩ := List.mem_map.mp hi
    exact List.mem_range.mpr (hmaps o ho)
  have hlen := (List.subperm_of_subset hinj hsub).length_le
  simpa using hlen

end Facts

section Links

/-- The link behind the places `l` of a bucket's chain. -/
def linkAfter (b : Nat) (l : List Nat) : Link :=
  match l.getLast? with
  | none => .head b
  | some p => .node p

@[simp] theorem linkAfter_nil (b : Nat) : linkAfter b [] = .head b := rfl

@[simp] theorem linkAfter_append (b : Nat) (l : List Nat) (p : Nat) :
    linkAfter b (l ++ [p]) = .node p := by
  simp [linkAfter]

theorem checkHead_ok (hb : b < cfg.bucketCount) : checkHead cfg b = .ok () :=
  if_neg (Nat.not_le.mpr hb)

theorem loadHead_spec (hb : b < cfg.bucketCount) {Q : Except Error Nat → Db → Prop} :
    (loadHead cfg b).wp v t Q d ↔ Q (.ok (d.runtimeHeads b)) d := by
  rw [loadHead, wp_step, checkHead_ok hb]
  rfl

theorem casHead_spec (hb : b < cfg.bucketCount) {expected new : Nat}
    (he : d.runtimeHeads b = expected) {Q : Except Error Bool → Db → Prop} :
    (casHead cfg b expected new).wp v t Q d ↔ Q (.ok true) (d.setHead b new) := by
  subst he
  rw [casHead, wp_atomic]
  simp only [checkHead_ok hb, if_pos, Option.some.injEq, Prod.mk.injEq, and_assoc,
    exists_eq_left', exists_and_left]

theorem linkValue_spec (hr : cfg.Ready) (h : Owned cfg d.store d.runtimeHeads chains priv bare bareBlobs)
    (hb : b < cfg.bucketCount) (hc : chains b = l ++ r) {Q : Except Error Nat → Db → Prop} :
    (linkValue cfg (linkAfter b l)).wp v t Q d ↔ Q (.ok (r.headD 0)) d := by
  have hchain := h.chain b
  rw [hc] at hchain
  rcases List.eq_nil_or_concat' l with rfl | ⟨l, p, rfl⟩
  · rw [linkAfter_nil, linkValue, loadHead_spec hb, hchain.head_eq, List.nil_append]
  · rw [linkAfter_append, linkValue, wp_onStore]
    have hp : p ∈ chains b := by simp [hc]
    rw [readNext_spec hr.valid h.heap.body (h.liveNode hp)]
    rw [List.append_assoc] at hchain
    obtain ⟨-, -, hrest⟩ := hchain.split
    have hnext : (d.store.slots p).next = r.headD 0 := hrest.head_eq
    rw [hnext]

end Links

section Swing
variable {mid w : List Nat} {y : Nat} {s : Store} {heads : Nat → Nat}

/-- A swung link: some next fields of `l` or the head changed, and nothing else. -/
structure Swung (cfg : Config) (d d' : Db) (l : List Nat) : Prop where
  frame : Frame d d'
  same : Same cfg Set.univ d.store d'.store
  bytes : d'.store.bytes = d.store.bytes
  slots : ∀ o, o ∉ l → d'.store.slots o = d.store.slots o

theorem mem_update_chains {new : List Nat} {b' : Nat} :
    o ∈ Function.update chains b new b' ↔ b' = b ∧ o ∈ new ∨ b' ≠ b ∧ o ∈ chains b' := by
  by_cases hb : b' = b
  · subst hb
    simp
  · simp [hb]

/-- The places `w` join the chain and the places `mid` leave it. -/
theorem nodesOf_swing (hc : chains b = l ++ (mid ++ r)) (hw : ∀ o ∈ w, o ∈ priv) :
    nodesOf (Function.update chains b (l ++ (w ++ r))) (priv \ {o | o ∈ w} ∪ {o | o ∈ mid}) =
      nodesOf chains priv := by
  ext o
  simp only [nodesOf, Set.mem_ofPred_eq, mem_update_chains, List.mem_append, Set.mem_union,
    Set.mem_sdiff]
  constructor
  · rintro (⟨b', ⟨rfl, ho | ho | ho⟩ | ⟨-, ho⟩⟩ | ⟨ho, -⟩ | ho)
    · exact Or.inl ⟨b', by simp [hc, ho]⟩
    · exact Or.inr (hw o ho)
    · exact Or.inl ⟨b', by simp [hc, ho]⟩
    · exact Or.inl ⟨b', ho⟩
    · exact Or.inr ho
    · exact Or.inl ⟨b, by simp [hc, ho]⟩
  · rintro (⟨b', ho⟩ | ho)
    · by_cases hb : b' = b
      · subst hb
        rw [hc] at ho
        rcases List.mem_append.mp ho with ho | ho
        · exact Or.inl ⟨b', Or.inl ⟨rfl, Or.inl ho⟩⟩
        · rcases List.mem_append.mp ho with ho | ho
          · exact Or.inr (Or.inr ho)
          · exact Or.inl ⟨b', Or.inl ⟨rfl, Or.inr (Or.inr ho)⟩⟩
      · exact Or.inl ⟨b', Or.inr ⟨hb, ho⟩⟩
    · by_cases hmem : o ∈ w
      · exact Or.inl ⟨b, Or.inl ⟨rfl, Or.inr (Or.inl hmem)⟩⟩
      · exact Or.inr (Or.inl ⟨ho, hmem⟩)

theorem priv_free_swing (h : Owned cfg s heads chains priv bare bareBlobs)
    (hc : chains b = l ++ (mid ++ r)) (hw : ∀ o ∈ w, o ∈ priv) :
    ∀ b', ∀ o ∈ Function.update chains b (l ++ (w ++ r)) b',
      o ∉ priv \ {o | o ∈ w} ∪ {o | o ∈ mid} := by
  have hnd := (h.chain b).nodup
  rw [hc] at hnd
  obtain ⟨-, hnd', hl⟩ := List.nodup_append.mp hnd
  obtain ⟨-, -, hmr⟩ := List.nodup_append.mp hnd'
  have hmid : ∀ o ∈ mid, o ∈ chains b := by
    intro o ho
    simp [hc, ho]
  intro b' o ho hmem
  rcases mem_update_chains.mp ho with ⟨-, ho⟩ | ⟨hb, ho⟩
  · simp only [List.mem_append] at ho
    rcases ho with ho | ho | ho <;> rcases hmem with ⟨hp, hn⟩ | hm
    · exact h.priv_free b o (by simp [hc, ho]) hp
    · exact hl o ho o (List.mem_append_left r hm) rfl
    · exact hn ho
    · exact h.priv_free b o (hmid o hm) (hw o ho)
    · exact h.priv_free b o (by simp [hc, ho]) hp
    · exact hmr o hm o ho rfl
  · rcases hmem with ⟨hp, -⟩ | hm
    · exact h.priv_free b' o ho hp
    · exact hb (h.bucket_unique (hmid o hm) ho)

theorem Owned.place_le (h : Owned cfg s heads chains priv bare bareBlobs) (hv : cfg.Valid)
    (ho : o ∈ nodesOf chains priv) : o ≤ nodePointerMask.toNat :=
  Nat.le_of_lt ((h.heap.liveNode ho).bounds hv h.heap.body).2.2

theorem Owned.head_le (h : Owned cfg s heads chains priv bare bareBlobs) (hv : cfg.Valid) (b : Nat) :
    heads b ≤ nodePointerMask.toNat := by
  rw [(h.chain b).head_eq]
  cases hc : chains b with
  | nil => exact Nat.zero_le _
  | cons x u => exact h.place_le hv (mem_nodesOf (b := b) (by simp [hc]))

theorem next_setNext (s : Store) (p : Nat) (hy : y ≤ nodePointerMask.toNat) :
    (s.setSlot p (·.withNext y)).next = Function.update s.next p y := by
  funext z
  by_cases hz : z = p
  · subst hz
    rw [Function.update_self, Store.next, setSlot_slots_self, Slot.withNext_next _ hy]
  · rw [Function.update_of_ne hz, Store.next, setSlot_slots_ne s _ hz, Store.next]

theorem same_setNext (h : Heap cfg s (nodesOf chains priv) bare bareBlobs) (o : Nat)
    (hy : y ≤ nodePointerMask.toNat) : Same cfg Set.univ s (s.setSlot o (·.withNext y)) :=
  fun x _ => ⟨(setNext_said s o y x).2, (h.setNext hy).2.2 x⟩

/-- The next field of a private node is no link of a chain. -/
theorem Owned.setPrivate (h : Owned cfg s heads chains priv bare bareBlobs) (ho : o ∈ priv)
    (hy : y ≤ nodePointerMask.toNat) :
    Owned cfg (s.setSlot o (·.withNext y)) heads chains priv bare bareBlobs := by
  refine h.setStore ?_ (h.heap.setNext hy).1 h.priv_free
  intro b x hx
  refine setSlot_slots_ne s _ ?_
  rintro rfl
  exact h.priv_free b x hx ho

theorem Owned.swing_head (h : Owned cfg s heads chains priv bare bareBlobs) (hc : chains b = mid ++ r)
    (hw : IsSegment s.next (r.headD 0) y w) (hpriv : ∀ o ∈ w, o ∈ priv)
    (hhome : ∀ o ∈ w, bucketOf cfg (s.slots o).key = b) :
    Owned cfg s (Function.update heads b y) (Function.update chains b (w ++ r))
      (priv \ {o | o ∈ w} ∪ {o | o ∈ mid}) bare bareBlobs where
  heap := by
    have hset := nodesOf_swing (l := []) hc hpriv
    rw [List.nil_append] at hset
    rw [hset]
    exact h.heap
  chain := by
    intro b'
    by_cases hb : b' = b
    · subst hb
      have hchain := h.chain b'
      rw [hc] at hchain
      simp only [Function.update_self]
      exact isChain_append.mpr ⟨hw, (isChain_append.mp hchain).2⟩
    · simp only [Function.update_of_ne hb]
      exact h.chain b'
  home := by
    intro b' o ho
    rcases mem_update_chains.mp ho with ⟨rfl, hnew⟩ | ⟨-, hold⟩
    · rcases List.mem_append.mp hnew with hm | hm
      · exact hhome o hm
      · exact h.home b' o (by simp [hc, hm])
    · exact h.home b' o hold
  priv_free := priv_free_swing (l := []) h hc hpriv

theorem Owned.swing_node (h : Owned cfg s heads chains priv bare bareBlobs) {p : Nat}
    (hc : chains b = l ++ p :: (mid ++ r)) (hw : IsSegment s.next (r.headD 0) y w)
    (hpriv : ∀ o ∈ w, o ∈ priv) (hhome : ∀ o ∈ w, bucketOf cfg (s.slots o).key = b)
    (hy : y ≤ nodePointerMask.toNat) :
    Owned cfg (s.setSlot p (·.withNext y)) heads
      (Function.update chains b (l ++ p :: (w ++ r)))
      (priv \ {o | o ∈ w} ∪ {o | o ∈ mid}) bare bareBlobs := by
  have hp : p ∈ chains b := by simp [hc]
  have hsplit : ∀ u : List Nat, l ++ p :: u = (l ++ [p]) ++ u := by simp
  have hkey : ∀ o', ((s.setSlot p (·.withNext y)).slots o').key =
      (s.slots o').key := fun o' =>
    congrArg Prod.fst ((h.heap.setNext hy).2.2 o')
  refine ⟨?_, ?_, ?_, ?_⟩
  · rw [hsplit, nodesOf_swing (by rw [hc, hsplit]) hpriv]
    exact (h.heap.setNext hy).1
  · intro b'
    simp only [next_setNext _ _ hy]
    by_cases hb : b' = b
    · subst hb
      have hchain := h.chain b'
      rw [hc] at hchain
      rw [Function.update_self]
      exact hchain.redirect hw fun hm => h.priv_free b' p hp (hpriv p hm)
    · rw [Function.update_of_ne hb]
      refine (h.chain b').congr fun z hz => Function.update_of_ne ?_ _ _
      rintro rfl
      exact hb (h.bucket_unique hp hz)
  · intro b' o ho
    rw [hkey]
    rcases mem_update_chains.mp ho with ⟨rfl, hnew⟩ | ⟨-, hold⟩
    · simp only [List.mem_append, List.mem_cons] at hnew
      rcases hnew with hm | rfl | hm | hm
      · exact h.home b' o (by simp [hc, hm])
      · exact h.home b' o hp
      · exact hhome o hm
      · exact h.home b' o (by simp [hc, hm])
    · exact h.home b' o hold
  · rw [hsplit]
    exact priv_free_swing h (by rw [hc, hsplit]) hpriv

/-- Exchanging a link that a chain runs through. -/
theorem compareExchangeLink_spec (hr : cfg.Ready) (h : Owned cfg d.store d.runtimeHeads chains priv bare bareBlobs)
    (hb : b < cfg.bucketCount) (hc : chains b = l ++ (mid ++ r))
    (hw : IsSegment d.store.next (r.headD 0) y w) (hpriv : ∀ o ∈ w, o ∈ priv)
    (hhome : ∀ o ∈ w, bucketOf cfg (d.store.slots o).key = b) :
    (compareExchangeLink cfg (linkAfter b l) ((mid ++ r).headD 0) y).wp v t (fun res d' =>
      res = .ok true ∧ Swung cfg d d' l ∧
        Owned cfg d'.store d'.runtimeHeads (Function.update chains b (l ++ (w ++ r)))
          (priv \ {o | o ∈ w} ∪ {o | o ∈ mid}) bare bareBlobs) d := by
  have hchain := h.chain b
  rw [hc] at hchain
  rcases List.eq_nil_or_concat' l with rfl | ⟨l, p, rfl⟩
  · have hhead : d.runtimeHeads b = (mid ++ r).headD 0 := hchain.head_eq
    rw [linkAfter_nil, compareExchangeLink, casHead_spec hb hhead]
    rw [List.nil_append] at hc
    exact ⟨rfl, ⟨rfl, .refl cfg _ _, rfl, fun _ _ => rfl⟩, h.swing_head hc hw hpriv hhome⟩
  · have hsplit : ∀ u : List Nat, (l ++ [p]) ++ u = l ++ p :: u := by simp
    rw [hsplit] at hc hchain
    have hp : p ∈ chains b := by simp [hc]
    have hy : y ≤ nodePointerMask.toNat := by
      have hr' := (isChain_append.mp hchain.split.2.2).2
      have hyw : y = (w ++ r).headD 0 := IsChain.head_eq (isChain_append.mpr ⟨hw, hr'⟩)
      rw [hyw]
      cases hcase : w ++ r with
      | nil => exact Nat.zero_le _
      | cons z u =>
        have hz : z ∈ w ++ r := by simp [hcase]
        refine h.place_le hr.valid ?_
        rcases List.mem_append.mp hz with hz | hz
        · exact Or.inr (hpriv z hz)
        · exact mem_nodesOf (b := b) (by simp [hc, hz])
    have hnext : (d.store.slots p).next = (mid ++ r).headD 0 := hchain.split.2.2.head_eq
    rw [linkAfter_append, compareExchangeLink, wp_onStore,
      compareExchangeNext_spec hr.valid h.heap.body (h.liveNode hp) hnext hy, hsplit]
    refine ⟨rfl, ⟨rfl, same_setNext h.heap _ hy, rfl, ?_⟩,
      h.swing_node hc hw hpriv hhome hy⟩
    intro o ho
    have hne : o ≠ p := by
      rintro rfl
      exact ho (by simp)
    simp only [setSlot_slots_ne d.store _ hne]

end Swing

end FlorestaDb
