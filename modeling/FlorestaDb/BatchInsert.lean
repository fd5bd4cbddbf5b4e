import FlorestaDb.TableCalls
import FlorestaDb.TableBatch
import FlorestaDb.Lib.Groups

/-! The batch insertions: keys hashed four at a time, sorted by bucket, allocated in
page-sized chunks, linked in private and published with one exchange per bucket. -/
namespace FlorestaDb
open Program Program.Prog Allocator Chain

variable {cfg : Config} {m : Machine} {v : Env} {t : Tid} {chains : Nat → List Nat}

section Prepare

/-- Four at a time or one at a time, the digests are the same. -/
theorem hashKeys_eq (cfg : Config) (m : Machine) (keys : List Key) :
    hashKeys cfg m keys = keys.map (hashOf cfg) := by
  induction keys using hashKeys.induct with
  | case1 a b c d rest ih =>
    rw [hashKeys, ih, Hash.xxh64Batch4_eq m.avx2 (by simp)]
    rfl
  | case2 rest h => rw [hashKeys]; exact h

/-- One entry of a prepared batch insertion. -/
def preparedInsert (cfg : Config) (e : Key × Option (List UInt8)) (order : Nat) :
    PreparedInsert := ⟨e.1, e.2, hashOf cfg e.1, bucketOf cfg e.1, order⟩

/-- The prepared entries of a batch, before they are sorted. -/
def preparedInserts (cfg : Config) (es : List (Key × Option (List UInt8))) : List PreparedInsert :=
  es.zipIdx.map fun p => preparedInsert cfg p.1 p.2

theorem prepareBatch_eq {entries : List (List UInt8 × Option (List UInt8))}
    {es : List (Key × Option (List UInt8))} (h : validateEntries cfg entries = .ok es) :
    prepareBatch cfg m entries =
      .ok ((preparedInserts cfg es).mergeSort PreparedInsert.le) := by
  rw [prepareBatch, h, ok_bind]
  dsimp only
  rw [hashKeys_eq, List.map_map, ← List.map_prod_left_eq_zip, List.zipIdx_map, List.map_map]
  rfl

/-- What every prepared entry knows about itself. -/
structure PreparedInsert.Ok (cfg : Config) (p : PreparedInsert) : Prop where
  bucket : p.bucket = bucketOf cfg p.key
  fits : ValueFits cfg p.value

/-- The key and the stored bytes of an entry. -/
def PreparedInsert.pair (p : PreparedInsert) : Key × List UInt8 := (p.key, p.value.getD [])

theorem validateValue_fits {value : Option (List UInt8)} (h : validateValue cfg value = .ok ()) :
    ValueFits cfg value := by
  rw [validateValue] at h
  rcases mode_set_or_map cfg with hm | hm
  · rw [if_pos hm] at h
    cases value with
    | none => exact Or.inl ⟨hm, rfl⟩
    | some bytes => cases h
  · have hne : ¬cfg.mode = .set := by
      rw [hm]
      decide
    rw [if_neg hne] at h
    cases value with
    | none => cases h
    | some bytes => exact Or.inr ⟨hm, rfl⟩

theorem validateEntries_fits {entries : List (List UInt8 × Option (List UInt8))}
    {es : List (Key × Option (List UInt8))} (h : validateEntries cfg entries = .ok es) :
    ∀ e ∈ es, ValueFits cfg e.2 := by
  induction entries generalizing es with
  | nil =>
    cases h
    simp
  | cons entry rest ih =>
    obtain ⟨key, value⟩ := entry
    rw [validateEntries] at h
    cases hk : validateKey key with
    | error e =>
      rw [hk] at h
      cases h
    | ok key' =>
      cases hv : validateValue cfg value with
      | error e =>
        rw [hk, hv] at h
        cases h
      | ok u =>
        cases hes : validateEntries cfg rest with
        | error e =>
          rw [hk, hv, hes] at h
          cases h
        | ok es' =>
          rw [hk, hv, hes] at h
          cases h
          intro e he
          rcases List.mem_cons.mp he with rfl | he
          · exact validateValue_fits hv
          · exact ih hes e he

theorem PreparedInsert.le_trans (a b c : PreparedInsert) (h1 : a.le b = true)
    (h2 : b.le c = true) : a.le c = true := by
  simp only [PreparedInsert.le, Bool.or_eq_true, Bool.and_eq_true, decide_eq_true_eq] at *
  omega

theorem PreparedInsert.le_total (a b : PreparedInsert) : (a.le b || b.le a) = true := by
  simp only [PreparedInsert.le, Bool.or_eq_true, Bool.and_eq_true, decide_eq_true_eq]
  omega

theorem zipIdx_pairwise {α : Type} (l : List α) (n : Nat) :
    (l.zipIdx n).Pairwise fun a b => a.2 < b.2 := by
  induction l generalizing n with
  | nil => exact .nil
  | cons x l ih =>
    rw [List.zipIdx_cons]
    refine List.pairwise_cons.mpr ⟨?_, ih (n + 1)⟩
    intro p hp
    have := (List.mem_zipIdx hp).1
    omega

theorem preparedInserts_bucket (es : List (Key × Option (List UInt8))) :
    ∀ p ∈ preparedInserts cfg es, p.bucket = bucketOf cfg p.key := by
  intro p hp
  obtain ⟨q, -, rfl⟩ := List.mem_map.mp hp
  rfl

theorem preparedInserts_pairs (es : List (Key × Option (List UInt8))) :
    (preparedInserts cfg es).map PreparedInsert.pair = es.map fun e => (e.1, e.2.getD []) := by
  nth_rewrite 2 [← List.zipIdx_map_fst 0 es]
  rw [preparedInserts, List.map_map, List.map_map]
  rfl

theorem filter_pairs {bucket : Key → Nat} {b : Nat} {l : List PreparedInsert}
    (hl : ∀ p ∈ l, p.bucket = bucket p.key) :
    (l.map PreparedInsert.pair).filter (fun e => bucket e.1 = b) =
      (l.filter (fun p => p.bucket = b)).map PreparedInsert.pair := by
  rw [List.filter_map]
  refine congrArg _ (List.filter_congr fun p hp => ?_)
  refine decide_eq_decide.mpr ?_
  rw [hl p hp, PreparedInsert.pair]

theorem filter_prepared (es : List (Key × Option (List UInt8))) (b : Nat) :
    ((preparedInserts cfg es).mergeSort PreparedInsert.le).filter (fun p => p.bucket = b) =
      (preparedInserts cfg es).filter (fun p => p.bucket = b) := by
  have hinput : (preparedInserts cfg es).Pairwise fun a b => a.order < b.order :=
    List.pairwise_map.mpr (zipIdx_pairwise es 0)
  refine Groups.filter_mergeSort PreparedInsert.le_trans PreparedInsert.le_total ?_ hinput
  intro p q hp hq hle
  simp only [decide_eq_true_eq] at hp hq
  simp only [PreparedInsert.le, Bool.or_eq_true, Bool.and_eq_true, decide_eq_true_eq] at hle
  omega

/-- Sorting keeps the input order inside each bucket, so the pushes come out the same. -/
theorem pushAll_prepared (es : List (Key × Option (List UInt8)))
    (T : Nat → List (Key × List UInt8)) :
    Buckets.pushAll (bucketOf cfg) T
        (((preparedInserts cfg es).mergeSort PreparedInsert.le).map PreparedInsert.pair) =
      Buckets.pushAll (bucketOf cfg) T (es.map fun e => (e.1, e.2.getD [])) := by
  refine Buckets.pushAll_congr fun b => ?_
  have hself : ∀ p ∈ preparedInserts cfg es, p.bucket = bucketOf cfg p.key :=
    preparedInserts_bucket es
  have hpairs : (preparedInserts cfg es).map PreparedInsert.pair = _ := preparedInserts_pairs es
  rw [← hpairs, filter_pairs hself,
    filter_pairs (fun p hp => hself p (List.mem_mergeSort.mp hp)), filter_prepared]

end Prepare

section Allocate
variable {s : Store} {heads : Nat → Nat} {bare : Set Allocation} {finished : List PreparedInsert}
  {inserts : List PrivateInsert} {p : PreparedInsert} {i : PrivateInsert}

def offsets (inserts : List PrivateInsert) : List Nat := inserts.map (·.node.offset)

theorem mem_offsets (hi : i ∈ inserts) : i.node.offset ∈ offsets inserts :=
  List.mem_map.mpr ⟨i, hi, rfl⟩

theorem nodesOf_subset {priv : Set Nat} : nodesOf chains ∅ ⊆ nodesOf chains priv := by
  rintro o (ho | ho)
  · exact Or.inl ho
  · exact absurd ho (Set.notMem_empty o)

/-- The private node made for a prepared entry. -/
structure Inserted (cfg : Config) (s : Store) (p : PreparedInsert) (i : PrivateInsert) : Prop where
  node : i.node = nodeAlloc cfg i.node.offset
  bucket : i.bucket = p.bucket
  entry : PrivateNode cfg s i.node.offset p.key p.value i.blob

/-- A batch in the making: its private nodes, and the reserved slots still bare. -/
structure Batch (cfg : Config) (s : Store) (heads : Nat → Nat) (chains : Nat → List Nat)
    (finished : List PreparedInsert) (inserts : List PrivateInsert) (bare : Set Allocation) :
    Prop where
  owned : Owned cfg s heads chains {o | o ∈ offsets inserts} bare ∅
  inserted : List.Forall₂ (Inserted cfg s) finished inserts
  nodup : (offsets inserts).Nodup

theorem PrivateNode.keeps {s' : Store} {N : Set Nat} {o : Nat} {key : Key}
    {value : Option (List UInt8)} {blob : Option Allocation}
    (h : PrivateNode cfg s o key value blob) (hk : Keeps cfg N s s') (ho : o ∈ N)
    (hok : EntryOk cfg s o) : PrivateNode cfg s' o key value blob := by
  refine ⟨(hk o ho).2.trans h.entry, ?_, (hk.same.blobSet_eq ho hok).trans h.blob⟩
  rw [(hk o ho).1]
  exact h.next

theorem Batch.keeps {s' : Store} (h : Batch cfg s heads chains finished inserts bare)
    (hk : Keeps cfg (nodesOf chains {o | o ∈ offsets inserts}) s s') :
    List.Forall₂ (Inserted cfg s') finished inserts := by
  have hmem : ∀ i ∈ inserts, i.node.offset ∈ nodesOf chains {o | o ∈ offsets inserts} :=
    fun i hi => Or.inr (mem_offsets hi)
  have hmono : ∀ p i, i ∈ inserts → Inserted cfg s p i → Inserted cfg s' p i := fun p i hi hins =>
    ⟨hins.node, hins.bucket, hins.entry.keeps hk (hmem i hi) (h.owned.heap.entry _ (hmem i hi))⟩
  have hall := h.inserted
  clear h hmem hk
  induction hall with
  | nil => exact .nil
  | cons hins _ ih =>
    exact .cons (hmono _ _ List.mem_cons_self hins)
      (ih fun p i hi => hmono p i (List.mem_cons_of_mem _ hi))

theorem Batch.mem_inserted (h : Batch cfg s heads chains finished inserts bare)
    (hi : i ∈ inserts) : ∃ p ∈ finished, Inserted cfg s p i := by
  have hall := h.inserted
  clear h
  induction hall with
  | nil => cases hi
  | cons hins _ ih =>
    rcases List.mem_cons.mp hi with rfl | hi
    · exact ⟨_, List.mem_cons_self, hins⟩
    · obtain ⟨p, hp, hins'⟩ := ih hi
      exact ⟨p, List.mem_cons_of_mem _ hp, hins'⟩

theorem Batch.entries (h : Batch cfg s heads chains finished inserts bare) :
    (offsets inserts).map (entryAt cfg s) = finished.map PreparedInsert.pair := by
  have hall := h.inserted
  clear h
  induction hall with
  | nil => rfl
  | cons hins _ ih =>
    rw [offsets, List.map_cons, List.map_cons, List.map_cons, hins.entry.entry]
    exact congrArg _ ih

theorem initializeReservedInsert_spec (hr : cfg.Ready)
    (h : Batch cfg s heads chains finished inserts bare) {x : Allocation} (hx : x ∈ bare)
    (hp : ValueFits cfg p.value) (hf : v = .fair → m.Enough cfg) :
    (initializeReservedInsert cfg m p x).wp v t (fun res s' =>
      Same cfg (nodesOf chains ∅) s s' ∧
      (∀ o, o ≠ x.offset → s'.slots o = s.slots o) ∧
      ((∃ i, res = .ok i ∧ i.node = x ∧
          Batch cfg s' heads chains (finished ++ [p]) (inserts ++ [i]) (bare \ {x})) ∨
        ∃ e, res = .error e ∧ Refusal v e ∧ s'.slots = s.slots ∧
          Batch cfg s' heads chains finished inserts bare)) s := by
  have hshape := (h.owned.heap.liveBare hx).1
  rw [initializeReservedInsert, wp_bind]
  refine wp_mono (allocateBlob_spec hr h.owned.heap hp (Machine.Enough.three hf)) ?_
  rintro _ s₁ ⟨hkeep, -, hslots, ⟨blob, encoded, rfl, hheap, henc, hdis⟩ | ⟨e, rfl, he, hheap⟩⟩
  · rw [andThen_ok, henc.eq, wp_bind, wp_ofExcept, andThen_ok, wp_bind, wp_attempt]
    refine wp_mono (writeNode_fresh hr hheap hx (henc.ready.mono Set.subset_union_right)) ?_
    rintro _ s₂ ⟨rfl, -, hplaced, hheap₂, hkeep₂⟩
    rw [andThen_ok]
    rw [henc.uses, union_optSet_diff hdis] at hheap₂
    have hkeeps := hkeep.trans hkeep₂
    have hoff : offsets (inserts ++ [⟨x, blob, p.bucket⟩]) = offsets inserts ++ [x.offset] := by
      simp [offsets]
    have hset : {o | o ∈ offsets (inserts ++ [⟨x, blob, p.bucket⟩])} =
        insert x.offset {o | o ∈ offsets inserts} := by
      ext o
      simp [hoff, or_comm]
    refine ⟨hkeeps.same.mono nodesOf_subset, fun o ho => ?_, Or.inl ⟨_, rfl, rfl, ?_, ?_, ?_⟩⟩
    · rw [hplaced.others o ho, hslots]
    · rw [hset]
      rw [← nodesOf_insert] at hheap₂
      refine h.owned.setStore (fun b o ho => (hkeeps o (mem_nodesOf ho)).1) hheap₂ ?_
      rintro b o ho (rfl | hp)
      · exact hplaced.fresh (mem_nodesOf ho)
      · exact h.owned.priv_free b o ho hp
    · refine List.rel_append (h.keeps hkeeps) (.cons ⟨hshape, rfl, ?_⟩ .nil)
      exact hplaced.privateNode henc
    · rw [hoff]
      refine List.nodup_append.mpr ⟨h.nodup, by simp, ?_⟩
      intro o ho o' ho' heq
      rw [List.mem_singleton.mp ho'] at heq
      subst heq
      exact hplaced.fresh (Or.inr ho)
  · rw [andThen_error]
    refine ⟨hkeep.same.mono nodesOf_subset, fun o _ => by rw [hslots],
      Or.inr ⟨e, rfl, he, hslots, ?_, h.keeps hkeep, h.nodup⟩⟩
    exact h.owned.setStore (fun b o ho => (hkeep o (mem_nodesOf ho)).1) hheap h.owned.priv_free

theorem cons_sdiff {α : Type} {x : α} {xs : List α} (h : (x :: xs).Nodup) :
    {y | y ∈ x :: xs} \ {x} = {y | y ∈ xs} := by
  ext y
  simp only [Set.mem_sdiff, Set.mem_ofPred_eq, List.mem_cons, Set.mem_singleton_iff]
  constructor
  · rintro ⟨rfl | hy, hne⟩
    · exact absurd rfl hne
    · exact hy
  · intro hy
    refine ⟨Or.inr hy, ?_⟩
    rintro rfl
    exact (List.nodup_cons.mp h).1 hy

/-- Reserved slots that nothing was written to go back one by one. -/
theorem releaseAll_spec (hr : cfg.Ready) {xs : List Allocation}
    (h : Batch cfg s heads chains finished inserts {x | x ∈ xs}) (hnd : xs.Nodup)
    (hz : ∀ x ∈ xs, (s.slots x.offset).checksum = 0) (hf : v = .fair → m.Enough cfg) :
    (releaseAll cfg m xs).wp v t (fun res s' => res = .ok () ∧
      (∃ c, s' = { s with body := c }) ∧ Batch cfg s' heads chains finished inserts ∅) s := by
  induction xs generalizing s with
  | nil =>
    refine ⟨rfl, ⟨s.body, rfl⟩, ?_⟩
    have hempty : {x | x ∈ ([] : List Allocation)} = ∅ := by
      ext x
      simp
    rw [hempty] at h
    exact h
  | cons x xs ih =>
    have hlive : x ∈ s.body.live := (h.owned.heap.live_iff x).mpr (Or.inr List.mem_cons_self)
    rw [releaseAll, wp_bind, wp_onBody]
    refine wp_mono (releaseCount_spec hr.valid.bodyLayout_ok h.owned.heap.body hlive
      (Machine.Enough.one hf)) ?_
    rintro _ c ⟨rfl, hq, hl, -, -⟩
    rw [andThen_ok]
    have hheap := h.owned.heap.releaseBody hq (show x ∈ {y | y ∈ x :: xs} from List.mem_cons_self)
      (hz x List.mem_cons_self) hl
    rw [cons_sdiff hnd] at hheap
    have hbatch : Batch cfg { s with body := c } heads chains finished inserts {y | y ∈ xs} :=
      ⟨h.owned.setStore (fun _ _ _ => rfl) hheap h.owned.priv_free,
        h.keeps (keeps_cells cfg _ s c s.blobs), h.nodup⟩
    refine wp_mono (ih hbatch (List.nodup_cons.mp hnd).2 fun y hy => hz y (List.mem_cons_of_mem x hy)) ?_
    rintro _ s' ⟨rfl, ⟨c', rfl⟩, hbatch'⟩
    exact ⟨rfl, ⟨c', rfl⟩, hbatch'⟩

/-- The entries of one reservation: all of them get their node, or what was not used is
given back. -/
theorem initializeReserved_spec (hr : cfg.Ready) {entries : List PreparedInsert}
    {xs : List Allocation} (h : Batch cfg s heads chains finished inserts {x | x ∈ xs})
    (hlen : entries.length = xs.length) (hnd : xs.Nodup)
    (hz : ∀ x ∈ xs, (s.slots x.offset).checksum = 0) (hp : ∀ p ∈ entries, ValueFits cfg p.value)
    (hf : v = .fair → m.Enough cfg) :
    (initializeReserved cfg m entries xs inserts).wp v t (fun res s' =>
      Same cfg (nodesOf chains ∅) s s' ∧
      ∃ inserts' result, res = .ok (inserts', result) ∧
        ((result = .ok () ∧ Batch cfg s' heads chains (finished ++ entries) inserts' ∅) ∨
          ∃ e, result = .error e ∧ Refusal v e ∧
            ∃ part, Batch cfg s' heads chains part inserts' ∅)) s := by
  induction entries generalizing s finished inserts xs with
  | nil =>
    have hxs : xs = [] := List.eq_nil_of_length_eq_zero hlen.symm
    subst hxs
    have hempty : {x | x ∈ ([] : List Allocation)} = ∅ := by
      ext x
      simp
    rw [hempty] at h
    refine ⟨.refl cfg _ s, inserts, .ok (), rfl, Or.inl ⟨rfl, ?_⟩⟩
    rw [List.append_nil]
    exact h
  | cons p entries ih =>
    cases xs with
    | nil => cases hlen
    | cons x xs =>
      have hx : x ∈ {y | y ∈ x :: xs} := List.mem_cons_self
      rw [initializeReserved, wp_bind, wp_attempt]
      refine wp_mono (initializeReservedInsert_spec hr h hx (hp p List.mem_cons_self) hf) ?_
      rintro _ s₁ ⟨hsame, hslots, ⟨i, rfl, rfl, hbatch⟩ | ⟨e, rfl, he, hslots', hbatch⟩⟩
      · rw [andThen_ok]
        dsimp only
        rw [cons_sdiff hnd] at hbatch
        obtain ⟨hxs, hnd'⟩ := List.nodup_cons.mp hnd
        -- the other reserved slots are still as they were
        have hz' : ∀ y ∈ xs, (s₁.slots y.offset).checksum = 0 := by
          intro y hy
          have hne : y.offset ≠ i.node.offset := by
            intro heq
            have hshape := (h.owned.heap.liveBare (List.mem_cons_of_mem i.node hy)).1
            rw [heq, ← (h.owned.heap.liveBare hx).1] at hshape
            exact hxs (hshape ▸ hy)
          rw [hslots _ hne]
          exact hz y (List.mem_cons_of_mem _ hy)
        refine wp_mono (ih hbatch (by simpa using hlen) hnd' hz'
          fun q hq => hp q (List.mem_cons_of_mem p hq)) ?_
        rintro _ s' ⟨hsame', inserts', result, rfl, hcase⟩
        rw [List.append_assoc] at hcase
        exact ⟨hsame.trans hsame', inserts', result, rfl, hcase⟩
      · rw [andThen_ok]
        dsimp only
        have hz' : ∀ y ∈ x :: xs, (s₁.slots y.offset).checksum = 0 := by
          rw [hslots']
          exact hz
        rw [wp_bind, wp_attempt]
        refine wp_mono (releaseAll_spec hr hbatch hnd hz' hf) ?_
        rintro _ s' ⟨rfl, ⟨c, rfl⟩, hbatch'⟩
        rw [andThen_ok]
        exact ⟨hsame.trans (keeps_cells cfg _ s₁ c s₁.blobs).same, inserts, .error e, rfl,
          Or.inr ⟨e, rfl, he, finished, hbatch'⟩⟩

theorem mem_allocations {batch : AllocationBatch} {x : Allocation} :
    x ∈ batch.allocations ↔
      ∃ j < batch.count, x = ⟨batch.offset + j * batch.stride, batch.length, batch.block⟩ := by
  simp only [AllocationBatch.allocations, List.mem_map, List.mem_range]
  constructor
  · rintro ⟨j, hj, rfl⟩
    exact ⟨j, hj, rfl⟩
  · rintro ⟨j, hj, rfl⟩
    exact ⟨j, hj, rfl⟩

/-- A granted batch of node slots, and the private nodes made so far. -/
theorem Batch.reserve (hr : cfg.Ready) (h : Batch cfg s heads chains finished inserts ∅)
    {c : Cells} {batch : AllocationBatch} {requested : Nat} (hq : Quiet cfg.bodyLayout c)
    (hg : Granted cfg.bodyLayout nodeSize nodeAlignment requested batch)
    (hl : c.live = batch.allocations ++ s.body.live) :
    Batch cfg { s with body := c } heads chains finished inserts {x | x ∈ batch.allocations} ∧
      batch.allocations.Nodup ∧
      ∀ x ∈ batch.allocations, (s.slots x.offset).checksum = 0 := by
  have hstride : batch.stride = nodeAlignment := by
    have heq := hg.stride_eq
    have hval : alignUp nodeSize nodeAlignment = some nodeAlignment := by decide
    rw [hval] at heq
    exact (Option.some.inj heq).symm
  have hshape : ∀ x ∈ batch.allocations,
      x = nodeAlloc cfg x.offset ∧ x.offset % nodeAlignment = 0 := by
    intro x hx
    have hfits := (hq.pages.fits x (by rw [hl]; exact List.mem_append_left _ hx)).1
    obtain ⟨j, -, rfl⟩ := mem_allocations.mp hx
    refine slot_of_fits hr.valid hfits hg.length_eq ?_
    obtain ⟨k, hk⟩ := hg.aligned
    refine ⟨k + j, ?_⟩
    dsimp only
    rw [hk, hstride, Nat.add_mul, Nat.add_assoc]
  have hheap := h.owned.heap.allocBody hq hl hshape
  rw [Set.empty_union] at hheap
  refine ⟨⟨h.owned.setStore (fun _ _ _ => rfl) hheap h.owned.priv_free,
    h.keeps (keeps_cells cfg _ s c s.blobs), h.nodup⟩, ?_, ?_⟩
  · have hnd := hq.pages.nodup
    rw [hl] at hnd
    exact (List.nodup_append.mp hnd).1
  · intro x hx
    exact h.owned.heap.zero _ (hheap.bare_free x hx) (Set.notMem_empty _)

theorem allocatePrivateInserts_spec (hr : cfg.Ready) {prepared : List PreparedInsert} {fuel : Nat}
    (h : Batch cfg s heads chains finished inserts ∅)
    (hp : ∀ p ∈ prepared, ValueFits cfg p.value) (hfuel : prepared.length < fuel)
    (hf : v = .fair → m.Enough cfg) :
    (allocatePrivateInserts cfg m fuel prepared inserts).wp v t (fun res s' =>
      Same cfg (nodesOf chains ∅) s s' ∧
      ∃ inserts' result, res = .ok (inserts', result) ∧
        ((result = .ok () ∧ Batch cfg s' heads chains (finished ++ prepared) inserts' ∅) ∨
          ∃ e, result = .error e ∧ Refusal v e ∧
            ∃ part, Batch cfg s' heads chains part inserts' ∅)) s := by
  induction fuel generalizing s finished inserts prepared with
  | zero => omega
  | succ fuel ih =>
    rw [allocatePrivateInserts]
    cases hcase : prepared.isEmpty with
    | true =>
      have hnil : prepared = [] := List.isEmpty_iff.mp hcase
      subst hnil
      rw [if_pos rfl, wp_pure, List.append_nil]
      exact ⟨.refl cfg _ s, inserts, .ok (), rfl, Or.inl ⟨rfl, h⟩⟩
    | false =>
      have hL := hr.valid.bodyLayout_ok
      have hmin := hL.block_min
      have hpage : formatPageSize = 65536 := rfl
      have hnode : nodeAlignment = 32 := rfl
      rw [if_neg (by decide), wp_bind, wp_attempt, wp_onBody]
      refine wp_mono (allocateBatch_spec hL h.owned.heap.body (by decide) (by decide) (by omega)
        (Machine.Enough.three hf)) ?_
      rintro _ c ⟨hq, ⟨batch, rfl, hg, hl, -⟩ | ⟨e, rfl, he, hl, -⟩⟩
      · obtain ⟨hbatch, hnd, hz⟩ := h.reserve hr hq hg hl
        have hcount : batch.allocations.length = batch.count := by
          simp [AllocationBatch.allocations]
        have hle := hg.count_le
        have hpos := hg.count_pos
        rw [andThen_ok]
        dsimp only
        rw [wp_bind]
        refine wp_mono (initializeReserved_spec hr hbatch ?_ hnd hz
          (fun p hp' => hp p (List.mem_of_mem_take hp')) hf) ?_
        · rw [List.length_take, hcount]
          omega
        · rintro _ s₁ ⟨hsame, inserts₁, result, rfl, ⟨rfl, hbatch₁⟩ | ⟨e, rfl, he, part, hbatch₁⟩⟩
          · rw [andThen_ok]
            dsimp only
            refine wp_mono (ih hbatch₁ (fun p hp' => hp p (List.mem_of_mem_drop hp')) ?_) ?_
            · rw [List.length_drop]
              omega
            · rintro _ s' ⟨hsame', inserts', result, rfl, hcase'⟩
              rw [List.append_assoc, List.take_append_drop] at hcase'
              exact ⟨hsame.trans hsame', inserts', result, rfl, hcase'⟩
          · rw [andThen_ok]
            exact ⟨hsame, inserts₁, .error e, rfl, Or.inr ⟨e, rfl, he, part, hbatch₁⟩⟩
      · rw [andThen_ok]
        refine ⟨(keeps_cells cfg _ s c s.blobs).same, inserts, .error e, rfl,
          Or.inr ⟨e, rfl, he.refusal, finished, ?_, h.keeps (keeps_cells cfg _ s c s.blobs), h.nodup⟩⟩
        exact h.owned.setStore (fun _ _ _ => rfl) (h.owned.heap.setBody hq hl) h.owned.priv_free

end Allocate

section Abandon
variable {d : Db} {α : Type}

/-- A rule for `eachFirstError` over calls that all succeed. -/
theorem eachFirstError_spec {f : α → TableM Unit} {I : List α → Db → Prop}
    (hstep : ∀ x xs d, I (x :: xs) d → (f x).wp v t (fun res d' => res = .ok () ∧ I xs d') d)
    {xs : List α} (h : I xs d) :
    (eachFirstError f xs).wp v t (fun res d' => res = .ok () ∧ I [] d') d := by
  induction xs generalizing d with
  | nil => exact ⟨rfl, h⟩
  | cons x xs ih =>
    rw [eachFirstError, wp_bind, wp_attempt]
    refine wp_mono (hstep x xs d h) ?_
    rintro _ d₁ ⟨rfl, h₁⟩
    rw [andThen_ok, wp_bind, wp_attempt]
    refine wp_mono (ih h₁) ?_
    rintro _ d₂ ⟨rfl, h₂⟩
    exact ⟨rfl, h₂⟩

/-- What is left of an abandoned batch: the inserts still to be released. -/
structure Abandoned (cfg : Config) (d₀ : Db) (chains : Nat → List Nat)
    (inserts : List PrivateInsert) (d : Db) : Prop where
  frame : Frame d₀ d
  same : Same cfg (nodesOf chains ∅) d₀.store d.store
  owned : Owned cfg d.store d.runtimeHeads chains {o | o ∈ offsets inserts} ∅ ∅
  nodup : (offsets inserts).Nodup
  inserts : ∀ i ∈ inserts, i.node = nodeAlloc cfg i.node.offset ∧
    optSet i.blob = blobSet cfg d.store (d.store.slots i.node.offset).value

theorem Batch.abandoned {part : List PreparedInsert} {inserts : List PrivateInsert}
    (h : Batch cfg d.store d.runtimeHeads chains part inserts ∅) :
    Abandoned cfg d chains inserts.reverse d := by
  have hset : {o | o ∈ offsets inserts.reverse} = {o | o ∈ offsets inserts} := by
    ext o
    simp [offsets]
  refine ⟨.refl d, .refl cfg _ _, ?_, ?_, ?_⟩
  · rw [hset]
    exact h.owned
  · rw [offsets, List.map_reverse]
    exact List.nodup_reverse.mpr h.nodup
  · intro i hi
    obtain ⟨p, -, hins⟩ := h.mem_inserted (List.mem_reverse.mp hi)
    exact ⟨hins.node, hins.entry.blob.symm⟩

theorem abandonBatch_spec (hr : cfg.Ready) {part : List PreparedInsert}
    {inserts : List PrivateInsert} (h : Batch cfg d.store d.runtimeHeads chains part inserts ∅)
    (e : Error) (hf : v = .fair → m.Enough cfg) :
    (abandonBatch cfg m inserts e : TableM α).wp v t (fun res d' => Frame d d' ∧ res = .error e ∧
      Owned cfg d'.store d'.runtimeHeads chains ∅ ∅ ∅ ∧
      Same cfg (nodesOf chains ∅) d.store d'.store) d := by
  rw [abandonBatch, wp_bind, releasePrivateBatch]
  refine wp_mono (eachFirstError_spec (I := Abandoned cfg d chains) ?_ h.abandoned) ?_
  · intro i rest d₁ hab
    obtain ⟨hnode, hset⟩ := hab.inserts i List.mem_cons_self
    have hmem : i.node.offset ∈ {o | o ∈ offsets (i :: rest)} := List.mem_cons_self
    rw [wp_onStore, hnode]
    refine wp_mono (releasePrivate_spec hr hab.owned.heap (Or.inr hmem) hset
      (Machine.Enough.one hf)) ?_
    rintro _ s ⟨rfl, hdrop⟩
    have howned := hab.owned.drop hmem hdrop
    rw [show {o | o ∈ offsets (i :: rest)} \ {i.node.offset} = {o | o ∈ offsets rest} from
      cons_sdiff hab.nodup] at howned
    have hsame := hdrop.2.same
    refine ⟨rfl, hab.frame.trans rfl, hab.same.trans (hsame.mono ?_), howned,
      (List.nodup_cons.mp hab.nodup).2, ?_⟩
    · intro o ho
      refine ⟨nodesOf_subset ho, ?_⟩
      rintro rfl
      rcases ho with ⟨b, ho⟩ | ho
      · exact hab.owned.priv_free b _ ho hmem
      · exact ho
    · intro j hj
      obtain ⟨hnode', hset'⟩ := hab.inserts j (List.mem_cons_of_mem i hj)
      have hne : j.node.offset ≠ i.node.offset := by
        intro heq
        have hin := mem_offsets hj
        rw [heq] at hin
        exact (List.nodup_cons.mp hab.nodup).1 hin
      have hmem' : j.node.offset ∈ nodesOf chains {o | o ∈ offsets (i :: rest)} :=
        Or.inr (mem_offsets (List.mem_cons_of_mem i hj))
      refine ⟨hnode', hset'.trans ?_⟩
      exact (hsame.blobSet_eq ⟨hmem', hne⟩ (hab.owned.heap.entry _ hmem')).symm
  · rintro _ d' ⟨rfl, hab⟩
    have hempty : {o | o ∈ offsets []} = ∅ := by
      ext o
      simp [offsets]
    have howned := hab.owned
    rw [hempty] at howned
    exact ⟨hab.frame, rfl, howned, hab.same⟩

end Abandon

section Link
variable {s : Store} {heads : Nat → Nat} {priv : Set Nat} {inserts : List PrivateInsert}

/-- Within a bucket each private node points to the one before it. -/
def Linked (next : Nat → Nat) : List PrivateInsert → Prop
  | previous :: current :: rest =>
    (previous.bucket = current.bucket → next current.node.offset = previous.node.offset) ∧
      Linked next (current :: rest)
  | _ => True

theorem linkPrivateBatch_spec (hr : cfg.Ready) (h : Owned cfg s heads chains priv ∅ ∅)
    (hpriv : ∀ i ∈ inserts, i.node.offset ∈ priv) (hnd : (offsets inserts).Nodup)
    (hzero : ∀ i ∈ inserts.tail, (s.slots i.node.offset).next = 0) :
    (linkPrivateBatch cfg inserts).wp v t (fun res s' => res = .ok () ∧
      Owned cfg s' heads chains priv ∅ ∅ ∧ Same cfg Set.univ s s' ∧ Linked s'.next inserts ∧
      ∀ o, o ∉ offsets inserts.tail → s'.slots o = s.slots o) s := by
  induction inserts generalizing s with
  | nil => exact ⟨rfl, h, .refl cfg _ s, trivial, fun _ _ => rfl⟩
  | cons previous rest ih =>
    cases rest with
    | nil => exact ⟨rfl, h, .refl cfg _ s, trivial, fun _ _ => rfl⟩
    | cons current rest =>
      have hnd' := (List.nodup_cons.mp hnd).2
      have hcur := hpriv current (by simp)
      have hle := h.place_le hr.valid (Or.inr (hpriv previous List.mem_cons_self))
      rw [linkPrivateBatch]
      by_cases hb : previous.bucket = current.bucket
      · rw [if_pos hb, wp_bind, setPrivateNext_spec hr.valid h.heap.body
          (h.heap.liveNode (Or.inr hcur)) (hzero current (by simp)) hle, andThen_ok]
        have hfresh : ∀ i ∈ rest, i.node.offset ≠ current.node.offset := by
          intro i hi heq
          have hin := mem_offsets hi
          rw [heq] at hin
          exact (List.nodup_cons.mp hnd').1 hin
        refine wp_mono (ih (h.setPrivate hcur hle) (fun i hi => hpriv i (List.mem_cons_of_mem _ hi))
          hnd' ?_) ?_
        · intro i hi
          rw [setSlot_slots_ne s _ (hfresh i hi)]
          exact hzero i (List.mem_cons_of_mem _ hi)
        · rintro _ s' ⟨rfl, howned, hsame, hlinked, hslots⟩
          refine ⟨rfl, howned, (same_setNext h.heap _ hle).trans hsame,
            ⟨fun _ => ?_, hlinked⟩, ?_⟩
          · rw [Store.next, hslots _ (List.nodup_cons.mp hnd').1, setSlot_slots_self,
              Slot.withNext_next _ hle]
          · intro o ho
            have hmem : o ≠ current.node.offset ∧ o ∉ offsets rest := by
              simpa [offsets] using ho
            rw [hslots o hmem.2, setSlot_slots_ne s _ hmem.1]
      · rw [if_neg hb]
        refine wp_mono (ih h (fun i hi => hpriv i (List.mem_cons_of_mem _ hi)) hnd'
          fun i hi => hzero i (List.mem_cons_of_mem _ hi)) ?_
        rintro _ s' ⟨rfl, howned, hsame, hlinked, hslots⟩
        refine ⟨rfl, howned, hsame, ⟨fun heq => absurd heq hb, hlinked⟩, ?_⟩
        intro o ho
        exact hslots o fun hin => ho (List.mem_cons_of_mem _ hin)

theorem Linked.congr {next next' : Nat → Nat} (h : Linked next inserts)
    (heq : ∀ i ∈ inserts, next' i.node.offset = next i.node.offset) : Linked next' inserts := by
  induction inserts with
  | nil => exact trivial
  | cons previous rest ih =>
    cases rest with
    | nil => exact trivial
    | cons current rest =>
      refine ⟨fun hb => ?_, ih h.2 fun i hi => heq i (List.mem_cons_of_mem _ hi)⟩
      rw [heq current (by simp)]
      exact h.1 hb

/-- The segment a linked group of one bucket forms, from its last node to its first. -/
theorem Linked.segment {next : Nat → Nat} {first : PrivateInsert} {rest : List PrivateInsert}
    (h : Linked next (first :: rest)) (hb : ∀ i ∈ rest, i.bucket = first.bucket)
    (hpos : ∀ i ∈ rest, i.node.offset ≠ 0) :
    IsSegment next first.node.offset
      (((first :: rest).getLast (List.cons_ne_nil _ _)).node.offset) (offsets rest).reverse := by
  induction rest generalizing first with
  | nil => rfl
  | cons current rest ih =>
    have hcur := hb current List.mem_cons_self
    have hseg := ih h.2 (fun i hi => (hb i (List.mem_cons_of_mem _ hi)).trans hcur.symm)
      fun i hi => hpos i (List.mem_cons_of_mem _ hi)
    have hrev : (offsets (current :: rest)).reverse =
        (offsets rest).reverse ++ [current.node.offset] := by
      simp [offsets]
    rw [hrev, List.getLast_cons (List.cons_ne_nil current rest)]
    refine isSegment_append.mpr ⟨_, hseg, rfl, hpos current List.mem_cons_self, ?_⟩
    exact h.1 hcur.symm

end Link

section Commit
variable {d : Db} {T : Nat → List (Key × List UInt8)}

/-- The group a run of inserts of one bucket is published as. -/
def groupOf : List PrivateInsert → PrivateGroup
  | [] => ⟨0, 0, 0⟩
  | first :: rest => ⟨first.bucket, first.node.offset,
      ((first :: rest).getLast (List.cons_ne_nil _ _)).node.offset⟩

theorem collectPrivateGroups_eq {inserts : List PrivateInsert}
    (hb : ∀ i ∈ inserts, i.bucket < cfg.bucketCount) :
    collectPrivateGroups cfg inserts =
      .ok ((inserts.splitBy fun a b => a.bucket = b.bucket).map groupOf) := by
  have hmem : ∀ g ∈ inserts.splitBy fun a b => a.bucket = b.bucket, ∀ i ∈ g, i ∈ inserts := by
    intro g hg i hi
    rw [← List.flatten_splitBy (fun a b => a.bucket = b.bucket) inserts]
    exact List.mem_flatten_of_mem hg hi
  have hne : ∀ g ∈ inserts.splitBy fun a b => a.bucket = b.bucket, g ≠ [] :=
    fun g hg => List.ne_nil_of_mem_splitBy hg
  rw [collectPrivateGroups]
  generalize (inserts.splitBy fun a b => a.bucket = b.bucket) = groups at hmem hne
  induction groups with
  | nil => rfl
  | cons g groups ih =>
    rw [List.mapM_cons, ih (fun g' hg' => hmem g' (List.mem_cons_of_mem g hg'))
      fun g' hg' => hne g' (List.mem_cons_of_mem g hg')]
    cases g with
    | nil => exact absurd rfl (hne [] List.mem_cons_self)
    | cons first rest =>
      have hcheck := checkHead_ok (hb first (hmem _ List.mem_cons_self first List.mem_cons_self))
      simp only [List.head?_cons, List.getLast?_eq_some_getLast (List.cons_ne_nil first rest), hcheck]
      rfl

/-- Private groups that are linked and ready to be published, one after the other. -/
structure GroupsReady (cfg : Config) (d : Db) (chains : Nat → List Nat)
    (groups : List (List PrivateInsert)) : Prop where
  owned : Owned cfg d.store d.runtimeHeads chains {o | o ∈ offsets groups.flatten} ∅ ∅
  nodup : (offsets groups.flatten).Nodup
  home : ∀ i ∈ groups.flatten, bucketOf cfg (d.store.slots i.node.offset).key = i.bucket
  nonempty : ∀ g ∈ groups, g ≠ []
  runs : ∀ g ∈ groups, List.IsChain (fun a b => decide (a.bucket = b.bucket) = true) g
  linked : ∀ g ∈ groups, Linked d.store.next g

theorem commitGroups_spec (hr : cfg.Ready) {groups : List (List PrivateInsert)}
    (h : GroupsReady cfg d chains groups) (hf : v = .fair → m.Enough cfg) :
    (commitGroups cfg m (groups.map groupOf)).wp v t (fun res d' => Frame d d' ∧ res = .ok () ∧
      Holds cfg d'.store d'.runtimeHeads (Buckets.pushAll (bucketOf cfg)
        (content cfg d.store chains)
        ((offsets groups.flatten).map (entryAt cfg d.store)))) d := by
  induction groups generalizing d chains with
  | nil =>
    refine ⟨.refl d, rfl, chains, ?_, rfl⟩
    have hempty : {o | o ∈ offsets ([] : List (List PrivateInsert)).flatten} = ∅ := by
      ext o
      simp [offsets]
    rw [← hempty]
    exact h.owned
  | cons g groups ih =>
    cases g with
    | nil => exact absurd rfl (h.nonempty [] List.mem_cons_self)
    | cons first rest =>
      have hmem : (first :: rest) ∈ (first :: rest) :: groups := List.mem_cons_self
      have hclass : ∀ i ∈ rest, i.bucket = first.bucket := Groups.class_of_run (h.runs _ hmem)
      have hflat : offsets ((first :: rest) :: groups).flatten =
          first.node.offset :: offsets rest ++ offsets groups.flatten := by
        simp [offsets]
      have hnd := h.nodup
      rw [hflat] at hnd
      obtain ⟨hnd₁, hnd₂, hdis⟩ := List.nodup_append.mp hnd
      have hpriv : ∀ x ∈ (offsets rest).reverse ++ [first.node.offset],
          x ∈ {o | o ∈ offsets ((first :: rest) :: groups).flatten} := by
        intro x hx
        simp only [List.mem_append, List.mem_reverse, List.mem_singleton] at hx
        simp only [Set.mem_ofPred_eq, hflat, List.mem_append, List.mem_cons]
        exact Or.inl hx.symm
      have hhome : ∀ i ∈ first :: rest,
          bucketOf cfg (d.store.slots i.node.offset).key = first.bucket := by
        intro i hi
        rw [h.home i (List.mem_flatten_of_mem hmem hi)]
        rcases List.mem_cons.mp hi with rfl | hi
        · rfl
        · exact hclass i hi
      have hoff : ∀ x ∈ (offsets rest).reverse ++ [first.node.offset],
          bucketOf cfg (d.store.slots x).key = first.bucket := by
        intro x hx
        simp only [List.mem_append, List.mem_reverse, List.mem_singleton] at hx
        rcases hx with hx | rfl
        · obtain ⟨i, hi, rfl⟩ := List.mem_map.mp hx
          exact hhome i (List.mem_cons_of_mem _ hi)
        · exact hhome first List.mem_cons_self
      have hb : first.bucket < cfg.bucketCount := by
        rw [← hhome first List.mem_cons_self]
        exact bucketOf_lt hr.valid _
      have hpos : ∀ i ∈ rest, i.node.offset ≠ 0 := fun i hi =>
        (h.owned.heap.liveNode (Or.inr (hpriv i.node.offset (by simp [mem_offsets hi])))).pos
          hr.valid h.owned.heap.body
      rw [List.map_cons, commitGroups, wp_bind]
      refine wp_mono (commitPrivateGroup_spec hr h.owned hb
        ((h.linked _ hmem).segment hclass hpos) (by simpa using (List.nodup_cons.mp hnd₁).1)
        hpriv hoff (Machine.Enough.one hf)) ?_
      rintro _ d₁ ⟨rfl, hframe, howned, hsame, hslots⟩
      have hrest : {o | o ∈ offsets ((first :: rest) :: groups).flatten} \
          {x | x ∈ (offsets rest).reverse ++ [first.node.offset]} =
          {o | o ∈ offsets groups.flatten} := by
        ext x
        simp only [hflat, Set.mem_sdiff, Set.mem_ofPred_eq, List.mem_append, List.mem_reverse,
          List.mem_cons, List.not_mem_nil, or_false]
        constructor
        · rintro ⟨hx | hx, hn⟩
          · exact absurd hx.symm hn
          · exact hx
        · intro hx
          refine ⟨Or.inr hx, fun hx' => hdis x (List.mem_cons.mpr hx'.symm) x hx rfl⟩
      rw [hrest] at howned
      have hready : GroupsReady cfg d₁ (Function.update chains first.bucket
          ((offsets rest).reverse ++ [first.node.offset] ++ chains first.bucket)) groups := by
        refine ⟨howned, hnd₂, ?_, fun g hg => h.nonempty g (List.mem_cons_of_mem _ hg),
          fun g hg => h.runs g (List.mem_cons_of_mem _ hg), ?_⟩
        · intro i hi
          rw [hsame.key (Set.mem_univ _)]
          exact h.home i (by simp [hi])
        · intro g hg
          refine (h.linked g (List.mem_cons_of_mem _ hg)).congr fun i hi => ?_
          have hin : i.node.offset ∈ offsets groups.flatten :=
            mem_offsets (List.mem_flatten_of_mem hg hi)
          rw [Store.next, hslots _ fun heq => hdis _ List.mem_cons_self _ hin heq.symm, Store.next]
      rw [andThen_ok]
      refine wp_mono (ih hready) ?_
      rintro _ d₂ ⟨hframe₂, rfl, hholds⟩
      refine ⟨hframe.trans hframe₂, rfl, ?_⟩
      have hkeys : ∀ e ∈ (first.node.offset :: offsets rest).map (entryAt cfg d.store),
          bucketOf cfg e.1 = first.bucket := by
        intro e he
        obtain ⟨x, hx, rfl⟩ := List.mem_map.mp he
        exact hoff x (by simpa [or_comm] using hx)
      have hpush : content cfg d₁.store (Function.update chains first.bucket
          ((offsets rest).reverse ++ [first.node.offset] ++ chains first.bucket)) =
          Buckets.pushAll (bucketOf cfg) (content cfg d.store chains)
            ((first.node.offset :: offsets rest).map (entryAt cfg d.store)) := by
        rw [content_same hsame fun _ _ _ => Set.mem_univ _, content_update,
          Buckets.pushAll_bucket hkeys, List.map_append, List.map_append, ← List.map_reverse,
          List.reverse_cons, List.map_append]
        rfl
      have hentries : (offsets groups.flatten).map (entryAt cfg d₁.store) =
          (offsets groups.flatten).map (entryAt cfg d.store) :=
        List.map_congr_left fun x _ => (hsame x (Set.mem_univ x)).2
      rw [hpush, hentries, ← Buckets.pushAll_append, ← List.map_append] at hholds
      rw [hflat]
      exact hholds

/-- A run of the linked batch is linked. -/
theorem Linked.runs {next : Nat → Nat} {groups : List (List PrivateInsert)}
    (h : Linked next groups.flatten) : ∀ g ∈ groups, Linked next g := by
  have happend : ∀ (l r : List PrivateInsert), Linked next (l ++ r) → Linked next l ∧ Linked next r := by
    intro l r hlr
    induction l with
    | nil => exact ⟨trivial, hlr⟩
    | cons x l ih =>
      cases l with
      | nil =>
        cases r with
        | nil => exact ⟨trivial, trivial⟩
        | cons y r => exact ⟨trivial, hlr.2⟩
      | cons y l => exact ⟨⟨hlr.1, (ih hlr.2).1⟩, (ih hlr.2).2⟩
  induction groups with
  | nil => simp
  | cons g groups ih =>
    obtain ⟨hg, hrest⟩ := happend g groups.flatten h
    intro g' hg'
    rcases List.mem_cons.mp hg' with rfl | hg'
    · exact hg
    · exact ih hrest g' hg'

theorem insertBatchInner_spec (hr : cfg.Ready) (hi : Idle d) (h : Holds cfg d.store d.runtimeHeads T)
    {entries : List (List UInt8 × Option (List UInt8))} {es : List (Key × Option (List UInt8))}
    (hes : validateEntries cfg entries = .ok es) (hf : v = .fair → m.Enough cfg) :
    (insertBatchInner cfg m entries).wp v t (fun res d' => Frame d d' ∧
      Outcome cfg v d es.length
        (Buckets.pushAll (bucketOf cfg) T (es.map fun e => (e.1, e.2.getD []))) res d'.store
        d'.runtimeHeads) d := by
  obtain ⟨chains, howned, rfl⟩ := h
  refine wp_operation hi.quiescence (P := Outcome cfg v d _ _) ?_
  rw [prepareBatch_eq hes, wp_bind, wp_ofExcept, andThen_ok]
  generalize hprep : (preparedInserts cfg es).mergeSort PreparedInsert.le = prepared
  have hmem : ∀ p ∈ prepared, p ∈ preparedInserts cfg es := by
    intro p hp
    rw [← hprep] at hp
    exact List.mem_mergeSort.mp hp
  have hfits : ∀ p ∈ prepared, ValueFits cfg p.value := by
    intro p hp
    obtain ⟨q, hq, rfl⟩ := List.mem_map.mp (hmem p hp)
    exact validateEntries_fits hes q.1 (List.fst_mem_of_mem_zipIdx hq)
  have hlen : prepared.length = es.length := by
    rw [← hprep, List.length_mergeSort, preparedInserts, List.length_map, List.length_zipIdx]
  have hpush : Buckets.pushAll (bucketOf cfg) (content cfg d.store chains)
      (((preparedInserts cfg es).mergeSort PreparedInsert.le).map PreparedInsert.pair) = _ :=
    pushAll_prepared es _
  rw [hprep] at hpush
  cases hcase : prepared.isEmpty with
  | true =>
    have hnil : prepared = [] := List.isEmpty_iff.mp hcase
    rw [if_pos rfl, wp_pure, ← hlen, hnil]
    rw [hnil] at hpush
    refine ⟨rfl, Or.inl ⟨rfl, chains, howned, ?_⟩⟩
    rw [← hpush]
    rfl
  | false =>
    have hempty : Batch cfg d.store d.runtimeHeads chains [] [] ∅ := by
      refine ⟨?_, .nil, List.nodup_nil⟩
      have hset : {o | o ∈ offsets []} = ∅ := by
        ext o
        simp [offsets]
      rw [hset]
      exact howned
    rw [if_neg (by decide), wp_bind, wp_onStore]
    refine wp_mono (allocatePrivateInserts_spec hr hempty hfits (Nat.lt_succ_self _) hf) ?_
    rintro _ s ⟨hsame, inserts, result, rfl, ⟨rfl, hbatch⟩ | ⟨e, rfl, he, part, hbatch⟩⟩
    · rw [List.nil_append] at hbatch
      have hbucket : ∀ i ∈ inserts, bucketOf cfg (s.slots i.node.offset).key = i.bucket := by
        intro i hi
        obtain ⟨p, hp, hins⟩ := hbatch.mem_inserted hi
        have hkey : (s.slots i.node.offset).key = p.key := congrArg Prod.fst hins.entry.entry
        rw [hkey, hins.bucket, preparedInserts_bucket es p (hmem p hp)]
      have hlt : ∀ i ∈ inserts, i.bucket < cfg.bucketCount := by
        intro i hi
        rw [← hbucket i hi]
        exact bucketOf_lt hr.valid _
      rw [andThen_ok]
      dsimp only
      rw [wp_bind, wp_attempt, wp_onStore]
      refine wp_mono (linkPrivateBatch_spec hr hbatch.owned (fun i hi => mem_offsets hi)
        hbatch.nodup ?_) ?_
      · intro i hi
        obtain ⟨p, -, hins⟩ := hbatch.mem_inserted (List.mem_of_mem_tail hi)
        exact hins.entry.next
      · rintro _ s₁ ⟨rfl, howned₁, hsame₁, hlinked, -⟩
        rw [andThen_ok]
        dsimp only
        rw [collectPrivateGroups_eq hlt]
        dsimp only
        have hflat := List.flatten_splitBy (fun a b : PrivateInsert => a.bucket = b.bucket) inserts
        have hready : GroupsReady cfg { d with store := s₁, quiescence := ⟨[t], none⟩ } chains
            (inserts.splitBy fun a b => a.bucket = b.bucket) := by
          refine ⟨?_, ?_, ?_, fun g hg => List.ne_nil_of_mem_splitBy hg,
            fun g hg => List.isChain_of_mem_splitBy hg, Linked.runs ?_⟩
          · rw [hflat]
            exact howned₁
          · rw [hflat]
            exact hbatch.nodup
          · rw [hflat]
            intro i hi
            dsimp only
            rw [hsame₁.key (Set.mem_univ _)]
            exact hbucket i hi
          · rw [hflat]
            exact hlinked
        rw [wp_bind]
        refine wp_mono (commitGroups_spec hr hready hf) ?_
        rintro _ d' ⟨hframe, rfl, hholds⟩
        rw [andThen_ok, wp_pure, hlen]
        refine ⟨hframe, Or.inl ⟨rfl, ?_⟩⟩
        have hentries : (offsets inserts).map (entryAt cfg s₁) = prepared.map PreparedInsert.pair := by
          rw [← hbatch.entries]
          exact List.map_congr_left fun x _ => (hsame₁ x (Set.mem_univ x)).2
        have hcontent : content cfg s₁ chains = content cfg d.store chains :=
          content_same (hsame.trans (hsame₁.mono (Set.subset_univ _))) fun b x hx => mem_nodesOf hx
        rw [hflat] at hholds
        dsimp only at hholds
        rw [hentries, hcontent, hpush] at hholds
        exact hholds
    · rw [andThen_ok]
      dsimp only
      refine wp_mono (abandonBatch_spec (d := { d with store := s, quiescence := ⟨[t], none⟩ }) hr
        hbatch e hf) ?_
      rintro _ d' ⟨hframe, rfl, howned', hsame'⟩
      exact ⟨hframe, Or.inr ⟨e, rfl, he, chains, howned, howned', hsame.trans hsame'⟩⟩

end Commit

end FlorestaDb
