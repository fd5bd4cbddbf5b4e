import FlorestaDb.BatchInsert

/-! The batch lookups: keys sorted by bucket, hash and input order, one walk per bucket
that answers all keys of the bucket, and the blobs read in file order. -/
namespace FlorestaDb
open Program Program.Prog Allocator Chain

variable {cfg : Config} {m : Machine} {v : Env} {t : Tid} {d : Db} {chains : Nat → List Nat}
  {priv : Set Nat} {bare bareBlobs : Set Allocation} {b : Nat} {l r : List Nat}

section Prepare

/-- The prepared keys of a batch, before they are sorted. -/
def preparedKeys (cfg : Config) (keys : List Key) : List PreparedKey :=
  keys.zipIdx.map fun p => preparedKey cfg p.1 (hashOf cfg p.1) p.2

theorem prepareKeys_eq {input : List (List UInt8)} {keys : List Key}
    (h : validateKeys input = .ok keys) :
    prepareKeys cfg m input = .ok ((preparedKeys cfg keys).mergeSort PreparedKey.le) := by
  rw [prepareKeys, h, ok_bind]
  dsimp only
  rw [hashKeys_eq, ← List.map_prod_left_eq_zip, List.zipIdx_map, List.map_map]
  rfl

theorem validateKeys_toList (keys : List Key) :
    validateKeys (keys.map Vector.toList) = .ok keys := by
  induction keys with
  | nil => rfl
  | cons key keys ih =>
    rw [List.map_cons, validateKeys, validateKey_toList, ih]
    rfl

theorem PreparedKey.le_trans (a b c : PreparedKey) (h1 : a.le b = true) (h2 : b.le c = true) :
    a.le c = true := by
  simp only [PreparedKey.le, Bool.or_eq_true, Bool.and_eq_true, decide_eq_true_eq,
    UInt64.lt_iff_toNat_lt, ← UInt64.toNat_inj] at *
  omega

theorem PreparedKey.le_total (a b : PreparedKey) : (a.le b || b.le a) = true := by
  simp only [PreparedKey.le, Bool.or_eq_true, Bool.and_eq_true, decide_eq_true_eq,
    UInt64.lt_iff_toNat_lt, ← UInt64.toNat_inj]
  omega

/-- What a prepared batch is: every key once with its position, sorted. -/
structure Prepared (cfg : Config) (keys : List Key) (prepared : List PreparedKey) : Prop where
  key : ∀ e ∈ prepared, keys[e.order]? = some e.key
  hash : ∀ e ∈ prepared, e.hash = hashOf cfg e.key
  bucket : ∀ e ∈ prepared, e.bucket = bucketOf cfg e.key
  cover : ∀ i < keys.length, ∃ e ∈ prepared, e.order = i
  orders : (prepared.map (·.order)).Nodup
  length : prepared.length = keys.length
  perm : (prepared.map (·.key)).Perm keys
  sorted : prepared.Pairwise fun a b => a.le b = true

theorem prepared_sorted (cfg : Config) (keys : List Key) :
    Prepared cfg keys ((preparedKeys cfg keys).mergeSort PreparedKey.le) := by
  have hperm := List.mergeSort_perm (preparedKeys cfg keys) PreparedKey.le
  have hmem : ∀ e ∈ (preparedKeys cfg keys).mergeSort PreparedKey.le,
      ∃ key i, keys[i]? = some key ∧ e = preparedKey cfg key (hashOf cfg key) i := by
    intro e he
    obtain ⟨⟨key, i⟩, hp, rfl⟩ := List.mem_map.mp (hperm.mem_iff.mp he)
    exact ⟨key, i, List.mem_zipIdx_iff_getElem?.mp hp, rfl⟩
  refine ⟨?_, ?_, ?_, ?_, ?_, ?_, ?_, List.pairwise_mergeSort PreparedKey.le_trans
    PreparedKey.le_total _⟩
  · intro e he
    obtain ⟨key, i, hi, rfl⟩ := hmem e he
    exact hi
  · intro e he
    obtain ⟨key, i, hi, rfl⟩ := hmem e he
    rfl
  · intro e he
    obtain ⟨key, i, hi, rfl⟩ := hmem e he
    rfl
  · intro i hi
    refine ⟨preparedKey cfg keys[i] (hashOf cfg keys[i]) i, hperm.mem_iff.mpr ?_, rfl⟩
    refine List.mem_map.mpr ⟨(keys[i], i), List.mem_zipIdx_iff_getElem?.mpr ?_, rfl⟩
    exact List.getElem?_eq_getElem hi
  · refine (hperm.map _).nodup_iff.mpr ?_
    rw [preparedKeys, List.map_map]
    have horder : (fun e => e.order) ∘ (fun p : Key × Nat =>
        preparedKey cfg p.1 (hashOf cfg p.1) p.2) = Prod.snd := rfl
    rw [horder, List.zipIdx_map_snd]
    exact List.nodup_range'
  · rw [List.length_mergeSort, preparedKeys, List.length_map, List.length_zipIdx]
  · refine (hperm.map _).trans ?_
    have hkeys : (preparedKeys cfg keys).map (·.key) = keys := by
      rw [preparedKeys, List.map_map]
      exact List.zipIdx_map_fst 0 keys
    rw [hkeys]

theorem Prepared.order_lt {keys : List Key} {prepared : List PreparedKey}
    (h : Prepared cfg keys prepared) {e : PreparedKey} (he : e ∈ prepared) :
    e.order < prepared.length := by
  rw [h.length]
  exact (List.getElem?_eq_some_iff.mp (h.key e he)).1

/-- A table of results that is right at every prepared entry is right in input order. -/
theorem Prepared.collect {α : Type} {keys : List Key} {prepared : List PreparedKey}
    (h : Prepared cfg keys prepared) {results : List α} {f : Key → α}
    (hlen : results.length = prepared.length)
    (hres : ∀ e ∈ prepared, results[e.order]? = some (f e.key)) : results = keys.map f := by
  apply List.ext_getElem?
  intro i
  rw [List.getElem?_map]
  by_cases hi : i < keys.length
  · obtain ⟨e, he, rfl⟩ := h.cover i hi
    rw [hres e he, h.key e he]
    rfl
  · have hge : results.length ≤ i := by
      have := h.length
      omega
    rw [List.getElem?_eq_none hge, List.getElem?_eq_none (by omega)]
    rfl

end Prepare

section Tally
variable {α : Type} {g : List PreparedKey} {results : List α} {e e' : PreparedKey}

/-- Entries of a group have positions of their own. -/
theorem eq_of_order (hnd : (g.map (·.order)).Nodup) (he : e ∈ g) (he' : e' ∈ g)
    (h : e.order = e'.order) : e = e' := List.inj_on_of_nodup_map hnd he he' h

theorem set_other (hnd : (g.map (·.order)).Nodup) (he : e ∈ g) (he' : e' ∈ g) (hne : e' ≠ e)
    (x : α) : (results.set e.order x)[e'.order]? = results[e'.order]? :=
  List.getElem?_set_ne fun h => hne (eq_of_order hnd he' he h.symm)

/-- Settling one pending entry lowers the number of pending entries by one. -/
theorem countP_set {p : Option α → Bool} (hnd : (g.map (·.order)).Nodup) (he : e ∈ g)
    (hlt : e.order < results.length) (hp : p results[e.order]? = true) {x : α}
    (hx : p (some x) = false) :
    (g.countP fun e' => p (results.set e.order x)[e'.order]?) + 1 =
      g.countP fun e' => p results[e'.order]? := by
  obtain ⟨l, r, rfl⟩ := List.append_of_mem he
  have hother : ∀ e' ∈ l ++ r, (results.set e.order x)[e'.order]? = results[e'.order]? := by
    intro e' he'
    refine set_other hnd he ?_ ?_ x
    · rcases List.mem_append.mp he' with h | h
      · exact List.mem_append_left _ h
      · exact List.mem_append_right _ (List.mem_cons_of_mem _ h)
    · rintro rfl
      rw [List.map_append, List.map_cons] at hnd
      have hnot := (List.nodup_middle.mp hnd).notMem
      rw [← List.map_append] at hnot
      exact hnot (List.mem_map_of_mem he')
  have hl : (l.countP fun e' => p (results.set e.order x)[e'.order]?) =
      l.countP fun e' => p results[e'.order]? :=
    List.countP_congr fun e' he' => by rw [hother e' (List.mem_append_left _ he')]
  have hr : (r.countP fun e' => p (results.set e.order x)[e'.order]?) =
      r.countP fun e' => p results[e'.order]? :=
    List.countP_congr fun e' he' => by rw [hother e' (List.mem_append_right _ he')]
  have hself : (results.set e.order x)[e.order]? = some x := List.getElem?_set_self hlt
  rw [List.countP_append, List.countP_append, List.countP_cons_of_neg (by simp [hself, hx]),
    List.countP_cons_of_pos (by simpa using hp), hl, hr]
  omega

end Tally

/-- The entries of one bucket, as its walk gets them. -/
structure Group (cfg : Config) (b : Nat) (g : List PreparedKey) : Prop where
  hash : ∀ e ∈ g, e.hash = hashOf cfg e.key
  home : ∀ e ∈ g, bucketOf cfg e.key = b
  orders : (g.map (·.order)).Nodup
  sorted : g.Pairwise fun a b => a.hash ≤ b.hash

section Walk
variable {g : List PreparedKey}

/-- An entry whose result is still empty. -/
def unread (result : Option (Option UInt64)) : Bool := result == some none

/-- The number of empty results is what the walk counts down. -/
structure Tallied (g : List PreparedKey) (acc : Fetched) : Prop where
  bound : ∀ e ∈ g, e.order < acc.results.length
  remaining : acc.remaining = g.countP fun e => unread acc.results[e.order]?

/-- What a table of results became at the positions of the entries `es`. -/
def Refreshed (es : List PreparedKey) (f : PreparedKey → Option (Option UInt64))
    (results results' : List (Option UInt64)) : Prop :=
  results'.length = results.length ∧ (∀ e ∈ es, results'[e.order]? = f e) ∧
    ∀ i, (∀ e ∈ es, e.order ≠ i) → results'[i]? = results[i]?

/-- The result of an entry once a node with the word `value` of its key was seen. -/
def answered (key : Key) (value : UInt64) (results : List (Option UInt64)) (e : PreparedKey) :
    Option (Option UInt64) :=
  if e.key = key ∧ unread results[e.order]? then some (some value) else results[e.order]?

theorem answered_congr {key : Key} {value : UInt64} {results results' : List (Option UInt64)}
    {e : PreparedKey} (h : results'[e.order]? = results[e.order]?) :
    answered key value results' e = answered key value results e := by
  rw [answered, answered, h]

theorem fetchMatches_spec {node : Node} {es : List PreparedKey} {acc : Fetched}
    (hg : (g.map (·.order)).Nodup) (hsub : ∀ e ∈ es, e ∈ g) (hnd : (es.map (·.order)).Nodup)
    (hhash : ∀ e ∈ es, e.hash = hashOf cfg e.key)
    (hsorted : es.Pairwise fun a b => a.hash ≤ b.hash)
    (hlow : ∀ e ∈ es, hashOf cfg node.key ≤ e.hash) (hacc : Tallied g acc) :
    ∃ acc', fetchMatches node (hashOf cfg node.key) es acc = .ok acc' ∧ Tallied g acc' ∧
      Refreshed es (answered node.key node.value acc.results) acc.results acc'.results := by
  induction es generalizing acc with
  | nil => exact ⟨acc, rfl, hacc, rfl, by simp, by simp⟩
  | cons e es ih =>
    have hmem := hsub e (by simp)
    have hlt := hacc.bound e hmem
    have hes : ∀ e' ∈ es, e'.order ≠ e.order := by
      intro e' he' heq
      rw [List.map_cons] at hnd
      exact (List.nodup_cons.mp hnd).1 (heq ▸ List.mem_map_of_mem he')
    have hget : acc.results[e.order]? = some acc.results[e.order] := List.getElem?_eq_getElem hlt
    rw [fetchMatches]
    by_cases hh : e.hash = hashOf cfg node.key
    · have hskip : ∀ acc₁ : Fetched, Tallied g acc₁ →
          acc₁.results[e.order]? = answered node.key node.value acc.results e →
          (∀ i, i ≠ e.order → acc₁.results[i]? = acc.results[i]?) →
          acc₁.results.length = acc.results.length →
          ∃ acc', fetchMatches node (hashOf cfg node.key) es acc₁ = .ok acc' ∧ Tallied g acc' ∧
            Refreshed (e :: es) (answered node.key node.value acc.results) acc.results
              acc'.results := by
        intro acc₁ hacc₁ hself hother hlen
        obtain ⟨acc', hrun, htally, hlen', hin, hout⟩ := ih
          (fun x hx => hsub x (List.mem_cons_of_mem _ hx)) (List.nodup_cons.mp hnd).2
          (fun x hx => hhash x (List.mem_cons_of_mem _ hx)) (List.pairwise_cons.mp hsorted).2
          (fun x hx => hlow x (List.mem_cons_of_mem _ hx)) hacc₁
        refine ⟨acc', hrun, htally, hlen'.trans hlen, ?_, ?_⟩
        · intro x hx
          rcases List.mem_cons.mp hx with rfl | hx
          · rw [hout x.order hes, hself]
          · rw [hin x hx]
            exact answered_congr (hother _ (hes x hx))
        · intro i hi
          rw [hout i fun x hx => hi x (List.mem_cons_of_mem _ hx)]
          exact hother i fun h => hi e (by simp) h.symm
      rw [if_neg (not_not.mpr hh), hget]
      dsimp only
      by_cases hmatch : acc.results[e.order].isNone ∧ e.key = node.key
      · have hnone : acc.results[e.order]? = some none := by
          rw [hget, Option.isNone_iff_eq_none.mp hmatch.1]
        have hpend : unread acc.results[e.order]? = true := by
          rw [hnone]
          rfl
        have hcount := countP_set (p := unread) hg hmem hlt hpend (x := some node.value) rfl
        have hpos : 1 ≤ acc.remaining := by
          rw [hacc.remaining, ← hcount]
          exact Nat.le_add_left 1 _
        rw [if_pos hmatch, checkedSub_of_le hpos]
        dsimp only
        refine hskip _ ⟨?_, ?_⟩ ?_ ?_ ?_
        · intro x hx
          rw [List.length_set]
          exact hacc.bound x hx
        · dsimp only
          rw [hacc.remaining, ← hcount, Nat.add_sub_cancel]
        · rw [answered, if_pos ⟨hmatch.2, hpend⟩]
          exact List.getElem?_set_self hlt
        · intro i hi
          exact List.getElem?_set_ne fun h => hi h.symm
        · exact List.length_set
      · rw [if_neg hmatch]
        refine hskip acc hacc ?_ (fun _ _ => rfl) rfl
        rw [answered, if_neg ?_]
        rintro ⟨hk, hu⟩
        rw [hget] at hu
        refine hmatch ⟨?_, hk⟩
        have : acc.results[e.order] = none := by simpa [unread] using hu
        rw [this]
        rfl
    · -- the rest of the group has larger hashes, so no entry of it has the node's key
      rw [if_pos hh]
      refine ⟨acc, rfl, hacc, rfl, ?_, fun _ _ => rfl⟩
      have hgt : ∀ x ∈ e :: es, x.key ≠ node.key := by
        intro x hx hk
        have hxe : e.hash ≤ x.hash := by
          rcases List.mem_cons.mp hx with rfl | hx
          · exact Nat.le_refl _
          · exact (List.pairwise_cons.mp hsorted).1 x hx
        have hxh : x.hash = hashOf cfg node.key := by rw [hhash x hx, hk]
        rw [hxh] at hxe
        exact hh (UInt64.le_antisymm hxe (hlow e (by simp)))
      intro x hx
      rw [answered, if_neg fun h => hgt x hx h.1]

/-- Entries before the first with the node's hash have other keys. -/
theorem fromHash_spec (node : Node) {acc : Fetched} (hg : Group cfg b g) (hacc : Tallied g acc) :
    ∃ acc', fetchMatches node (hashOf cfg node.key) (fromHash g (hashOf cfg node.key)) acc =
        .ok acc' ∧ Tallied g acc' ∧
      Refreshed g (answered node.key node.value acc.results) acc.results acc'.results := by
  have hsplit := List.takeWhile_append_dropWhile (p := fun e : PreparedKey =>
    decide (e.hash < hashOf cfg node.key)) (l := g)
  have hsuffix : fromHash g (hashOf cfg node.key) <:+ g := List.dropWhile_suffix _
  have hlow : ∀ e ∈ fromHash g (hashOf cfg node.key), hashOf cfg node.key ≤ e.hash := by
    have hsorted := hg.sorted.sublist hsuffix.sublist
    cases hcase : fromHash g (hashOf cfg node.key) with
    | nil => simp
    | cons x xs =>
      have hx := List.head?_dropWhile_not (fun e : PreparedKey =>
        decide (e.hash < hashOf cfg node.key)) g
      rw [fromHash] at hcase
      rw [hcase] at hx
      have hx' : hashOf cfg node.key ≤ x.hash := by simpa using hx
      rw [fromHash, hcase] at hsorted
      intro e he
      rcases List.mem_cons.mp he with rfl | he
      · exact hx'
      · exact UInt64.le_trans hx' ((List.pairwise_cons.mp hsorted).1 e he)
  obtain ⟨acc', hrun, htally, hlen, hin, hout⟩ := fetchMatches_spec hg.orders
    (fun e he => hsuffix.subset he) (hg.orders.sublist (hsuffix.sublist.map _))
    (fun e he => hg.hash e (hsuffix.subset he)) (hg.sorted.sublist hsuffix.sublist) hlow hacc
  refine ⟨acc', hrun, htally, hlen, ?_, ?_⟩
  · intro e he
    rw [← hsplit] at he
    rcases List.mem_append.mp he with hpre | hsuf
    · have hmem : e ∈ g := (List.takeWhile_prefix _).subset hpre
      have hlt : e.hash < hashOf cfg node.key := by
        simpa using List.all_eq_true.mp List.all_takeWhile e hpre
      have hkey : e.key ≠ node.key := by
        intro hk
        rw [hg.hash e hmem, hk] at hlt
        exact absurd hlt (UInt64.lt_irrefl _)
      rw [answered, if_neg fun h => hkey h.1]
      refine hout e.order fun x hx heq => ?_
      have hxe := eq_of_order hg.orders (hsuffix.subset hx) hmem heq
      subst hxe
      exact absurd hlt (UInt64.not_lt.mpr (hlow x hx))
    · exact hin e hsuf
  · intro i hi
    exact hout i fun e he => hi e (hsuffix.subset he)

/-- The value word of the first node of a key among the places `l`. -/
def lookupWord (s : Store) (l : List Nat) (key : Key) : Option UInt64 :=
  (l.find? fun o => (s.slots o).key = key).map fun o => (s.slots o).value

theorem lookupWord_append (s : Store) (l r : List Nat) (key : Key) :
    lookupWord s (l ++ r) key = (lookupWord s l key).or (lookupWord s r key) := by
  rw [lookupWord, lookupWord, lookupWord, List.find?_append]
  cases l.find? fun o => (s.slots o).key = key with
  | none => rfl
  | some o => rfl

theorem lookupWord_single (s : Store) (o : Nat) (key : Key) :
    lookupWord s [o] key = if (s.slots o).key = key then some (s.slots o).value else none := by
  rw [lookupWord]
  by_cases h : (s.slots o).key = key
  · rw [if_pos h, List.find?_cons_of_pos (by simpa using h)]
    rfl
  · rw [if_neg h, List.find?_cons_of_neg (by simpa using h)]
    rfl

/-- One more node: the entries of its key that had no answer have one. -/
theorem answered_lookup {s : Store} {o : Nat} {results : List (Option UInt64)} {e : PreparedKey}
    (h : results[e.order]? = some (lookupWord s l e.key)) :
    answered (s.slots o).key (s.slots o).value results e =
      some (lookupWord s (l ++ [o]) e.key) := by
  rw [lookupWord_append, lookupWord_single, answered, h]
  cases hl : lookupWord s l e.key with
  | some word => simp [unread]
  | none =>
    by_cases hk : e.key = (s.slots o).key
    · rw [if_pos ⟨hk, rfl⟩, if_pos hk.symm]
      rfl
    · rw [if_neg fun h => hk h.1, if_neg fun h => hk h.symm]
      rfl

theorem lookup_complete {s : Store} {acc : Fetched} (hacc : Tallied g acc)
    (hzero : acc.remaining = 0)
    (hres : ∀ e ∈ g, acc.results[e.order]? = some (lookupWord s l e.key)) :
    ∀ e ∈ g, acc.results[e.order]? = some (lookupWord s (l ++ r) e.key) := by
  intro e he
  have hall := hacc.remaining
  rw [hzero] at hall
  have hread := List.countP_eq_zero.mp hall.symm e he
  rw [hres e he] at hread ⊢
  rw [lookupWord_append]
  cases hl : lookupWord s l e.key with
  | none =>
    rw [hl] at hread
    exact absurd rfl hread
  | some word => rfl

/-- The rest of a walk that has passed the places `l`. -/
theorem fetch_rest (hr : cfg.Ready)
    (h : Owned cfg d.store d.runtimeHeads chains priv bare bareBlobs) (hb : b < cfg.bucketCount)
    (hg : Group cfg b g) {fuel : Nat} {acc : Fetched} (hc : chains b = l ++ r)
    (hacc : Tallied g acc)
    (hres : ∀ e ∈ g, acc.results[e.order]? = some (lookupWord d.store l e.key))
    (hf : v = .fair → r.length + 1 ≤ fuel)
    {Q : Except Error (List (Option UInt64)) → Db → Prop}
    (hQ : ∀ results, Refreshed g (fun e => some (lookupWord d.store (chains b) e.key)) acc.results
      results → Q (.ok results) d) :
    (fetchBucketBatch cfg b g fuel acc
      (some ⟨d.runtimeHeads b, linkAfter b l, r.headD 0⟩)).wp v t Q d := by
  induction r generalizing l fuel acc with
  | nil =>
    cases fuel with
    | zero =>
      cases v with
      | fair => exact absurd (hf rfl) (by simp)
      | any => exact rfl
    | succ fuel =>
      rw [List.append_nil] at hc
      rw [fetchBucketBatch]
      dsimp only
      rw [if_pos List.headD_nil, wp_bind, loadHead_spec hb, andThen_ok, if_pos rfl, wp_pure]
      refine hQ _ ⟨rfl, ?_, fun _ _ => rfl⟩
      rw [hc]
      exact hres
  | cons o r ih =>
    cases fuel with
    | zero =>
      cases v with
      | fair => exact absurd (hf rfl) (by simp)
      | any => exact rfl
    | succ fuel =>
      have ho : o ∈ chains b := by simp [hc]
      have hne : ¬o = 0 := (h.chain b).ne_zero o ho
      rw [fetchBucketBatch]
      dsimp only
      rw [List.headD_cons, if_neg hne, wp_bind]
      refine observe_spec hr h hb hc ?_
      rw [andThen_ok]
      dsimp only
      obtain ⟨acc', hrun, htally, hlen, hin, hout⟩ :=
        fromHash_spec (nodeAt d.store o) hg hacc
      rw [hrun, wp_bind, wp_ofExcept, andThen_ok]
      have hres' : ∀ e ∈ g, acc'.results[e.order]? = some (lookupWord d.store (l ++ [o]) e.key) :=
        fun e he => (hin e he).trans (answered_lookup (hres e he))
      have hback : ∀ results,
          Refreshed g (fun e => some (lookupWord d.store (chains b) e.key)) acc'.results results →
          Q (.ok results) d := by
        rintro results ⟨hlen', hin', hout'⟩
        exact hQ results ⟨hlen'.trans hlen, hin', fun i hi => (hout' i hi).trans (hout i hi)⟩
      by_cases hzero : acc'.remaining = 0
      · rw [if_pos hzero, wp_bind, loadHead_spec hb, andThen_ok, if_pos rfl, wp_pure]
        refine hback _ ⟨rfl, ?_, fun _ _ => rfl⟩
        have hall := lookup_complete (r := r) htally hzero hres'
        rw [List.append_assoc, List.singleton_append, ← hc] at hall
        exact hall
      · rw [if_neg hzero]
        have hchain := h.chain b
        rw [hc] at hchain
        have hnext : (nodeAt d.store o).next = r.headD 0 := hchain.split.2.2.head_eq
        rw [hnext, ← linkAfter_append b l o]
        exact ih (by simp [hc]) htally hres' (fun hv => by have := hf hv; simp at this; omega) hback

theorem clearResults_spec {es : List PreparedKey} {results : List (Option UInt64)}
    (hlt : ∀ e ∈ es, e.order < results.length) :
    ∃ results', clearResults es results = .ok results' ∧
      Refreshed es (fun _ => some none) results results' := by
  induction es generalizing results with
  | nil => exact ⟨results, rfl, rfl, by simp, fun _ _ => rfl⟩
  | cons e es ih =>
    have hlt' : ∀ x ∈ es, x.order < (results.set e.order none).length := by
      intro x hx
      rw [List.length_set]
      exact hlt x (List.mem_cons_of_mem _ hx)
    obtain ⟨results', hrun, hlen, hin, hout⟩ := ih hlt'
    rw [List.length_set] at hlen
    refine ⟨results', ?_, hlen, ?_, ?_⟩
    · rw [clearResults, if_pos (hlt e (by simp))]
      exact hrun
    · intro x hx
      rcases List.mem_cons.mp hx with rfl | hx
      · by_cases hmem : ∃ y ∈ es, y.order = x.order
        · obtain ⟨y, hy, heq⟩ := hmem
          rw [← heq]
          exact hin y hy
        · rw [hout x.order fun y hy heq => hmem ⟨y, hy, heq⟩]
          exact List.getElem?_set_self (hlt x (by simp))
      · exact hin x hx
    · intro i hi
      rw [hout i fun x hx => hi x (List.mem_cons_of_mem _ hx)]
      exact List.getElem?_set_ne (hi e (by simp))

/-- One bucket of `batch_fetch`: every entry gets the word of its key's first node. -/
theorem fetchBucketBatch_spec (hr : cfg.Ready)
    (h : Owned cfg d.store d.runtimeHeads chains priv bare bareBlobs) (hb : b < cfg.bucketCount)
    (hg : Group cfg b g) {results : List (Option UInt64)}
    (hlt : ∀ e ∈ g, e.order < results.length) (hf : v = .fair → m.Enough cfg)
    {Q : Except Error (List (Option UInt64)) → Db → Prop}
    (hQ : ∀ results', Refreshed g (fun e => some (lookupWord d.store (chains b) e.key)) results
      results' → Q (.ok results') d) :
    (fetchBucketBatch cfg b g m.fuel ⟨results, 0⟩ none).wp v t Q d := by
  have hlen := h.chain_length hr.valid b
  cases hfuel : m.fuel with
  | zero =>
    cases v with
    | fair => exact absurd (Machine.Enough.one hf rfl) (by omega)
    | any => exact rfl
  | succ fuel =>
    obtain ⟨cleared, hrun, hclen, hin, hout⟩ := clearResults_spec hlt
    rw [fetchBucketBatch, hrun, wp_bind, wp_ofExcept, andThen_ok, wp_bind, linkValue,
      loadHead_spec hb, andThen_ok]
    have hhead := (h.chain b).head_eq
    nth_rewrite 2 [hhead]
    rw [← linkAfter_nil b]
    have htally : Tallied g ⟨cleared, g.length⟩ := by
      refine ⟨fun e he => by rw [hclen]; exact hlt e he, ?_⟩
      refine (List.countP_eq_length.mpr fun e he => ?_).symm
      dsimp only
      rw [hin e he]
      rfl
    refine fetch_rest hr h hb hg (List.nil_append _).symm htally hin ?_ ?_
    · intro hv
      have henough := hf hv
      rw [Machine.Enough, hfuel] at henough
      exact Nat.le_of_succ_le_succ (Nat.le_trans (Nat.add_le_add hlen (by decide : 2 ≤ 4)) henough)
    · rintro results' ⟨hlen', hin', hout'⟩
      exact hQ results' ⟨hlen'.trans hclen, hin', fun i hi => (hout' i hi).trans (hout i hi)⟩

end Walk

section Buckets
variable {keys : List Key} {prepared : List PreparedKey}

/-- Runs of one bucket, in the order of a prepared batch. -/
structure Runs (prepared : List PreparedKey) (groups : List (List PreparedKey)) : Prop where
  sublist : groups.flatten.Sublist prepared
  run : ∀ g ∈ groups, List.IsChain (fun a b => decide (a.bucket = b.bucket) = true) g

theorem runs_bucketGroups (prepared : List PreparedKey) :
    Runs prepared (bucketGroups prepared) := by
  refine ⟨?_, fun g hg => List.isChain_of_mem_splitBy hg⟩
  rw [bucketGroups, List.flatten_splitBy]

theorem Runs.tail {g : List PreparedKey} {groups : List (List PreparedKey)}
    (h : Runs prepared (g :: groups)) : Runs prepared groups := by
  refine ⟨?_, fun g' hg' => h.run g' (List.mem_cons_of_mem _ hg')⟩
  have hsub := h.sublist
  rw [List.flatten_cons] at hsub
  exact (List.sublist_append_right g _).trans hsub

/-- A run of a prepared batch is what the walk of its bucket expects. -/
theorem Runs.group (hp : Prepared cfg keys prepared) {first : PreparedKey}
    {rest : List PreparedKey} {groups : List (List PreparedKey)}
    (h : Runs prepared ((first :: rest) :: groups)) :
    Group cfg first.bucket (first :: rest) ∧ ∀ e ∈ first :: rest, e ∈ prepared := by
  have hsub : (first :: rest).Sublist prepared := by
    have hsub := h.sublist
    rw [List.flatten_cons] at hsub
    exact (List.sublist_append_left _ _).trans hsub
  have hmem : ∀ e ∈ first :: rest, e ∈ prepared := fun e he => hsub.subset he
  have hclass : ∀ e ∈ first :: rest, e.bucket = first.bucket := by
    intro e he
    rcases List.mem_cons.mp he with rfl | he
    · rfl
    · exact Groups.class_of_run (h.run _ (by simp)) e he
  refine ⟨⟨fun e he => hp.hash e (hmem e he), ?_, hp.orders.sublist (hsub.map _), ?_⟩, hmem⟩
  · intro e he
    rw [← hp.bucket e (hmem e he), hclass e he]
  · refine (hp.sorted.sublist hsub).imp_of_mem ?_
    intro x y hx hy hle
    have hbucket := (hclass x hx).trans (hclass y hy).symm
    simp only [PreparedKey.le, Bool.or_eq_true, Bool.and_eq_true, decide_eq_true_eq] at hle
    rcases hle with hlt | ⟨-, hlt | ⟨heq, -⟩⟩
    · omega
    · exact UInt64.le_of_lt hlt
    · rw [heq]
      exact UInt64.le_refl _

/-- The value word of a key's newest node. -/
def wordOf (cfg : Config) (s : Store) (chains : Nat → List Nat) (key : Key) : Option UInt64 :=
  lookupWord s (chains (bucketOf cfg key)) key

theorem Refreshed.append {es es' : List PreparedKey} {f : PreparedKey → Option (Option UInt64)}
    {results results₁ results' : List (Option UInt64)} (h : Refreshed es f results results₁)
    (h' : Refreshed es' f results₁ results') (hnd : ((es ++ es').map (·.order)).Nodup) :
    Refreshed (es ++ es') f results results' := by
  obtain ⟨hlen, hin, hout⟩ := h
  obtain ⟨hlen', hin', hout'⟩ := h'
  rw [List.map_append] at hnd
  have hdisj := (List.nodup_append.mp hnd).2.2
  refine ⟨hlen'.trans hlen, ?_, ?_⟩
  · intro e he
    rcases List.mem_append.mp he with he | he
    · rw [hout' e.order fun x hx heq => hdisj _ (List.mem_map_of_mem he) _
        (List.mem_map_of_mem hx) heq.symm]
      exact hin e he
    · exact hin' e he
  · intro i hi
    rw [hout' i fun e he => hi e (List.mem_append_right _ he)]
    exact hout i fun e he => hi e (List.mem_append_left _ he)

theorem fetchBuckets_spec (hr : cfg.Ready)
    (h : Owned cfg d.store d.runtimeHeads chains priv bare bareBlobs)
    (hp : Prepared cfg keys prepared) (hf : v = .fair → m.Enough cfg)
    {groups : List (List PreparedKey)} (hruns : Runs prepared groups)
    {results : List (Option UInt64)} (hlen : results.length = prepared.length)
    {Q : Except Error (List (Option UInt64)) → Db → Prop}
    (hQ : ∀ results', Refreshed groups.flatten
      (fun e => some (wordOf cfg d.store chains e.key)) results results' → Q (.ok results') d) :
    (fetchBuckets cfg m groups results).wp v t Q d := by
  induction groups generalizing results with
  | nil => exact hQ results ⟨rfl, by simp, fun _ _ => rfl⟩
  | cons g groups ih =>
    cases g with
    | nil =>
      rw [fetchBuckets]
      exact ih hruns.tail hlen hQ
    | cons first rest =>
      obtain ⟨hg, hmem⟩ := hruns.group hp
      have hb : first.bucket < cfg.bucketCount := by
        rw [← hg.home first (by simp)]
        exact bucketOf_lt hr.valid _
      rw [fetchBuckets, wp_bind]
      refine fetchBucketBatch_spec hr h hb hg (fun e he => by
        rw [hlen]; exact hp.order_lt (hmem e he)) hf ?_
      intro results₁ hres₁
      rw [andThen_ok]
      have hword : Refreshed (first :: rest)
          (fun e => some (wordOf cfg d.store chains e.key)) results results₁ := by
        refine ⟨hres₁.1, fun e he => ?_, hres₁.2.2⟩
        rw [hres₁.2.1 e he, ← hg.home e he]
        rfl
      refine ih hruns.tail (hres₁.1.trans hlen) fun results' hres' => hQ results' ?_
      rw [List.flatten_cons]
      refine hword.append hres' ?_
      have hsub := hruns.sublist
      rw [List.flatten_cons] at hsub
      exact hp.orders.sublist (hsub.map _)

end Buckets

section Materialize

/-- Reading blobs in any order fills in the table position by position. -/
theorem readBlobsInto_spec {s : Store} {blobs : List (Nat × Nat)}
    {results : List (Option (List UInt8))} (target : List (Option (List UInt8)))
    (hlen : results.length = target.length)
    (hother : ∀ i, (∀ x ∈ blobs, x.2 ≠ i) → results[i]? = target[i]?)
    (hread : ∀ x ∈ blobs, ∃ bytes, target[x.2]? = some (some bytes) ∧
      ∀ {Q : Except Error (List UInt8) → Store → Prop}, Q (.ok bytes) s →
        (readBlob cfg x.1).wp v t Q s) (hs : d.store = s)
    {Q : Except Error (List (Option (List UInt8))) → Db → Prop} (hQ : Q (.ok target) d) :
    (readBlobsInto cfg blobs results).wp v t Q d := by
  induction blobs generalizing results with
  | nil =>
    have heq : results = target := List.ext_getElem? fun i => hother i (by simp)
    rw [readBlobsInto, heq]
    exact hQ
  | cons x blobs ih =>
    obtain ⟨offset, order⟩ := x
    obtain ⟨bytes, htarget, hspec⟩ := hread (offset, order) (by simp)
    have hlt : order < results.length := by
      rw [hlen]
      exact (List.getElem?_eq_some_iff.mp htarget).1
    rw [readBlobsInto, wp_bind, wp_onStore, hs]
    refine hspec ?_
    rw [andThen_ok]
    have hd : { d with store := s } = d := by rw [← hs]
    rw [hd]
    refine ih ?_ ?_ fun x hx => hread x (List.mem_cons_of_mem _ hx)
    · rw [List.length_set, hlen]
    · intro i hi
      by_cases hio : order = i
      · subst hio
        rw [List.getElem?_set_self hlt, htarget]
      · rw [List.getElem?_set_ne hio]
        refine hother i fun x hx => ?_
        rcases List.mem_cons.mp hx with rfl | hx
        · exact hio
        · exact hi x hx

theorem materializeValues_spec (hr : cfg.Ready) {N : Set Nat}
    (h : Heap cfg d.store N bare bareBlobs) (hm : cfg.mode = .map)
    {encoded : List (Option UInt64)}
    (hwords : ∀ word, some word ∈ encoded → ∃ o ∈ N, (d.store.slots o).value = word)
    {Q : Except Error (List (Option (List UInt8))) → Db → Prop}
    (hQ : Q (.ok (encoded.map (Option.map (valueAt cfg d.store)))) d) :
    (materializeValues cfg encoded).wp v t Q d := by
  have hne : ¬cfg.mode = .set := by
    rw [hm]
    decide
  rw [materializeValues]
  refine readBlobsInto_spec (encoded.map (Option.map (valueAt cfg d.store))) ?_ ?_ ?_ rfl hQ
  · rw [List.length_map, List.length_map]
  · intro i hi
    rw [List.getElem?_map, List.getElem?_map]
    cases hword : encoded[i]? with
    | none => rfl
    | some result =>
      cases result with
      | none => rfl
      | some word =>
        have hinline : isBlob word = false := by
          by_contra hb
          rw [Bool.not_eq_false] at hb
          refine hi (blobOffset word, i) (List.mem_mergeSort.mpr ?_) rfl
          refine List.mem_filterMap.mpr ⟨(some word, i), List.mem_zipIdx_iff_getElem?.mpr hword, ?_⟩
          simp [hb]
        simp [valueAt, hm, hinline]
  · intro x hx
    obtain ⟨⟨result, i⟩, hmem, hsome⟩ := List.mem_filterMap.mp (List.mem_mergeSort.mp hx)
    have hword := List.mem_zipIdx_iff_getElem?.mp hmem
    cases result with
    | none => cases hsome
    | some word =>
      dsimp only [Option.bind_some] at hsome hword
      cases hb : isBlob word with
      | false =>
        rw [hb] at hsome
        cases hsome
      | true =>
        rw [hb] at hsome
        cases hsome
        obtain ⟨o, ho, rfl⟩ := hwords word (List.mem_of_getElem? hword)
        refine ⟨valueAt cfg d.store (d.store.slots o).value, ?_, ?_⟩
        · rw [List.getElem?_map, hword]
          rfl
        · intro Q hQ
          exact (readBlob_spec hr h ho hb).mpr hQ

/-- The word of a key's newest node stands for the top of its stack. -/
theorem wordOf_value (s : Store) (key : Key) :
    (wordOf cfg s chains key).map (valueAt cfg s) =
      (Buckets.stack (bucketOf cfg) (content cfg s chains) key).head? := by
  rw [Buckets.stack, ← Buckets.find_values, content, List.find?_map, wordOf, lookupWord,
    Option.map_map, Option.map_map]
  rfl

theorem wordOf_node {s : Store} {key : Key} {word : UInt64}
    (h : wordOf cfg s chains key = some word) :
    ∃ o ∈ nodesOf chains priv, (s.slots o).value = word := by
  rw [wordOf, lookupWord, Option.map_eq_some_iff] at h
  obtain ⟨o, hfind, rfl⟩ := h
  exact ⟨o, mem_nodesOf (List.mem_of_find?_eq_some hfind), rfl⟩

/-- `batch_fetch` answers every key as `get` would, in input order. -/
theorem batchFetch_spec {T : Nat → List (Key × List UInt8)} (hr : cfg.Ready) (hi : Idle d)
    (h : Holds cfg d.store d.runtimeHeads T) (hm : cfg.mode = .map) {input : List (List UInt8)}
    {keys : List Key} (hkeys : validateKeys input = .ok keys) (hf : v = .fair → m.Enough cfg) :
    (batchFetch cfg m input).wp v t (fun res d' => Frame d d' ∧
      (res = .ok (keys.map fun key => (Buckets.stack (bucketOf cfg) T key).head?) ∧
        Holds cfg d'.store d'.runtimeHeads T)) d := by
  obtain ⟨chains, howned, rfl⟩ := h
  refine wp_operation hi.quiescence (P := fun res s heads => res = _ ∧ Holds cfg s heads _) ?_
  rw [requireMode_ok hm, wp_bind, wp_ofExcept, andThen_ok, prepareKeys_eq hkeys, wp_bind,
    wp_ofExcept, andThen_ok, wp_bind]
  have hp := prepared_sorted cfg keys
  refine fetchBuckets_spec (d := { d with quiescence := ⟨[t], none⟩ }) hr howned hp hf
    (runs_bucketGroups _) List.length_replicate ?_
  rintro encoded ⟨hlen, hin, -⟩
  rw [andThen_ok]
  rw [bucketGroups, List.flatten_splitBy] at hin
  rw [List.length_replicate] at hlen
  have hcollect : encoded = keys.map (wordOf cfg d.store chains) := hp.collect hlen hin
  refine materializeValues_spec (d := { d with quiescence := ⟨[t], none⟩ }) hr howned.heap hm ?_ ?_
  · intro word hword
    rw [hcollect] at hword
    obtain ⟨key, -, hkey⟩ := List.mem_map.mp hword
    exact wordOf_node hkey
  · refine ⟨rfl, ?_, chains, howned, rfl⟩
    rw [hcollect, List.map_map]
    exact congrArg Except.ok (List.map_congr_left fun key _ => wordOf_value d.store key)

end Materialize

end FlorestaDb
