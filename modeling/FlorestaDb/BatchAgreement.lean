import FlorestaDb.Ownership
import FlorestaDb.Stacks

/-! Batches against the calls they stand for: a batch of writes is the same as its
entries appended one at a time, and a batch of reads or removals is the same as the
scalar calls in input order. -/
namespace FlorestaDb
open Program Program.Prog Allocator Chain

variable {cfg : Config} {m : Machine} {v : Env} {t : Tid} {d d' : Db}
  {T : Nat → List (Key × List UInt8)}

section Appends

/-- The entries of a batch appended one at a time. -/
def appendEach (cfg : Config) (m : Machine) : List (List UInt8 × List UInt8) → TableM Unit
  | [] => pure ()
  | entry :: rest => do
    let _ ← putBatch cfg m [entry]
    appendEach cfg m rest

def addEach (cfg : Config) (m : Machine) : List (List UInt8) → TableM Unit
  | [] => pure ()
  | key :: rest => do
    let _ ← add cfg m key
    addEach cfg m rest

theorem validateEntries_toList {entries : List (List UInt8 × Option (List UInt8))}
    {es : List (Key × Option (List UInt8))} (h : validateEntries cfg entries = .ok es) :
    entries = es.map fun e => (e.1.toList, e.2) := by
  induction entries generalizing es with
  | nil =>
    cases h
    rfl
  | cons entry entries ih =>
    obtain ⟨key, value⟩ := entry
    obtain ⟨k, hkey, h⟩ := bind_ok h
    obtain ⟨_, -, h⟩ := bind_ok h
    obtain ⟨rest, hrest, h⟩ := bind_ok h
    cases h
    rcases validateKey_cases key with ⟨k', rfl⟩ | hbad
    · rw [validateKey_toList] at hkey
      cases hkey
      rw [List.map_cons, ← ih hrest]
    · rw [hbad] at hkey
      cases hkey

/-- In every bucket the entries in reverse order, in front of what was there. -/
def appended (cfg : Config) (T : Nat → List (Key × List UInt8)) (es : List (Key × List UInt8))
    (b : Nat) : List (Key × List UInt8) :=
  (es.filter fun e => bucketOf cfg e.1 = b).reverse ++ T b

/-- The last entry of a key is the first that a lookup finds. -/
theorem stack_appended (T : Nat → List (Key × List UInt8)) (es : List (Key × List UInt8))
    (key : Key) : Buckets.stack (bucketOf cfg) (appended cfg T es) key =
      (Buckets.values es key).reverse ++ Buckets.stack (bucketOf cfg) T key := by
  rw [Buckets.stack, appended, Buckets.values_append, Buckets.stack]
  congr 1
  rw [Buckets.values, List.filter_reverse, List.map_reverse, List.filter_filter, Buckets.values]
  congr 2
  apply List.filter_congr
  intro e _
  by_cases hk : e.1 = key
  · simp [hk]
  · simp [hk]

theorem pushAll_eq (T : Nat → List (Key × List UInt8)) (es : List (Key × List UInt8)) :
    Buckets.pushAll (bucketOf cfg) T es = appended cfg T es := by
  funext b
  exact Buckets.pushAll_apply es b

theorem appendEach_spec (hr : cfg.Ready) (hi : Idle d) (h : Holds cfg d.store d.runtimeHeads T)
    (hm : cfg.mode = .map) (es : List (Key × List UInt8)) (hf : v = .fair → m.Enough cfg) :
    (appendEach cfg m (es.map fun e => (e.1.toList, e.2))).wp v t (fun res d' => res = .ok () →
      Holds cfg d'.store d'.runtimeHeads (appended cfg T es)) d := by
  rw [← pushAll_eq]
  induction es generalizing d T with
  | nil =>
    rw [List.map_nil, appendEach, wp_pure]
    exact fun _ => h
  | cons e es ih =>
    rw [List.map_cons, appendEach, wp_bind]
    refine wp_mono (append_spec hr hi h hm e.1 e.2 hf) ?_
    rintro res d₁ ⟨hframe, ⟨rfl, hheld⟩ | ⟨e', rfl, -, -⟩⟩
    · rw [andThen_ok]
      exact ih (hi.frame hframe) hheld
    · rw [andThen_error]
      exact fun hres => by cases hres

theorem addEach_spec (hr : cfg.Ready) (hi : Idle d) (h : Holds cfg d.store d.runtimeHeads T)
    (hm : cfg.mode = .set) (keys : List Key) (hf : v = .fair → m.Enough cfg) :
    (addEach cfg m (keys.map fun key => key.toList)).wp v t (fun res d' => res = .ok () →
      Holds cfg d'.store d'.runtimeHeads (appended cfg T (keys.map fun key => (key, [])))) d := by
  rw [← pushAll_eq]
  induction keys generalizing d T with
  | nil =>
    rw [List.map_nil, addEach, wp_pure]
    exact fun _ => h
  | cons key keys ih =>
    rw [List.map_cons, addEach, wp_bind]
    refine wp_mono (add_spec hr hi h hm key hf) ?_
    rintro res d₁ ⟨hframe, ⟨rfl, hheld⟩ | ⟨e', rfl, -, -⟩⟩
    · rw [andThen_ok]
      exact ih (hi.frame hframe) hheld
    · rw [andThen_error]
      exact fun hres => by cases hres

/-- A batch that returns had valid entries, and all of them are in the chains. -/
theorem insertBatchInner_appended (hr : cfg.Ready) (hi : Idle d)
    (h : Holds cfg d.store d.runtimeHeads T) {entries : List (List UInt8 × Option (List UInt8))}
    {n : Nat} (hcall : (insertBatchInner cfg m entries).Returns t d (.ok n) d') :
    n = entries.length ∧ ∃ es : List (Key × Option (List UInt8)),
      entries = es.map (fun e => (e.1.toList, e.2)) ∧
      Holds cfg d'.store d'.runtimeHeads
        (appended cfg T (es.map fun e => (e.1, e.2.getD []))) := by
  cases hes : validateEntries cfg entries with
  | ok es =>
    have hlist := validateEntries_toList hes
    obtain ⟨-, hout⟩ := post_of_returns
      (insertBatchInner_spec hr hi h hes (fun hv => by cases hv)) hcall
    rcases hout with ⟨hn, hheld⟩ | ⟨e, he, -, -⟩
    · cases hn
      refine ⟨?_, es, hlist, ?_⟩
      · rw [hlist, List.length_map]
      · rw [pushAll_eq] at hheld
        exact hheld
    · cases he
  | error e =>
    have hrej : (insertBatchInner cfg m entries).wp .any t
        (fun res d' => res = .error e ∧ d' = d) d := by
      apply operation_rejected hi.quiescence
      rw [prepareBatch, hes, error_bind, wp_bind, wp_ofExcept, andThen_error]
      exact ⟨rfl, rfl⟩
    cases (post_of_returns hrej hcall).1

/- A batch of writes against its entries appended singly: `n` is their number, the chains
   are what `appended` says, and so are the chains after the single appends. -/
structure BatchWrite (cfg : Config) (d d' : Db) (es : List (Key × List UInt8)) (n : Nat)
    (singles : Db → Prop) (T : Nat → List (Key × List UInt8)) : Prop where
  count : n = es.length
  before : Holds cfg d.store d.runtimeHeads T
  after : Holds cfg d'.store d'.runtimeHeads (appended cfg T es)
  newest : ∀ key, Buckets.stack (bucketOf cfg) (appended cfg T es) key =
    (Buckets.values es key).reverse ++ Buckets.stack (bucketOf cfg) T key
  singly : ∀ d'', singles d'' → Holds cfg d''.store d''.runtimeHeads (appended cfg T es)

theorem putBatch_write (hr : cfg.Ready) (h : Sound cfg d)
    {entries : List (List UInt8 × List UInt8)} {n : Nat}
    (hcall : (putBatch cfg m entries).Returns t d (.ok n) d') :
    ∃ (es : List (Key × List UInt8)) (T : _), entries = es.map (fun e => (e.1.toList, e.2)) ∧
      BatchWrite cfg d d' es n
        (fun d'' => ∃ m t, (appendEach cfg m entries).Returns t d (.ok ()) d'') T := by
  obtain ⟨T, hheld⟩ := h.holds
  rcases requireMode_cases cfg .map "write_only is available only for maps" with hm | hm
  · rw [putBatch, requireMode_ok hm] at hcall
    obtain ⟨hn, es, hes, happ⟩ := insertBatchInner_appended hr h.idle hheld hcall
    have hentries : entries =
        (es.map fun e => (e.1, e.2.getD [])).map fun e => (e.1.toList, e.2) := by
      have hproj := congrArg (List.map fun e : List UInt8 × Option (List UInt8) =>
        (e.1, e.2.getD [])) hes
      rw [List.map_map, List.map_map] at hproj
      rw [List.map_map]
      exact (List.map_id'' (fun _ => rfl) entries).symm.trans hproj
    refine ⟨es.map fun e => (e.1, e.2.getD []), T, hentries, ?_, hheld, happ,
      stack_appended T _, ?_⟩
    · rw [hn, List.length_map, hentries, List.length_map]
    · rintro d'' ⟨m', t', hsingle⟩
      rw [hentries] at hsingle
      exact post_of_returns (appendEach_spec hr h.idle hheld hm _ (fun hv => by cases hv)) hsingle
        rfl
  · rw [putBatch, hm] at hcall
    cases hcall.1

theorem addBatch_write (hr : cfg.Ready) (h : Sound cfg d) {keys : List (List UInt8)} {n : Nat}
    (hcall : (addBatch cfg m keys).Returns t d (.ok n) d') :
    ∃ (ks : List Key) (T : _), keys = ks.map (fun key => key.toList) ∧
      BatchWrite cfg d d' (ks.map fun key => (key, [])) n
        (fun d'' => ∃ m t, (addEach cfg m keys).Returns t d (.ok ()) d'') T := by
  obtain ⟨T, hheld⟩ := h.holds
  rcases requireMode_cases cfg .set "add_batch is available only for sets" with hm | hm
  · rw [addBatch, requireMode_ok hm] at hcall
    obtain ⟨hn, es, hes, happ⟩ := insertBatchInner_appended hr h.idle hheld hcall
    have hkeys : keys = (es.map fun e => e.1).map fun key => key.toList := by
      have hproj := congrArg (List.map fun e : List UInt8 × Option (List UInt8) => e.1) hes
      rw [List.map_map, List.map_map] at hproj
      rw [List.map_map]
      exact (List.map_id'' (fun _ => rfl) keys).symm.trans hproj
    have hnone : ∀ e ∈ es, e.2 = none := by
      intro e he
      have hmem : (e.1.toList, e.2) ∈ keys.map fun key => (key, (none : Option (List UInt8))) := by
        rw [hes]
        exact List.mem_map.mpr ⟨e, he, rfl⟩
      obtain ⟨key, -, heq⟩ := List.mem_map.mp hmem
      exact (Prod.mk.inj heq).2.symm
    have hvalues : (es.map fun e => (e.1, e.2.getD [])) =
        (es.map fun e => e.1).map fun key => (key, []) := by
      rw [List.map_map]
      apply List.map_congr_left
      intro e he
      rw [hnone e he]
      rfl
    rw [hvalues] at happ
    refine ⟨es.map fun e => e.1, T, hkeys, ?_, hheld, happ, stack_appended T _, ?_⟩
    · rw [hn, hkeys]
      simp only [List.length_map]
    · rintro d'' ⟨m', t', hsingle⟩
      rw [hkeys] at hsingle
      exact post_of_returns (addEach_spec hr h.idle hheld hm _ (fun hv => by cases hv)) hsingle rfl
  · rw [addBatch, hm] at hcall
    cases hcall.1

end Appends

section Reads

/-- The keys read one at a time, in input order. -/
def getEach (cfg : Config) (m : Machine) : List (List UInt8) → TableM (List (Option (List UInt8)))
  | [] => pure []
  | key :: rest => do
    let value ← get cfg m key
    let values ← getEach cfg m rest
    return value :: values

def deleteEach (cfg : Config) (m : Machine) : List (List UInt8) → TableM (List Bool)
  | [] => pure []
  | key :: rest => do
    let removed ← delete cfg m key
    let flags ← deleteEach cfg m rest
    return removed :: flags

/-- The call returns `r` and leaves the stacks `M`, and it can do nothing else. -/
structure Yields {α : Type} (cfg : Config) (m : Machine) (t : Tid) (p : TableM α) (d : Db)
    (r : α) (M : Stacks) : Prop where
  returns : m.Enough cfg → ∃ d', p.run t d = some (.ok r, d')
  only : ∀ res d', p.Returns t d res d' → res = .ok r ∧ Represents cfg d' M

/-- The call fails with `e` and the state is exactly what it was. -/
structure Rejects {α : Type} (t : Tid) (p : TableM α) (d : Db) (e : Error) : Prop where
  returns : p.run t d = some (.error e, d)
  only : ∀ res d', p.Returns t d res d' → res = .error e ∧ d' = d

theorem yields {α : Type} {p : TableM α} {r : α} {M : Stacks}
    (h : ∀ v, (v = .fair → m.Enough cfg) →
      p.wp v t (fun res d' => res = .ok r ∧ Represents cfg d' M) d) : Yields cfg m t p d r M := by
  constructor
  · intro hf
    obtain ⟨res, d', hrun, rfl, -⟩ := run_of_wp (h .fair fun _ => hf)
    exact ⟨d', hrun⟩
  · intro res d' hcall
    exact post_of_returns (h .any (fun hv => by cases hv)) hcall

theorem rejects {α : Type} {p : TableM α} {e : Error}
    (h : ∀ v, p.wp v t (fun res d' => res = .error e ∧ d' = d) d) : Rejects t p d e := by
  constructor
  · obtain ⟨res, d', hrun, rfl, rfl⟩ := run_of_wp (h .fair)
    exact hrun
  · intro res d' hcall
    exact post_of_returns (h .any) hcall

theorem getEach_spec (hr : cfg.Ready) (hi : Idle d) (h : Holds cfg d.store d.runtimeHeads T)
    (hm : cfg.mode = .map) (keys : List Key) (hf : v = .fair → m.Enough cfg) :
    (getEach cfg m (keys.map Vector.toList)).wp v t (fun res d' => Frame d d' ∧
      (res = .ok (keys.map fun key => (Buckets.stack (bucketOf cfg) T key).head?) ∧
        Holds cfg d'.store d'.runtimeHeads T)) d := by
  induction keys generalizing d with
  | nil => exact ⟨.refl d, rfl, h⟩
  | cons key keys ih =>
    rw [List.map_cons, getEach]
    refine wp_seq (get_spec hr hi h hm key hf) ?_
    rintro _ d₁ ⟨hframe, rfl, hheld⟩
    rw [andThen_ok]
    refine wp_seq (ih (hi.frame hframe) hheld) ?_
    rintro _ d₂ ⟨hframe', rfl, hheld'⟩
    rw [andThen_ok, wp_pure]
    exact ⟨hframe.trans hframe', rfl, hheld'⟩

/-- The later keys are other keys, so they still find what they would have found first. -/
theorem deleteEach_spec (hr : cfg.Ready) (hi : Idle d) (h : Holds cfg d.store d.runtimeHeads T)
    {keys : List Key} (hkeys : keys.Nodup) (hf : v = .fair → m.Enough cfg) :
    (deleteEach cfg m (keys.map Vector.toList)).wp v t (fun res d' => Frame d d' ∧
      (res = .ok (keys.map fun key => !(Buckets.stack (bucketOf cfg) T key).isEmpty) ∧
        Holds cfg d'.store d'.runtimeHeads (Buckets.dropAll (bucketOf cfg) T keys))) d := by
  induction keys generalizing d T with
  | nil => exact ⟨.refl d, rfl, h⟩
  | cons key keys ih =>
    obtain ⟨hkey, hkeys⟩ := List.nodup_cons.mp hkeys
    rw [List.map_cons, deleteEach]
    refine wp_seq (delete_spec hr hi h key hf) ?_
    rintro _ d₁ ⟨hframe, rfl, hheld⟩
    rw [andThen_ok]
    refine wp_seq (ih (hi.frame hframe) hheld hkeys) ?_
    rintro _ d₂ ⟨hframe', rfl, hheld'⟩
    have hflags : (keys.map fun k =>
        !(Buckets.stack (bucketOf cfg) (Buckets.drop (bucketOf cfg) T key) k).isEmpty) =
        keys.map fun k => !(Buckets.stack (bucketOf cfg) T k).isEmpty := by
      apply List.map_congr_left
      intro k hk
      have hne : k ≠ key := fun heq => hkey (heq ▸ hk)
      rw [Buckets.stack_drop, if_neg hne]
    rw [andThen_ok, wp_pure, hflags]
    exact ⟨hframe.trans hframe', rfl, hheld'⟩

/-- The stacks with the newest value of every key of the list taken off. -/
def Stacks.popAll (M : Stacks) (keys : List Key) : Stacks :=
  fun k => if k ∈ keys then (M k).tail else M k

theorem stack_dropAll_eq {keys : List Key} (hkeys : keys.Nodup) :
    Buckets.stack (bucketOf cfg) (Buckets.dropAll (bucketOf cfg) T keys) =
      Stacks.popAll (Buckets.stack (bucketOf cfg) T) keys := by
  funext k
  rw [Buckets.stack_dropAll hkeys, Stacks.popAll]
  by_cases hk : k ∈ keys
  · rw [if_pos hk, if_pos hk]
  · rw [if_neg hk, if_neg hk]

theorem Removed.represents {keys : List Key} (hkeys : keys.Nodup) (hi : Idle d')
    (h : Removed cfg T keys d'.store d'.runtimeHeads) :
    Represents cfg d' (Stacks.popAll (Buckets.stack (bucketOf cfg) T) keys) := by
  obtain ⟨T', hholds, hstack⟩ := h
  exact ⟨hi, T', hholds, hstack.trans (stack_dropAll_eq hkeys)⟩

section Stacks
variable {M : Stacks}

theorem batchFetch_represents (hr : cfg.Ready) (h : Represents cfg d M) (hm : cfg.mode = .map)
    (keys : List Key) (hf : v = .fair → m.Enough cfg) :
    (batchFetch cfg m (keys.map Vector.toList)).wp v t (fun res d' =>
      res = .ok (keys.map fun key => (M key).head?) ∧ Represents cfg d' M) d := by
  obtain ⟨hi, T, hheld, rfl⟩ := h
  refine wp_mono (batchFetch_spec hr hi hheld hm (validateKeys_toList keys) hf) ?_
  rintro res d' ⟨hframe, hres, hheld'⟩
  exact ⟨hres, hi.frame hframe, T, hheld', rfl⟩

theorem batchDelete_represents (hr : cfg.Ready) (h : Represents cfg d M) {keys : List Key}
    (hkeys : keys.Nodup) (hf : v = .fair → m.Enough cfg) :
    (batchDelete cfg m (keys.map Vector.toList)).wp v t (fun res d' =>
      res = .ok (keys.map fun key => !(M key).isEmpty) ∧ Represents cfg d' (M.popAll keys)) d := by
  obtain ⟨hi, T, hheld, rfl⟩ := h
  refine wp_mono (batchDelete_spec hr hi hheld (validateKeys_toList keys) hkeys hf) ?_
  rintro res d' ⟨hframe, hres, hremoved⟩
  exact ⟨hres, hremoved.represents hkeys (hi.frame hframe)⟩

theorem batchPop_represents (hr : cfg.Ready) (h : Represents cfg d M) (hm : cfg.mode = .map)
    {keys : List Key} (hkeys : keys.Nodup) (hf : v = .fair → m.Enough cfg) :
    (batchPop cfg m (keys.map Vector.toList)).wp v t (fun res d' =>
      res = .ok (keys.map fun key => (M key).head?) ∧ Represents cfg d' (M.popAll keys)) d := by
  obtain ⟨hi, T, hheld, rfl⟩ := h
  refine wp_mono (batchPop_spec hr hi hheld hm (validateKeys_toList keys) hkeys hf) ?_
  rintro res d' ⟨hframe, hres, hremoved⟩
  exact ⟨hres, hremoved.represents hkeys (hi.frame hframe)⟩

end Stacks

end Reads

end FlorestaDb
