import FlorestaDb.BatchAgreement

/-! What a scalar call, a batch, a compaction or a flush returns and leaves, against the stacks. -/
namespace FlorestaDb
open Program Program.Prog Allocator Chain

variable {cfg : Config} {m : Machine} {v : Env} {t : Tid} {d d' : Db} {M : Stacks}

/-- The calls of a session with their sixteen-byte keys. -/
inductive Request where
  | call (c : Call)
  | addBatch (keys : List Key)
  | putBatch (entries : List (Key × List UInt8))
  | batchFetch (keys : List Key)
  | batchDelete (keys : List Key)
  | batchPop (keys : List Key)
  | compact (minimumPageLoad : Nat)
  | sync

inductive Response where
  | reply (r : Reply)
  | count (published : Nat)
  | values (found : List (Option (List UInt8)))
  | flags (removed : List Bool)
  | compacted (stats : CompactionStats)
  | done
  deriving DecidableEq

/-- What the stacks decide of a response: the statistics of a compaction are about pages. -/
def Response.plain : Response → Response
  | .compacted _ => .done
  | response => response

def Request.Of (mode : Mode) : Request → Prop
  | .call c => c.Of mode
  | .addBatch _ => mode = .set
  | .putBatch _ => mode = .map
  | .batchFetch _ => mode = .map
  | .batchDelete _ => True
  | .batchPop _ => mode = .map
  | .compact _ => True
  | .sync => True

def Call.op : Call → Op
  | .add key => .add key.toList
  | .put key value => .put key.toList value
  | .putNew key value => .putNew key.toList value
  | .append key value => .putBatch [(key.toList, value)]
  | .get key => .get key.toList
  | .contains key => .contains key.toList
  | .delete key => .delete key.toList

def Request.op : Request → Op
  | .call c => c.op
  | .addBatch keys => .addBatch (keys.map Vector.toList)
  | .putBatch entries => .putBatch (entries.map fun e => (e.1.toList, e.2))
  | .batchFetch keys => .batchFetch (keys.map Vector.toList)
  | .batchDelete keys => .batchDelete (keys.map Vector.toList)
  | .batchPop keys => .batchPop (keys.map Vector.toList)
  | .compact minimumPageLoad => .compact minimumPageLoad
  | .sync => .sync

def Request.program (cfg : Config) (m : Machine) : Request → TableM Response
  | .call c => do return .reply (← c.program cfg m)
  | .addBatch keys => do return .count (← FlorestaDb.addBatch cfg m (keys.map Vector.toList))
  | .putBatch entries => do
    return .count (← FlorestaDb.putBatch cfg m (entries.map fun e => (e.1.toList, e.2)))
  | .batchFetch keys => do return .values (← FlorestaDb.batchFetch cfg m (keys.map Vector.toList))
  | .batchDelete keys => do return .flags (← FlorestaDb.batchDelete cfg m (keys.map Vector.toList))
  | .batchPop keys => do return .values (← FlorestaDb.batchPop cfg m (keys.map Vector.toList))
  | .compact minimumPageLoad => do return .compacted (← FlorestaDb.compact cfg m minimumPageLoad)
  | .sync => do
    FlorestaDb.sync cfg m
    return .done

/-- The stacks with every entry pushed in order: the last one of a key ends on top. -/
def Stacks.pushAll (M : Stacks) (entries : List (Key × List UInt8)) : Stacks :=
  fun k => (Buckets.values entries k).reverse ++ M k

/-- What a request returns and leaves, as far as the stacks decide it. -/
def Request.model (cfg : Config) (M : Stacks) : Request → Except Error Response × Stacks
  | .call c => (.ok (.reply (c.model M).1), (c.model M).2)
  | .addBatch keys => (.ok (.count keys.length), M.pushAll (keys.map fun key => (key, [])))
  | .putBatch entries => (.ok (.count entries.length), M.pushAll entries)
  | .batchFetch keys => (.ok (.values (keys.map fun key => (M key).head?)), M)
  | .batchDelete keys =>
    if keys.Nodup then (.ok (.flags (keys.map fun key => !(M key).isEmpty)), M.popAll keys)
    else (.error duplicateKeys, M)
  | .batchPop keys =>
    if keys.Nodup then (.ok (.values (keys.map fun key => (M key).head?)), M.popAll keys)
    else (.error duplicateKeys, M)
  | .compact minimumPageLoad =>
    if 1 ≤ minimumPageLoad ∧ minimumPageLoad ≤ cfg.blockSize / nodeSize then (.ok .done, M)
    else (.error (.invalidConfig "compaction page load must be within the body-page capacity"), M)
  | .sync => (.ok .done, M)

/-- One request against the model: its response and effect, or a refusal without effect. -/
def Request.Agrees (cfg : Config) (v : Env) (M : Stacks) (r : Request)
    (res : Except Error Response) (M' : Stacks) : Prop :=
  (res.map Response.plain = (r.model cfg M).1 ∧ M' = (r.model cfg M).2) ∨
    ∃ e, res = .error e ∧ Refusal v e ∧ M' = M

section Calls
variable {α β : Type}

theorem returns_dropped {p : TableM α} {g : α → β} {res : Except Error β}
    (h : (p >>= fun x => pure (g x)).Returns t d res d') :
    ∃ res', (p >>= fun _ => pure ()).Returns t d res' d' := by
  obtain ⟨r, hr, -⟩ := returns_bind_pure.mp h
  exact ⟨_, returns_bind_pure.mpr ⟨r, hr, rfl⟩⟩

theorem Call.returns_op {c : Call} {res : Except Error Reply} (h : (c.program cfg m).Returns t d res d') :
    ∃ res', (c.op.program cfg m).Returns t d res' d' := by
  cases c with
  | add key => exact returns_dropped h
  | put key value => exact returns_dropped h
  | putNew key value => exact returns_dropped h
  | append key value => exact returns_dropped h
  | get key => exact returns_dropped h
  | contains key => exact returns_dropped h
  | delete key => exact returns_dropped h

/-- A request is one of the calls on an open database. -/
theorem Request.returns_op {r : Request} {res : Except Error Response}
    (h : (r.program cfg m).Returns t d res d') : ∃ res', (r.op.program cfg m).Returns t d res' d' := by
  cases r with
  | call c =>
    obtain ⟨reply, hcall, -⟩ := returns_bind_pure.mp h
    exact Call.returns_op hcall
  | addBatch keys => exact returns_dropped h
  | putBatch entries => exact returns_dropped h
  | batchFetch keys => exact returns_dropped h
  | batchDelete keys => exact returns_dropped h
  | batchPop keys => exact returns_dropped h
  | compact load => exact returns_dropped h
  | sync =>
    obtain ⟨res', hsync, -⟩ := returns_bind_pure.mp h
    exact ⟨res', hsync⟩

end Calls

section Requests
variable {α : Type} {T T' : Nat → List (Key × List UInt8)}

/-- A request that cannot run out of space. -/
theorem accords_total {p : TableM α} {reply : α → Response} {r : Request} {x : α} {M' : Stacks}
    (hp : r.program cfg m = p >>= fun x => pure (reply x))
    (hspec : p.wp v t (fun res d' => res = .ok x ∧ Represents cfg d' M') d)
    (hmodel : r.model cfg M = (.ok (reply x).plain, M')) :
    (r.program cfg m).wp v t
      (fun res d' => ∃ M', r.Agrees cfg v M res M' ∧ Represents cfg d' M') d := by
  rw [hp]
  refine wp_seq hspec ?_
  rintro _ d' ⟨rfl, hrep⟩
  rw [andThen_ok, wp_pure]
  exact ⟨M', Or.inl ⟨by rw [hmodel]; rfl, by rw [hmodel]⟩, hrep⟩

/-- A request that is turned down whatever the state. -/
theorem accords_rejected {p : TableM α} {reply : α → Response} {r : Request} {e : Error}
    (h : Represents cfg d M) (hp : r.program cfg m = p >>= fun x => pure (reply x))
    (hspec : p.wp v t (fun res d' => res = .error e ∧ d' = d) d)
    (hmodel : r.model cfg M = (.error e, M)) :
    (r.program cfg m).wp v t
      (fun res d' => ∃ M', r.Agrees cfg v M res M' ∧ Represents cfg d' M') d := by
  rw [hp]
  refine wp_seq hspec ?_
  rintro _ d' ⟨rfl, rfl⟩
  rw [andThen_error]
  exact ⟨M, Or.inl ⟨by rw [hmodel]; rfl, by rw [hmodel]⟩, h⟩

theorem stack_pushAll_eq (T : Nat → List (Key × List UInt8)) (es : List (Key × List UInt8)) :
    Buckets.stack (bucketOf cfg) (Buckets.pushAll (bucketOf cfg) T es) =
      Stacks.pushAll (Buckets.stack (bucketOf cfg) T) es := by
  funext k
  rw [pushAll_eq, stack_appended, Stacks.pushAll]

/-- A batch of writes: all of it, or a refusal that leaves nothing. -/
theorem accords_batch {entries : List (List UInt8 × Option (List UInt8))}
    {es : List (Key × Option (List UInt8))} {r : Request} (hr : cfg.Ready) (hi : Idle d)
    (h : Holds cfg d.store d.runtimeHeads T) (hf : v = .fair → m.Enough cfg)
    (hes : validateEntries cfg entries = .ok es)
    (hp : r.program cfg m = insertBatchInner cfg m entries >>= fun n => pure (.count n))
    (hmodel : r.model cfg (Buckets.stack (bucketOf cfg) T) = (.ok (.count es.length),
      Stacks.pushAll (Buckets.stack (bucketOf cfg) T) (es.map fun e => (e.1, e.2.getD [])))) :
    (r.program cfg m).wp v t (fun res d' => ∃ M',
      r.Agrees cfg v (Buckets.stack (bucketOf cfg) T) res M' ∧ Represents cfg d' M') d := by
  rw [hp]
  refine wp_seq (insertBatchInner_spec hr hi h hes hf) ?_
  rintro _ d' ⟨hframe, ⟨rfl, hheld⟩ | ⟨e, rfl, he, hkept⟩⟩
  · rw [andThen_ok, wp_pure]
    refine ⟨_, Or.inl ⟨by rw [hmodel]; rfl, by rw [hmodel]⟩, hi.frame hframe, _, hheld, ?_⟩
    rw [stack_pushAll_eq]
  · rw [andThen_error]
    exact ⟨_, Or.inr ⟨e, rfl, he, rfl⟩, hi.frame hframe, T, hkept.holds h, rfl⟩

theorem validateEntries_values (hm : cfg.mode = .map) (es : List (Key × List UInt8)) :
    validateEntries cfg (es.map fun e => (e.1.toList, some e.2)) =
      .ok (es.map fun e => (e.1, some e.2)) := by
  induction es with
  | nil => rfl
  | cons e es ih =>
    rw [List.map_cons, validateEntries, validateKey_toList, validateValue_ok (Or.inr ⟨hm, rfl⟩), ih]
    rfl

theorem validateEntries_keys (hm : cfg.mode = .set) (keys : List Key) :
    validateEntries cfg (keys.map fun key => (key.toList, none)) =
      .ok (keys.map fun key => (key, none)) := by
  induction keys with
  | nil => rfl
  | cons key keys ih =>
    rw [List.map_cons, validateEntries, validateKey_toList, validateValue_ok (Or.inl ⟨hm, rfl⟩), ih]
    rfl

theorem compact_represents (hr : cfg.Ready) (h : Represents cfg d M) {load : Nat}
    (hpos : 1 ≤ load) (hle : load ≤ cfg.blockSize / nodeSize) (hf : v = .fair → m.Enough cfg) :
    (compact cfg m load).wp v t (fun res d' => Represents cfg d' M ∧
      ((∃ stats, res = .ok stats) ∨ ∃ e, res = .error e ∧ Refusal v e)) d := by
  obtain ⟨hi, T, ⟨chains, howned, rfl⟩, rfl⟩ := h
  refine wp_mono (compact_spec hr hi howned hpos hle hf) ?_
  rintro res d' ⟨hframe, ⟨chains', hrewritten⟩, hres⟩
  refine ⟨⟨hi.frame hframe, _, ⟨chains', hrewritten.owned, rfl⟩, ?_⟩, ?_⟩
  · rw [content_records hrewritten.records_eq hrewritten.bytes]
  · rcases hres with ⟨rfl, -⟩ | ⟨e, rfl, he⟩
    · exact Or.inl ⟨_, rfl⟩
    · exact Or.inr ⟨e, rfl, he⟩

theorem sync_represents (hr : cfg.Ready) (h : Represents cfg d M) (hf : v = .fair → 1 ≤ m.fuel) :
    (sync cfg m).wp v t (fun res d' => Represents cfg d' M ∧
      (res = .ok () ∨ ∃ e, res = .error e ∧ Refusal v e)) d := by
  obtain ⟨hi, T, ⟨chains, howned, rfl⟩, rfl⟩ := h
  refine wp_mono (sync_spec hr hi howned hf) ?_
  intro res d' hsync
  have hsettled := hsync.settled ⟨hi, chains, howned⟩
  refine ⟨⟨hsettled.sound.idle, _, ⟨chains, hsync.owned, rfl⟩, ?_⟩, ?_⟩
  · rw [content_flushed hsync.flushed]
  · rcases hsync.outcome with ⟨rfl, -⟩ | ⟨hv, rfl, -⟩
    · exact Or.inl rfl
    · exact Or.inr ⟨.io, rfl, Or.inr ⟨hv, rfl⟩⟩

/-- One request of the mode, from any state at rest. -/
theorem request_agrees (hr : cfg.Ready) (h : Represents cfg d M) (r : Request)
    (hmode : r.Of cfg.mode) (hf : v = .fair → m.Enough cfg) :
    (r.program cfg m).wp v t
      (fun res d' => ∃ M', r.Agrees cfg v M res M' ∧ Represents cfg d' M') d := by
  have hrep := h
  obtain ⟨hi, T, hheld, rfl⟩ := h
  cases r with
  | call c =>
    refine wp_seq (call_agrees hr hrep c hmode hf) ?_
    rintro res d' ⟨M', ⟨rfl, rfl⟩ | ⟨e, rfl, he, rfl⟩, hrep'⟩
    · rw [andThen_ok, wp_pure]
      exact ⟨_, Or.inl ⟨rfl, rfl⟩, hrep'⟩
    · rw [andThen_error]
      exact ⟨_, Or.inr ⟨e, rfl, he, rfl⟩, hrep'⟩
  | addBatch keys =>
    refine accords_batch hr hi hheld hf (validateEntries_keys hmode keys) ?_ ?_
    · rw [Request.program, FlorestaDb.addBatch, requireMode_ok hmode, List.map_map]
      rfl
    · rw [Request.model, List.length_map, List.map_map]
      rfl
  | putBatch entries =>
    refine accords_batch hr hi hheld hf (validateEntries_values hmode entries) ?_ ?_
    · rw [Request.program, FlorestaDb.putBatch, requireMode_ok hmode, List.map_map]
      rfl
    · rw [Request.model, List.length_map, List.map_map]
      congr 1
      exact (congrArg _ (List.map_id'' (fun _ => rfl) entries)).symm
  | batchFetch keys =>
    exact accords_total rfl (batchFetch_represents hr hrep hmode keys hf) rfl
  | batchDelete keys =>
    by_cases hkeys : keys.Nodup
    · exact accords_total rfl (batchDelete_represents hr hrep hkeys hf) (if_pos hkeys)
    · exact accords_rejected hrep rfl
        (batchDelete_duplicate hi.quiescence (validateKeys_toList keys) hkeys) (if_neg hkeys)
  | batchPop keys =>
    by_cases hkeys : keys.Nodup
    · exact accords_total rfl (batchPop_represents hr hrep hmode hkeys hf) (if_pos hkeys)
    · exact accords_rejected hrep rfl
        (batchPop_duplicate hi.quiescence hmode (validateKeys_toList keys) hkeys) (if_neg hkeys)
  | compact load =>
    by_cases hload : 1 ≤ load ∧ load ≤ cfg.blockSize / nodeSize
    · refine wp_seq (compact_represents hr hrep hload.1 hload.2 hf) ?_
      rintro _ d' ⟨hrep', ⟨stats, rfl⟩ | ⟨e, rfl, he⟩⟩
      · rw [andThen_ok, wp_pure]
        exact ⟨_, Or.inl (by rw [Request.model, if_pos hload]; exact ⟨rfl, rfl⟩), hrep'⟩
      · rw [andThen_error]
        exact ⟨_, Or.inr ⟨e, rfl, he, rfl⟩, hrep'⟩
    · refine wp_seq (compact_invalid hload) ?_
      rintro _ d' ⟨rfl, rfl⟩
      rw [andThen_error]
      exact ⟨_, Or.inl (by rw [Request.model, if_neg hload]; exact ⟨rfl, rfl⟩), hrep⟩
  | sync =>
    refine wp_seq (sync_represents hr hrep (Machine.Enough.one hf)) ?_
    rintro _ d' ⟨hrep', rfl | ⟨e, rfl, he⟩⟩
    · rw [andThen_ok, wp_pure]
      exact ⟨_, Or.inl ⟨rfl, rfl⟩, hrep'⟩
    · rw [andThen_error]
      exact ⟨_, Or.inr ⟨e, rfl, he, rfl⟩, hrep'⟩

end Requests

theorem Reopened.represents {chains : Nat → List Nat} (hr : Reopened cfg d chains d')
    (h : Owned cfg d.store d.runtimeHeads chains ∅ ∅ ∅) (hM : Represents cfg d M) :
    Represents cfg d' M := by
  obtain ⟨-, T, ⟨chains', howned, rfl⟩, rfl⟩ := hM
  obtain rfl : chains' = chains := h.chains_unique howned
  refine ⟨hr.idle, _, ⟨chains', hr.owned, rfl⟩, ?_⟩
  rw [content_flushed hr.flushed]

end FlorestaDb
