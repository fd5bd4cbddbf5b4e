import FlorestaDb.BatchAgreement
import FlorestaDb.Visits
import Mathlib.Data.List.Sort

/-! The results about single calls, at every state that a handle can be in: created, recovered
from a snapshot or opened again, and called and checkpointed in between. -/
namespace FlorestaDb
open Program Program.Prog Allocator Chain

variable {cfg : Config} {o : Origin} {w : Disk} {m : Machine} {t : Tid}

section Trial

/-- Calls one after the other, whatever they return. -/
def callEach (cfg : Config) (m : Machine) : List Op → Disk → Option Disk
  | [], w => some w
  | op :: ops, w => do
    let x ← (op.program cfg m).run 0 w.db
    callEach cfg m ops { w with db := x.2 }

theorem Visited.calls {ops : List Op} {w' : Disk} (h : Visited cfg o w)
    (hrun : callEach cfg m ops w = some w') : Visited cfg o w' := by
  induction ops generalizing w with
  | nil =>
    cases hrun
    exact h
  | cons op ops ih =>
    obtain ⟨x, hx, hrun⟩ := Option.bind_eq_some_iff.mp hrun
    exact ih (h.call op (returns_of_run hx)) hrun

/-- Two buckets, four pages for nodes and three for blobs. -/
def Config.pages : Config := ⟨.map, 2, 262144, 196608, 65536, 0⟩

def Machine.pages : Machine := ⟨8196, true⟩

theorem enough_pages : Machine.pages.Enough Config.pages := by
  rw [Machine.Enough]
  decide

theorem create_ok {length : Nat} (hvalid : cfg.validate = .ok ()) (hlength : headsLength cfg.bucketCount = .ok length)
    (hmapping : validateMappingLength length = .ok ()) (hstore : createStore cfg = .ok ()) :
    Db.create cfg = .ok (Db.fresh (initializeHeader HeadsFile.zero cfg) 0) := by
  rw [Db.create, hvalid, hlength, ok_bind, ok_bind, hmapping, ok_bind, hstore, ok_bind]
  rfl

theorem create_pages :
    Db.create Config.pages = .ok (Db.fresh (initializeHeader HeadsFile.zero Config.pages) 0) := by
  have hlength : headsLength Config.pages.bucketCount = .ok 262144 := by decide +kernel
  exact create_ok (by decide +kernel) hlength (by decide +kernel) rfl

def sampleKey (n : UInt8) : Key := Vector.replicate 16 n

/-- A value of eight bytes is stored in the node. -/
def sampleWord (n : UInt8) : List UInt8 := List.replicate 8 n

def appendOp (key : Key) (value : List UInt8) : Op := .putBatch [(key.toList, value)]

theorem ok_of_toOption {ε α : Type} {r : Except ε α} {a : α} (h : r.toOption = some a) : r = .ok a := by
  cases r with
  | error e => cases h
  | ok a' => exact congrArg _ (Option.some.inj h)

/-- Two values of one key, others in nodes and in blobs of both buckets, and a removal. -/
def firstOps : List Op :=
  [appendOp (sampleKey 1) (sampleWord 1), appendOp (sampleKey 2) [2], appendOp (sampleKey 1) [3],
    appendOp (sampleKey 3) (sampleWord 4), .put (sampleKey 4).toList (sampleWord 5),
    .delete (sampleKey 4).toList, .sync]

/- Behind a recovery they leave two nodes of one key in each bucket, two sealed node pages that are
   mostly empty, and a third that is open. -/
def trialOps : List Op :=
  [.sync, appendOp (sampleKey 5) (sampleWord 5), appendOp (sampleKey 1) [6, 7],
    appendOp (sampleKey 5) (sampleWord 8), appendOp (sampleKey 2) (sampleWord 9), .sync,
    appendOp (sampleKey 6) (sampleWord 1)]

/-- The states before and behind a checkpoint. -/
def checkpointed (cfg : Config) (m : Machine) (generation : Nat) (written : Option Disk) :
    Option (Disk × Disk) := do
  let w ← written
  let saved ← (checkpoint cfg m).run 0 w
  if saved.1.toOption = some generation then some (w, saved.2) else none

def firstCheckpoint : Option (Disk × Disk) :=
  checkpointed Config.pages Machine.pages 1 (callEach Config.pages Machine.pages firstOps
    (Disk.created (Db.fresh (initializeHeader HeadsFile.zero Config.pages) 0)))

/-- The recovery from it, and calls on the recovered handle. -/
def trial : Option Disk := do
  let saved ← firstCheckpoint
  let opened ← (openDatabase Machine.pages 262144).run 0 saved.2
  if opened.1.toOption = some Config.pages then callEach Config.pages Machine.pages trialOps opened.2 else none

theorem checkpointed_steps {generation : Nat} {written : Option Disk} {w₁ : Disk}
    (h : checkpointed cfg m generation written = some (w, w₁)) :
    written = some w ∧ (checkpoint cfg m).run 0 w = some (.ok generation, w₁) := by
  obtain ⟨w₀, hwritten, h⟩ := Option.bind_eq_some_iff.mp h
  obtain ⟨⟨r, saved⟩, hrun, h⟩ := Option.bind_eq_some_iff.mp h
  split at h
  case isTrue hr =>
    obtain rfl := ok_of_toOption hr
    obtain ⟨rfl, rfl⟩ := Prod.mk.inj (Option.some.inj h)
    exact ⟨hwritten, hrun⟩
  case isFalse => cases h

theorem firstCheckpoint_visited {w₁ : Disk} (h : firstCheckpoint = some (w, w₁)) :
    Visited Config.pages .created w :=
  (Visited.create _ create_pages).calls (checkpointed_steps h).1

theorem trial_steps (h : trial = some w) : ∃ w₀ w₁ w₂, firstCheckpoint = some (w₀, w₁) ∧
    (openDatabase Machine.pages 262144).run 0 w₁ = some (.ok Config.pages, w₂) ∧
      callEach Config.pages Machine.pages trialOps w₂ = some w := by
  obtain ⟨⟨w₀, w₁⟩, hfirst, h⟩ := Option.bind_eq_some_iff.mp h
  obtain ⟨⟨r, w₂⟩, hopen, h⟩ := Option.bind_eq_some_iff.mp h
  split at h
  case isTrue hr =>
    obtain rfl := ok_of_toOption hr
    exact ⟨w₀, w₁, w₂, hfirst, hopen, h⟩
  case isFalse => cases h

theorem trial_visited (h : trial = some w) : Visited Config.pages .recovered w := by
  obtain ⟨w₀, w₁, w₂, -, hopen, hcalls⟩ := trial_steps h
  exact (Visited.openDatabase (returns_of_run hopen)).calls hcalls

theorem PreparedInsert.order_eq {a b : PreparedInsert} (hab : a.le b = true) (hba : b.le a = true) :
    a.order = b.order := by
  simp only [PreparedInsert.le, Bool.or_eq_true, Bool.and_eq_true, decide_eq_true_eq] at hab hba
  omega

/-- The sort of a batch compares the input positions last, so it is the sort by insertion. -/
theorem prepareBatch_insertionSort {entries : List (List UInt8 × Option (List UInt8))}
    {es : List (Key × Option (List UInt8))} (h : validateEntries cfg entries = .ok es) :
    prepareBatch cfg m entries =
      .ok ((preparedInserts cfg es).insertionSort fun a b => a.le b = true) := by
  rw [prepareBatch_eq h]
  apply congrArg Except.ok
  have hmerge := List.mergeSort_perm (preparedInserts cfg es) PreparedInsert.le
  have hinsertion := List.perm_insertionSort (fun a b => a.le b = true) (preparedInserts cfg es)
  have htotal : Std.Total fun a b : PreparedInsert => a.le b = true :=
    ⟨fun a b => by simpa using PreparedInsert.le_total a b⟩
  have htrans : IsTrans PreparedInsert fun a b => a.le b = true := ⟨PreparedInsert.le_trans⟩
  apply List.Perm.eq_of_pairwise _ (List.pairwise_mergeSort PreparedInsert.le_trans PreparedInsert.le_total _)
    (List.pairwise_insertionSort _ _) (hmerge.trans hinsertion.symm)
  intro a b ha hb hab hba
  obtain ⟨p, hp, rfl⟩ := List.mem_map.mp (hmerge.mem_iff.mp ha)
  obtain ⟨q, hq, rfl⟩ := List.mem_map.mp (hinsertion.mem_iff.mp hb)
  have horder : p.2 = q.2 := PreparedInsert.order_eq hab hba
  rw [List.mem_zipIdx_iff_getElem?] at hp hq
  rw [horder, hq] at hp
  rw [Option.some.inj hp, horder]

def sampleEntries : List (Key × List UInt8) :=
  [(sampleKey 3, sampleWord 1), (sampleKey 1, [1, 2]), (sampleKey 7, sampleWord 3),
    (sampleKey 1, sampleWord 2), (sampleKey 5, [])]

/-- The blob is the fourth entry in bucket order. -/
def lateBlobEntries : List (Key × List UInt8) :=
  [(sampleKey 3, sampleWord 1), (sampleKey 1, sampleWord 2), (sampleKey 7, [1, 2]),
    (sampleKey 1, sampleWord 4), (sampleKey 5, sampleWord 6)]

def sampleKeys : List Key := [sampleKey 1, sampleKey 9, sampleKey 2, sampleKey 1, sampleKey 5]

def distinctKeys : List Key := [sampleKey 1, sampleKey 9, sampleKey 2, sampleKey 5]

theorem exists_any {α : Type} {x : Option α} {p : α → Prop} [DecidablePred p] :
    x.any (fun a => p a) = true ↔ ∃ a, x = some a ∧ p a := by
  simp [Option.any_eq_true]

/-- The stacks of a state are determined by its chains. -/
theorem Represents.unique {d : Db} {M M' : Stacks} (h : Represents cfg d M) (h' : Represents cfg d M') :
    M = M' := by
  obtain ⟨-, T, ⟨chains, howned, rfl⟩, rfl⟩ := h
  obtain ⟨-, T', ⟨chains', howned', rfl⟩, rfl⟩ := h'
  rw [howned'.chains_unique howned]

/-- The top value of a key, and the one below it after a removal. -/
def topTwo (cfg : Config) (m : Machine) (key : Key) : TableM (Option (List UInt8) × Option (List UInt8)) := do
  let top ← get cfg m key.toList
  let _ ← delete cfg m key.toList
  let below ← get cfg m key.toList
  return (top, below)

theorem topTwo_spec {v : Env} {d : Db} {M : Stacks} (hr : cfg.Ready) (h : Represents cfg d M)
    (hm : cfg.mode = .map) (key : Key) (hf : v = .fair → m.Enough cfg) :
    (topTwo cfg m key).wp v t (fun res _ => res = .ok ((M key).head?, (M key).tail.head?)) d := by
  obtain ⟨hi, T, hholds, rfl⟩ := h
  rw [topTwo]
  refine wp_seq (get_spec hr hi hholds hm key hf) ?_
  intro res d₁ hget
  obtain ⟨hframe, rfl, hholds₁⟩ := hget
  rw [andThen_ok]
  refine wp_seq (delete_spec hr (hi.frame hframe) hholds₁ key hf) ?_
  intro res d₂ hdelete
  obtain ⟨hframe', rfl, hholds₂⟩ := hdelete
  rw [andThen_ok]
  refine wp_seq (get_spec hr ((hi.frame hframe).frame hframe') hholds₂ hm key hf) ?_
  intro res d₃ hbelow
  obtain ⟨-, rfl, -⟩ := hbelow
  rw [andThen_ok, wp_pure, Buckets.stack_drop, if_pos rfl]

/-- A key with two values. -/
theorem Represents.two {d d' : Db} {M : Stacks} (hr : cfg.Ready) (h : Represents cfg d M)
    (hm : cfg.mode = .map) {key : Key} {a b : List UInt8}
    (hrun : (topTwo cfg m key).run t d = some (.ok (some a, some b), d')) :
    ∃ rest, M key = a :: b :: rest := by
  have hpost := post_of_returns (topTwo_spec hr h hm key (fun hv => by cases hv)) (returns_of_run hrun)
  obtain ⟨htop, hbelow⟩ := Prod.mk.inj (Except.ok.inj hpost)
  cases hstack : M key with
  | nil =>
    rw [hstack] at htop
    cases htop
  | cons top rest =>
    rw [hstack] at htop hbelow
    cases rest with
    | nil => cases hbelow
    | cons below rest =>
      obtain rfl := Option.some.inj htop
      obtain rfl := Option.some.inj hbelow
      exact ⟨rest, rfl⟩

/-- The key that has two values is removed, and another one is written. -/
def laterOps : List Op :=
  [.delete (sampleKey 1).toList, .delete (sampleKey 1).toList, appendOp (sampleKey 5) (sampleWord 6), .sync]

/-- What the first checkpoint leaves, and what calls behind it do. -/
theorem firstCheckpoint_runs : ∃ x, firstCheckpoint = some x ∧
    ((topTwo Config.pages Machine.pages (sampleKey 1)).run 0 x.1.db).map Prod.fst =
      some (.ok (some [3], some (sampleWord 1))) ∧
    ((callEach Config.pages Machine.pages laterOps x.2).bind fun w =>
      ((get Config.pages Machine.pages (sampleKey 1).toList).run 0 w.db).map Prod.fst) = some (.ok none) ∧
    snapshotRoot Config.pages x.2.db.headsFile 1 0 ≠ 0 ∧ snapshotRoot Config.pages x.2.db.headsFile 1 1 ≠ 0 := by
  rw [← exists_any]
  decide +kernel

/-- What calls on the state of `trial` return. -/
theorem trial_runs : ∃ w, trial = some w ∧
    (w.db.store.body.live.length = 8 ∧ w.db.store.body.currentBlock = 3 ∧ w.db.store.blobs.live.length = 3) ∧
    ((putBatch Config.pages Machine.pages (sampleEntries.map fun e => (e.1.toList, e.2))).run 0 w.db).map
      Prod.fst = some (.ok 5) ∧
    ((callEach Config.pages Machine.pages [.put (sampleKey 6).toList [6], .sync] w).bind fun w' =>
      ((putBatch Config.pages Machine.pages (lateBlobEntries.map fun e => (e.1.toList, e.2))).run 0 w'.db).map
        fun x => (x.1, w'.db.store.body.live.length)) =
      some (.error (.capacityExhausted "mapped file"), 8) ∧
    ((getEach Config.pages Machine.pages (sampleKeys.map Vector.toList)).run 0 w.db).map Prod.fst =
      some (.ok [some [6, 7], none, some (sampleWord 9), some [6, 7], some (sampleWord 8)]) := by
  have hvalid : validateEntries Config.pages
      ((sampleEntries.map fun e => (e.1.toList, e.2)).map fun e => (e.1, some e.2)) =
        .ok (sampleEntries.map fun e => (e.1, some e.2)) := rfl
  have hvalid' : validateEntries Config.pages
      ((lateBlobEntries.map fun e => (e.1.toList, e.2)).map fun e => (e.1, some e.2)) =
        .ok (lateBlobEntries.map fun e => (e.1, some e.2)) := rfl
  simp only [putBatch, insertBatchInner, prepareBatch_insertionSort hvalid, prepareBatch_insertionSort hvalid']
  rw [← exists_any]
  decide +kernel

/-- Closed, and its runtime files opened again. -/
def reopened (cfg : Config) (m : Machine) (w : Disk) : Option Disk := do
  let closed ← (close cfg m).run 0 w.db
  let opened ← (openRuntime (closed.2.directory cfg)).toOption
  if closed.1.toOption = some () then some { w with db := opened.2 } else none

theorem reopened_steps {w' : Disk} (h : Visited cfg o w) (hrun : reopened cfg m w = some w') : ∃ d₁ d₂,
    (close cfg m).run 0 w.db = some (.ok (), d₁) ∧ openRuntime (d₁.directory cfg) = .ok (cfg, d₂) ∧
      w' = { w with db := d₂ } ∧ Visited cfg .reopened w' := by
  obtain ⟨⟨r, d₁⟩, hclose, hrun⟩ := Option.bind_eq_some_iff.mp hrun
  obtain ⟨⟨cfg', d₂⟩, hopen, hrun⟩ := Option.bind_eq_some_iff.mp hrun
  split at hrun
  case isTrue hr =>
    obtain rfl := ok_of_toOption hr
    obtain ⟨chains, -, hclosed⟩ := h.station.closed (returns_of_run hclose)
    obtain ⟨d, hopen', -⟩ := openRuntime_ok h.station.accepted hclosed
    rw [hopen'] at hopen
    obtain ⟨rfl, rfl⟩ := Prod.mk.inj (Option.some.inj hopen)
    obtain rfl := Option.some.inj hrun
    exact ⟨d₁, d, hclose, hopen', rfl, h.openRuntime (returns_of_run hclose) hopen'⟩
  case isFalse => cases hrun

/-- Two values of one key, one of another, and a removal, in a single page that is open. -/
def sparseOps : List Op :=
  [appendOp (sampleKey 1) (sampleWord 1), appendOp (sampleKey 1) [2], .put (sampleKey 3).toList [3],
    .delete (sampleKey 1).toList, appendOp (sampleKey 1) (sampleWord 4)]

/-- The page is a candidate of a compaction once the database was closed and opened again. -/
theorem compaction_run : ∃ w, callEach Config.pages Machine.pages sparseOps
      (Disk.created (Db.fresh (initializeHeader HeadsFile.zero Config.pages) 0)) = some w ∧
    ((compact Config.pages Machine.pages 5).run 0 w.db).map Prod.fst = some (.ok ⟨0, 0, 0, 0⟩) ∧
    ((reopened Config.pages Machine.pages w).bind fun w' =>
      ((compact Config.pages Machine.pages 5).run 0 w'.db).map fun x =>
        (x.1, x.2.store.body.live.length, x.2.store.blobs.live.length)) = some (.ok ⟨1, 3, 1, 0⟩, 3, 1) := by
  rw [← exists_any]
  decide +kernel

/-- The states around it. -/
theorem compacted_pages : ∃ w w' d, Visited Config.pages .created w ∧
    ((compact Config.pages Machine.pages 5).run 0 w.db).map Prod.fst = some (.ok ⟨0, 0, 0, 0⟩) ∧
    reopened Config.pages Machine.pages w = some w' ∧
    (compact Config.pages Machine.pages 5).run 0 w'.db = some (.ok ⟨1, 3, 1, 0⟩, d) ∧
      d.store.body.live.length = 3 ∧ d.store.blobs.live.length = 1 := by
  obtain ⟨w, hcalls, hnone, hrun⟩ := compaction_run
  obtain ⟨w', hreopened, hrun⟩ := Option.bind_eq_some_iff.mp hrun
  obtain ⟨⟨res, d⟩, hrun, heq⟩ := Option.map_eq_some_iff.mp hrun
  simp only [Prod.mk.injEq] at heq
  obtain ⟨rfl, hbody, hblobs⟩ := heq
  exact ⟨w, w', d, (Visited.create _ create_pages).calls hcalls, hnone, hreopened, hrun, hbody, hblobs⟩

end Trial

section Ownership

/-- Every state that a handle can be in satisfies the ownership invariant. -/
theorem reachable_ownership (h : Visited cfg o w) : ∃ chains, Ownership cfg w.db chains := by
  obtain ⟨chains, howned⟩ := h.station.owned
  exact ⟨chains, howned.ownership h.station.accepted.ready⟩

/-- After a compaction that moved three nodes, one of them with a blob. -/
theorem reachable_ownership_pages : ∃ w chains, Visited Config.pages .reopened w ∧
    w.db.store.body.live.length = 3 ∧ w.db.store.blobs.live.length = 1 ∧
      Ownership Config.pages w.db chains := by
  obtain ⟨w₀, w, d, hcreated, -, hreopened, hrun, hbody, hblobs⟩ := compacted_pages
  obtain ⟨-, -, -, -, -, hvisited⟩ := reopened_steps hcreated hreopened
  have hcall : ((Op.compact 5).program Config.pages Machine.pages).run 0 w.db = some (.ok (), d) := by
    rw [Op.program, run_bind, hrun]
    rfl
  have hcompacted := hvisited.call _ (returns_of_run hcall)
  obtain ⟨chains, hown⟩ := reachable_ownership hcompacted
  exact ⟨_, chains, hcompacted, hbody, hblobs, hown⟩

/-- A write that returns an error has published nothing and leaked nothing. -/
theorem failed_write_changes_nothing (h : Visited cfg o w) {op : Op} (hop : op.Writes) {e : Error} {d : Db}
    (hcall : (op.program cfg m).Returns t w.db (.error e) d) :
    ∃ chains, Untouched cfg w.db d chains := by
  have hready := h.station.accepted.ready
  have hw := post_of_returns (op.written hready h.station.sound hop (fun hv => by cases hv)) hcall
  exact (hw.failed e rfl).untouched hready

/-- Three entries of the batch are in the file when the blobs run out. -/
theorem failed_write_changes_nothing_pages : ∃ w d chains, Visited Config.pages .recovered w ∧
    w.db.store.body.live.length = 8 ∧
      ((Op.putBatch (lateBlobEntries.map fun e => (e.1.toList, e.2))).program Config.pages Machine.pages).run 0 w.db =
        some (.error (.capacityExhausted "mapped file"), d) ∧
      Untouched Config.pages w.db d chains := by
  obtain ⟨w, htrial, -, -, hfails, -⟩ := trial_runs
  obtain ⟨w', hcalls, hfails⟩ := Option.bind_eq_some_iff.mp hfails
  obtain ⟨⟨res, d⟩, hrun, heq⟩ := Option.map_eq_some_iff.mp hfails
  simp only [Prod.mk.injEq] at heq
  obtain ⟨rfl, hlive⟩ := heq
  have hvisited := (trial_visited htrial).calls hcalls
  have hcall : ((Op.putBatch (lateBlobEntries.map fun e => (e.1.toList, e.2))).program Config.pages
      Machine.pages).run 0 w'.db = some (.error (.capacityExhausted "mapped file"), d) := by
    rw [Op.program, run_bind, hrun]
  have hwrites : (Op.putBatch (lateBlobEntries.map fun e => (e.1.toList, e.2))).Writes := trivial
  obtain ⟨chains, huntouched⟩ := failed_write_changes_nothing hvisited hwrites (returns_of_run hcall)
  exact ⟨w', d, chains, hvisited, hlive, hcall, huntouched⟩

/-- A compaction returns; whatever it returns, the chains say what they said, and when it
returns `Ok` every sparse page has been emptied. -/
theorem compact_keeps_records (h : Visited cfg o w) {load : Nat} (hpos : 1 ≤ load)
    (hle : load ≤ cfg.blockSize / nodeSize) :
    (m.Enough cfg → ∃ res d, (compact cfg m load).run t w.db = some (res, d)) ∧
    ∀ res d, (compact cfg m load).Returns t w.db res d →
      (∃ chains chains', SameRecords cfg w.db d chains chains') ∧
      ((∃ stats, res = .ok stats ∧ Drained w.db.store.body load stats d.store.body) ∨
        ∃ e, res = .error e ∧ Refusal .any e) := by
  have hready := h.station.accepted.ready
  constructor
  · intro hf
    obtain ⟨res, d, hrun, -⟩ :=
      run_of_wp (compact_outcome (t := t) hready h.station.sound hpos hle fun _ => hf)
    exact ⟨res, d, hrun⟩
  · intro res d hcall
    exact post_of_returns (compact_outcome hready h.station.sound hpos hle (fun hv => by cases hv)) hcall

/-- The three nodes of a sealed page are moved to another page. -/
theorem compact_keeps_records_pages : ∃ w d, Visited Config.pages .reopened w ∧
    (compact Config.pages Machine.pages 5).run 0 w.db = some (.ok ⟨1, 3, 1, 0⟩, d) ∧
      Drained w.db.store.body 5 ⟨1, 3, 1, 0⟩ d.store.body ∧
      ∃ chains chains', SameRecords Config.pages w.db d chains chains' := by
  obtain ⟨w₀, w, d, hcreated, -, hreopened, hrun, -⟩ := compacted_pages
  obtain ⟨-, -, -, -, -, hvisited⟩ := reopened_steps hcreated hreopened
  obtain ⟨hsame, ⟨stats, hstats, hdrained⟩ | ⟨e, he, -⟩⟩ :=
    (compact_keeps_records hvisited (by decide) (by decide)).2 _ d (returns_of_run hrun)
  · obtain rfl := Except.ok.inj hstats
    exact ⟨w, d, hvisited, hrun, hdrained, hsame⟩
  cases he

end Ownership

section Batches

/-- A batch of writes that returns `Ok` is the same as its entries appended one at a time. -/
theorem batch_writes_append (h : Visited cfg o w) :
    (∀ entries n d, (putBatch cfg m entries).Returns t w.db (.ok n) d →
      ∃ (es : List (Key × List UInt8)) (T : _), entries = es.map (fun e => (e.1.toList, e.2)) ∧
        BatchWrite cfg w.db d es n
          (fun d' => ∃ m t, (appendEach cfg m entries).Returns t w.db (.ok ()) d') T) ∧
    ∀ keys n d, (addBatch cfg m keys).Returns t w.db (.ok n) d →
      ∃ (ks : List Key) (T : _), keys = ks.map (fun key => key.toList) ∧
        BatchWrite cfg w.db d (ks.map fun key => (key, [])) n
          (fun d' => ∃ m t, (addEach cfg m keys).Returns t w.db (.ok ()) d') T := by
  have hready := h.station.accepted.ready
  exact ⟨fun entries n d hcall => putBatch_write hready h.station.sound hcall,
    fun keys n d hcall => addBatch_write hready h.station.sound hcall⟩

/-- Five entries for two buckets, a key among them twice, behind eight nodes. -/
theorem batch_writes_append_pages : ∃ w d, Visited Config.pages .recovered w ∧
    w.db.store.body.live.length = 8 ∧
    (putBatch Config.pages Machine.pages (sampleEntries.map fun e => (e.1.toList, e.2))).run 0 w.db =
      some (.ok 5, d) ∧
    ∃ T, BatchWrite Config.pages w.db d sampleEntries 5 (fun d' => ∃ m t, (appendEach Config.pages m
      (sampleEntries.map fun e => (e.1.toList, e.2))).Returns t w.db (.ok ()) d') T := by
  obtain ⟨w, htrial, ⟨hlive, -⟩, hputs, -⟩ := trial_runs
  obtain ⟨⟨res, d⟩, hrun, hres⟩ := Option.map_eq_some_iff.mp hputs
  obtain rfl : res = .ok 5 := hres
  have hvisited := trial_visited htrial
  obtain ⟨es, T, hes, hwrite⟩ := (batch_writes_append hvisited).1 _ 5 d (returns_of_run hrun)
  have hentries : sampleEntries = es := by
    apply List.map_injective_iff.mpr _ hes
    intro a b hab
    obtain ⟨hkey, hvalue⟩ := Prod.mk.inj hab
    exact Prod.ext (Vector.toList_inj.mp hkey) hvalue
  exact ⟨w, d, hvisited, hlive, hrun, T, hentries ▸ hwrite⟩

/-- Batches of reads and removals return and leave what the scalar calls do, in input
order; a batch of removals that names a key twice is turned down. -/
theorem batch_calls_agree (h : Visited cfg o w) (keys : List Key) :
    ∃ M, Represents cfg w.db M ∧
      (cfg.mode = .map →
        Yields cfg m t (batchFetch cfg m (keys.map Vector.toList)) w.db
          (keys.map fun key => (M key).head?) M ∧
        Yields cfg m t (getEach cfg m (keys.map Vector.toList)) w.db
          (keys.map fun key => (M key).head?) M) ∧
      (keys.Nodup →
        Yields cfg m t (batchDelete cfg m (keys.map Vector.toList)) w.db
          (keys.map fun key => !(M key).isEmpty) (M.popAll keys) ∧
        Yields cfg m t (deleteEach cfg m (keys.map Vector.toList)) w.db
          (keys.map fun key => !(M key).isEmpty) (M.popAll keys) ∧
        (cfg.mode = .map →
          Yields cfg m t (batchPop cfg m (keys.map Vector.toList)) w.db
            (keys.map fun key => (M key).head?) (M.popAll keys))) ∧
      (¬keys.Nodup →
        Rejects t (batchDelete cfg m (keys.map Vector.toList)) w.db duplicateKeys ∧
        (cfg.mode = .map →
          Rejects t (batchPop cfg m (keys.map Vector.toList)) w.db duplicateKeys)) := by
  have hr := h.station.accepted.ready
  have hi := h.station.sound.idle
  obtain ⟨T, hheld⟩ := h.station.sound.holds
  have hinput := validateKeys_toList keys
  have hrep : Represents cfg w.db (Buckets.stack (bucketOf cfg) T) := ⟨hi, T, hheld, rfl⟩
  refine ⟨_, hrep, ?_, ?_, ?_⟩
  · intro hm
    constructor
    · exact yields fun v hf => batchFetch_represents hr hrep hm keys hf
    · apply yields
      intro v hf
      refine wp_mono (getEach_spec hr hi hheld hm keys hf) ?_
      rintro res d' ⟨hframe, hres, hheld'⟩
      exact ⟨hres, hi.frame hframe, T, hheld', rfl⟩
  · intro hkeys
    refine ⟨?_, ?_, ?_⟩
    · exact yields fun v hf => batchDelete_represents hr hrep hkeys hf
    · apply yields
      intro v hf
      refine wp_mono (deleteEach_spec hr hi hheld hkeys hf) ?_
      rintro res d' ⟨hframe, hres, hheld'⟩
      exact ⟨hres, hi.frame hframe, _, hheld', stack_dropAll_eq hkeys⟩
    · intro hm
      exact yields fun v hf => batchPop_represents hr hrep hm hkeys hf
  · intro hkeys
    constructor
    · exact rejects fun v => batchDelete_duplicate hi.quiescence hinput hkeys
    · intro hm
      exact rejects fun v => batchPop_duplicate hi.quiescence hm hinput hkeys

/-- Keys of both buckets, one of them absent and one named twice. -/
theorem batch_calls_agree_pages : ∃ w M, Visited Config.pages .recovered w ∧ Represents Config.pages w.db M ∧
    w.db.store.body.live.length = 8 ∧ w.db.store.blobs.live.length = 3 ∧
    Yields Config.pages Machine.pages 0 (batchFetch Config.pages Machine.pages (sampleKeys.map Vector.toList)) w.db
      [some [6, 7], none, some (sampleWord 9), some [6, 7], some (sampleWord 8)] M ∧
    Yields Config.pages Machine.pages 0 (batchDelete Config.pages Machine.pages (distinctKeys.map Vector.toList)) w.db
      [true, false, true, true] (M.popAll distinctKeys) ∧
    Yields Config.pages Machine.pages 0 (batchPop Config.pages Machine.pages (distinctKeys.map Vector.toList)) w.db
      [some [6, 7], none, some (sampleWord 9), some (sampleWord 8)] (M.popAll distinctKeys) ∧
    Rejects 0 (batchPop Config.pages Machine.pages (sampleKeys.map Vector.toList)) w.db duplicateKeys := by
  obtain ⟨w, htrial, ⟨hlive, -, hblobs⟩, -, -, hgets⟩ := trial_runs
  obtain ⟨⟨res, d⟩, hrun, hres⟩ := Option.map_eq_some_iff.mp hgets
  obtain rfl : res = _ := hres
  have hvisited := trial_visited htrial
  obtain ⟨M, hrep, hreads, -, htwice⟩ := batch_calls_agree (m := Machine.pages) (t := 0) hvisited sampleKeys
  obtain ⟨M', hrep', -, hremoves, -⟩ := batch_calls_agree (m := Machine.pages) (t := 0) hvisited distinctKeys
  obtain ⟨hfetch, heach⟩ := hreads rfl
  obtain rfl := hrep.unique hrep'
  have hheads := Except.ok.inj (heach.only _ d (returns_of_run hrun)).1
  rw [← hheads] at hfetch
  simp only [sampleKeys, List.map_cons, List.map_nil, List.cons.injEq, and_true] at hheads
  obtain ⟨h1, h9, h2, -, h5⟩ := hheads
  obtain ⟨hdelete, -, hpop⟩ := hremoves (by decide)
  have hpop := hpop rfl
  have hsome : ∀ k v, some v = (M k).head? → (!(M k).isEmpty) = true := by
    intro k v hv
    rw [List.isEmpty_eq_false_iff.mpr, Bool.not_false]
    intro hnil
    rw [hnil] at hv
    cases hv
  have hnone : (!(M (sampleKey 9)).isEmpty) = false := by
    rw [List.head?_eq_none_iff.mp h9.symm]
    rfl
  simp only [distinctKeys, List.map_cons, List.map_nil, hsome _ _ h1, hsome _ _ h2, hsome _ _ h5, hnone] at hdelete
  simp only [distinctKeys, List.map_cons, List.map_nil, ← h1, ← h2, ← h5, ← h9] at hpop
  exact ⟨w, M, hvisited, hrep, hlive, hblobs, hfetch, hdelete, hpop, (htwice (by decide)).2 rfl⟩

end Batches

end FlorestaDb
