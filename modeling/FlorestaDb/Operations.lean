import FlorestaDb.BatchRemove
import FlorestaDb.Reopen

/-! The calls on an open database, and the state at rest that each of them leaves, whatever it was
given and whatever it returned. -/
namespace FlorestaDb
open Program Program.Prog Allocator Chain

variable {cfg : Config} {m : Machine} {v : Env} {t : Tid} {d d' : Db} {α : Type}

/-- The calls on an open database, with the arguments a caller can pass. -/
inductive Op where
  | add (key : List UInt8)
  | addBatch (keys : List (List UInt8))
  | put (key value : List UInt8)
  | putNew (key value : List UInt8)
  | putBatch (entries : List (List UInt8 × List UInt8))
  | get (key : List UInt8)
  | contains (key : List UInt8)
  | batchFetch (keys : List (List UInt8))
  | delete (key : List UInt8)
  | batchDelete (keys : List (List UInt8))
  | batchPop (keys : List (List UInt8))
  | compact (minimumPageLoad : Nat)
  | sync

/-- The call, its result left out. -/
def Op.program (cfg : Config) (m : Machine) : Op → TableM Unit
  | .add key => do let _ ← FlorestaDb.add cfg m key
  | .addBatch keys => do let _ ← FlorestaDb.addBatch cfg m keys
  | .put key value => do let _ ← FlorestaDb.put cfg m key value
  | .putNew key value => do let _ ← FlorestaDb.putNew cfg m key value
  | .putBatch entries => do let _ ← FlorestaDb.putBatch cfg m entries
  | .get key => do let _ ← FlorestaDb.get cfg m key
  | .contains key => do let _ ← FlorestaDb.contains cfg m key
  | .batchFetch keys => do let _ ← FlorestaDb.batchFetch cfg m keys
  | .delete key => do let _ ← FlorestaDb.delete cfg m key
  | .batchDelete keys => do let _ ← FlorestaDb.batchDelete cfg m keys
  | .batchPop keys => do let _ ← FlorestaDb.batchPop cfg m keys
  | .compact minimumPageLoad => do let _ ← FlorestaDb.compact cfg m minimumPageLoad
  | .sync => FlorestaDb.sync cfg m

/-- Between two calls: no guard is held, and the chains own everything that is live. -/
structure Sound (cfg : Config) (d : Db) : Prop where
  idle : Idle d
  owned : ∃ chains, Owned cfg d.store d.runtimeHeads chains ∅ ∅ ∅

theorem Sound.holds (h : Sound cfg d) : ∃ T, Holds cfg d.store d.runtimeHeads T := by
  obtain ⟨chains, howned⟩ := h.owned
  exact ⟨_, chains, howned, rfl⟩

theorem Sound.of_holds {T : Nat → List (Key × List UInt8)} (hi : Idle d) (hf : Frame d d')
    (h : Holds cfg d'.store d'.runtimeHeads T) : Sound cfg d' := by
  obtain ⟨chains, howned, -⟩ := h
  exact ⟨hi.frame hf, chains, howned⟩

theorem Kept.sound (hi : Idle d) (hf : Frame d d')
    (h : Kept cfg d.store d.runtimeHeads d'.store d'.runtimeHeads) : Sound cfg d' := by
  obtain ⟨chains, -, howned, -⟩ := h.chains
  exact ⟨hi.frame hf, chains, howned⟩

theorem Outcome.sound {r : α} {T : Nat → List (Key × List UInt8)} {res : Except Error α}
    (hi : Idle d) (hf : Frame d d') (h : Outcome cfg v d r T res d'.store d'.runtimeHeads) :
    Sound cfg d' := by
  rcases h with ⟨-, hholds⟩ | ⟨e, -, -, hkept⟩
  · exact .of_holds hi hf hholds
  · exact hkept.sound hi hf

section Rejected

/-- A call that is turned down before it touches anything. -/
theorem operation_rejected {body : TableM α} {e : Error} (hq : d.quiescence = RwLock.free)
    (h : body.wp v t (fun res d' => res = .error e ∧ d' = { d with quiescence := ⟨[t], none⟩ })
      { d with quiescence := ⟨[t], none⟩ }) :
    (operation body).wp v t (fun res d' => res = .error e ∧ d' = d) d := by
  apply wp_shared hq
  refine wp_mono h ?_
  rintro res d' ⟨rfl, rfl⟩
  refine ⟨rfl, rfl, ?_⟩
  rw [← hq]

/-- A key is sixteen bytes or it is refused. -/
theorem validateKey_cases (key : List UInt8) :
    (∃ k : Key, key = k.toList) ∨
      validateKey key = .error (.invalidKeyLength keySize key.length) := by
  by_cases h : key.length = 16
  · refine Or.inl ⟨⟨key.toArray, by simpa using h⟩, ?_⟩
    simp [Vector.toList]
  · refine Or.inr ?_
    rw [validateKey, dif_neg h]

theorem requireMode_cases (cfg : Config) (mode : Mode) (message : String) :
    cfg.mode = mode ∨ requireMode cfg mode message = .error (.unsupported message) := by
  by_cases h : cfg.mode = mode
  · exact Or.inl h
  · exact Or.inr (if_pos h)

end Rejected

section Writes

/-- What a write leaves behind; a write that fails has changed no chain. -/
structure Written (cfg : Config) (d : Db) (res : Except Error α) (d' : Db) : Prop where
  frame : Frame d d'
  sound : Sound cfg d'
  failed : ∀ e, res = .error e → Kept cfg d.store d.runtimeHeads d'.store d'.runtimeHeads

theorem Sound.kept (h : Sound cfg d) : Kept cfg d.store d.runtimeHeads d.store d.runtimeHeads := by
  obtain ⟨chains, howned⟩ := h.owned
  exact ⟨chains, howned, howned, .refl cfg _ _⟩

theorem Written.rejected (h : Sound cfg d) (res : Except Error α) : Written cfg d res d :=
  ⟨.refl d, h, fun _ _ => h.kept⟩

theorem Outcome.written {r : α} {T : Nat → List (Key × List UInt8)} {res : Except Error α}
    (hi : Idle d) (hf : Frame d d') (h : Outcome cfg v d r T res d'.store d'.runtimeHeads) :
    Written cfg d res d' := by
  refine ⟨hf, h.sound hi hf, ?_⟩
  intro e he
  rcases h with ⟨hok, -⟩ | ⟨e', -, -, hkept⟩
  · rw [hok] at he
    cases he
  · exact hkept

theorem add_written (hr : cfg.Ready) (h : Sound cfg d) (key : List UInt8)
    (hf : v = .fair → m.Enough cfg) : (add cfg m key).wp v t (Written cfg d) d := by
  obtain ⟨T, hholds⟩ := h.holds
  rcases requireMode_cases cfg .set "add is available only for sets" with hm | hm
  · rcases validateKey_cases key with ⟨k, rfl⟩ | hk
    · refine wp_mono (add_spec hr h.idle hholds hm k hf) ?_
      rintro res d' ⟨hframe, hout⟩
      exact hout.written h.idle hframe
    · rw [add, requireMode_ok hm, wp_bind, wp_ofExcept, andThen_ok, wp_bind]
      have hrej : (insertOneInner cfg m key none).wp v t (fun res d' =>
          res = .error (.invalidKeyLength keySize key.length) ∧ d' = d) d := by
        apply operation_rejected h.idle.quiescence
        rw [hk, wp_bind, wp_ofExcept, andThen_error]
        exact ⟨rfl, rfl⟩
      refine wp_mono hrej ?_
      rintro res d' ⟨rfl, rfl⟩
      rw [andThen_error]
      exact .rejected h _
  · rw [add, hm, wp_bind, wp_ofExcept, andThen_error]
    exact .rejected h _

theorem putInner_rejected (hq : d.quiescence = RwLock.free) {key : List UInt8} {e : Error}
    (hk : validateKey key = .error e) (value : Option (List UInt8)) (replaceExisting : Bool) :
    (putInner cfg m key value replaceExisting).wp v t
      (fun res d' => res = .error e ∧ d' = d) d := by
  apply operation_rejected hq
  rw [hk, wp_bind, wp_ofExcept, andThen_error]
  exact ⟨rfl, rfl⟩

theorem put_written (hr : cfg.Ready) (h : Sound cfg d) (key value : List UInt8)
    (hf : v = .fair → m.Enough cfg) : (put cfg m key value).wp v t (Written cfg d) d := by
  obtain ⟨T, hholds⟩ := h.holds
  rcases requireMode_cases cfg .map "put is available only for maps" with hm | hm
  · rcases validateKey_cases key with ⟨k, rfl⟩ | hk
    · refine wp_mono (put_spec hr h.idle hholds hm k value hf) ?_
      rintro res d' ⟨hframe, hout⟩
      exact hout.written h.idle hframe
    · rw [put, requireMode_ok hm, wp_bind, wp_ofExcept, andThen_ok, wp_bind]
      refine wp_mono (putInner_rejected h.idle.quiescence hk _ _) ?_
      rintro res d' ⟨rfl, rfl⟩
      rw [andThen_error]
      exact .rejected h _
  · rw [put, hm, wp_bind, wp_ofExcept, andThen_error]
    exact .rejected h _

theorem putNew_written (hr : cfg.Ready) (h : Sound cfg d) (key value : List UInt8)
    (hf : v = .fair → m.Enough cfg) : (putNew cfg m key value).wp v t (Written cfg d) d := by
  obtain ⟨T, hholds⟩ := h.holds
  rcases requireMode_cases cfg .map "put_new is available only for maps" with hm | hm
  · rcases validateKey_cases key with ⟨k, rfl⟩ | hk
    · refine wp_mono (putNew_spec hr h.idle hholds hm k value hf) ?_
      rintro res d' ⟨hframe, hout⟩
      exact hout.written h.idle hframe
    · rw [putNew, requireMode_ok hm, wp_bind, wp_ofExcept, andThen_ok, wp_bind]
      refine wp_mono (putInner_rejected h.idle.quiescence hk _ _) ?_
      rintro res d' ⟨rfl, rfl⟩
      rw [andThen_error]
      exact .rejected h _
  · rw [putNew, hm, wp_bind, wp_ofExcept, andThen_error]
    exact .rejected h _

/-- A batch with a bad entry is refused before anything is allocated. -/
theorem insertBatchInner_written (hr : cfg.Ready) (h : Sound cfg d)
    (entries : List (List UInt8 × Option (List UInt8))) (hf : v = .fair → m.Enough cfg) :
    (insertBatchInner cfg m entries).wp v t (Written cfg d) d := by
  obtain ⟨T, hholds⟩ := h.holds
  cases hes : validateEntries cfg entries with
  | ok es =>
    refine wp_mono (insertBatchInner_spec hr h.idle hholds hes hf) ?_
    rintro res d' ⟨hframe, hout⟩
    exact hout.written h.idle hframe
  | error e =>
    have hrej : (insertBatchInner cfg m entries).wp v t
        (fun res d' => res = .error e ∧ d' = d) d := by
      apply operation_rejected h.idle.quiescence
      rw [prepareBatch, hes, error_bind, wp_bind, wp_ofExcept, andThen_error]
      exact ⟨rfl, rfl⟩
    refine wp_mono hrej ?_
    rintro res d' ⟨rfl, rfl⟩
    exact .rejected h _

theorem addBatch_written (hr : cfg.Ready) (h : Sound cfg d) (keys : List (List UInt8))
    (hf : v = .fair → m.Enough cfg) : (addBatch cfg m keys).wp v t (Written cfg d) d := by
  rcases requireMode_cases cfg .set "add_batch is available only for sets" with hm | hm
  · rw [addBatch, requireMode_ok hm, wp_bind, wp_ofExcept, andThen_ok]
    exact insertBatchInner_written hr h _ hf
  · rw [addBatch, hm, wp_bind, wp_ofExcept, andThen_error]
    exact .rejected h _

theorem putBatch_written (hr : cfg.Ready) (h : Sound cfg d)
    (entries : List (List UInt8 × List UInt8)) (hf : v = .fair → m.Enough cfg) :
    (putBatch cfg m entries).wp v t (Written cfg d) d := by
  rcases requireMode_cases cfg .map "write_only is available only for maps" with hm | hm
  · rw [putBatch, requireMode_ok hm, wp_bind, wp_ofExcept, andThen_ok]
    exact insertBatchInner_written hr h _ hf
  · rw [putBatch, hm, wp_bind, wp_ofExcept, andThen_error]
    exact .rejected h _

end Writes

section Others

/-- The words of the heads file that no runtime head is stored in are as they were. -/
def HeadsKept (cfg : Config) (f f' : HeadsFile) : Prop :=
  ∀ offset, (∀ b < cfg.bucketCount, offset ≠ headsStart + b * 8) →
    f'.words offset = f.words offset

/-- What a call leaves: a state at rest, with the header and the manifests in place. -/
structure Settled (cfg : Config) (d d' : Db) : Prop where
  sound : Sound cfg d'
  generation : d'.checkpointGeneration = d.checkpointGeneration
  heads : HeadsKept cfg d.headsFile d'.headsFile

theorem Settled.refl (h : Sound cfg d) : Settled cfg d d := ⟨h, rfl, fun _ _ => rfl⟩

theorem Settled.of_frame (hf : Frame d d') (h : Sound cfg d') : Settled cfg d d' := by
  refine ⟨h, ?_, ?_⟩
  · rw [hf]
  · rw [hf]
    exact fun _ _ => rfl

theorem Settled.of_holds {T : Nat → List (Key × List UInt8)} (hi : Idle d) (hf : Frame d d')
    (h : Holds cfg d'.store d'.runtimeHeads T) : Settled cfg d d' :=
  .of_frame hf (.of_holds hi hf h)

theorem Stored.heads {heads : Nat → Nat} {f f' : HeadsFile}
    (h : Stored heads (List.range cfg.bucketCount) f f') : HeadsKept cfg f f' :=
  fun offset hoff => h.others offset fun b hb => hoff b (List.mem_range.mp hb)

theorem Synced.heads {chains : Nat → List Nat} {res : Except Error Unit}
    (h : Synced cfg v d chains res d') : HeadsKept cfg d.headsFile d'.headsFile := by
  rcases h.outcome with ⟨-, -, -, f, hstored, heq⟩ | ⟨-, -, heq | hstored⟩
  · rw [heq]
    exact hstored.heads
  · rw [heq]
    exact fun _ _ => rfl
  · exact hstored.heads

theorem Sound.refused (h : Sound cfg d) {body : TableM α} {e : Error}
    (hbody : body.wp v t (fun res d' => res = .error e ∧ d' = { d with quiescence := ⟨[t], none⟩ })
      { d with quiescence := ⟨[t], none⟩ }) :
    (operation body).wp v t (fun _ d' => Settled cfg d d') d := by
  refine wp_mono (operation_rejected h.idle.quiescence hbody) ?_
  rintro res d' ⟨-, rfl⟩
  exact .refl h

theorem get_sound (hr : cfg.Ready) (h : Sound cfg d) (key : List UInt8) :
    (get cfg m key).wp .any t (fun _ d' => Settled cfg d d') d := by
  obtain ⟨T, hholds⟩ := h.holds
  rcases requireMode_cases cfg .map "get is available only for maps" with hm | hm
  · rcases validateKey_cases key with ⟨k, rfl⟩ | hk
    · refine wp_mono (get_spec hr h.idle hholds hm k (fun hv => by cases hv)) ?_
      rintro res d' ⟨hframe, -, hheld⟩
      exact .of_holds h.idle hframe hheld
    · apply h.refused
      rw [requireMode_ok hm, hk, wp_bind, wp_ofExcept, andThen_ok, wp_bind, wp_ofExcept,
        andThen_error]
      exact ⟨rfl, rfl⟩
  · apply h.refused
    rw [hm, wp_bind, wp_ofExcept, andThen_error]
    exact ⟨rfl, rfl⟩

theorem contains_sound (hr : cfg.Ready) (h : Sound cfg d) (key : List UInt8) :
    (contains cfg m key).wp .any t (fun _ d' => Settled cfg d d') d := by
  obtain ⟨T, hholds⟩ := h.holds
  rcases validateKey_cases key with ⟨k, rfl⟩ | hk
  · refine wp_mono (contains_spec hr h.idle hholds k (fun hv => by cases hv)) ?_
    rintro res d' ⟨hframe, -, hheld⟩
    exact .of_holds h.idle hframe hheld
  · apply h.refused
    rw [hk, wp_bind, wp_ofExcept, andThen_error]
    exact ⟨rfl, rfl⟩

theorem delete_sound (hr : cfg.Ready) (h : Sound cfg d) (key : List UInt8) :
    (delete cfg m key).wp .any t (fun _ d' => Settled cfg d d') d := by
  obtain ⟨T, hholds⟩ := h.holds
  rcases validateKey_cases key with ⟨k, rfl⟩ | hk
  · refine wp_mono (delete_spec hr h.idle hholds k (fun hv => by cases hv)) ?_
    rintro res d' ⟨hframe, -, hheld⟩
    exact .of_holds h.idle hframe hheld
  · apply h.refused
    rw [hk, wp_bind, wp_ofExcept, andThen_error]
    exact ⟨rfl, rfl⟩

theorem prepareKeys_error {input : List (List UInt8)} {e : Error}
    (h : validateKeys input = .error e) : prepareKeys cfg m input = .error e := by
  rw [prepareKeys, h, error_bind]

theorem batchFetch_sound (hr : cfg.Ready) (h : Sound cfg d) (input : List (List UInt8)) :
    (batchFetch cfg m input).wp .any t (fun _ d' => Settled cfg d d') d := by
  obtain ⟨T, hholds⟩ := h.holds
  rcases requireMode_cases cfg .map "batch_fetch is available only for maps" with hm | hm
  · cases hkeys : validateKeys input with
    | ok keys =>
      refine wp_mono (batchFetch_spec hr h.idle hholds hm hkeys (fun hv => by cases hv)) ?_
      rintro res d' ⟨hframe, -, hheld⟩
      exact .of_holds h.idle hframe hheld
    | error e =>
      apply h.refused
      rw [requireMode_ok hm, prepareKeys_error hkeys, wp_bind, wp_ofExcept, andThen_ok, wp_bind,
        wp_ofExcept, andThen_error]
      exact ⟨rfl, rfl⟩
  · apply h.refused
    rw [hm, wp_bind, wp_ofExcept, andThen_error]
    exact ⟨rfl, rfl⟩

/-- The error of a destructive batch in which a key occurs twice. -/
def duplicateKeys : Error := .invalidConfig "destructive batch keys must be globally unique"

theorem batchDelete_duplicate (hq : d.quiescence = RwLock.free) {input : List (List UInt8)}
    {keys : List Key} (hinput : validateKeys input = .ok keys) (hkeys : ¬keys.Nodup) :
    (batchDelete cfg m input).wp v t (fun res d' => res = .error duplicateKeys ∧ d' = d) d := by
  apply operation_rejected hq
  rw [prepareKeys_eq hinput, wp_bind, wp_ofExcept, andThen_ok,
    validateUniqueBatchKeys_eq (prepared_sorted cfg keys), if_neg hkeys, wp_bind, wp_ofExcept,
    andThen_error]
  exact ⟨rfl, rfl⟩

theorem batchPop_duplicate (hq : d.quiescence = RwLock.free) (hm : cfg.mode = .map)
    {input : List (List UInt8)} {keys : List Key} (hinput : validateKeys input = .ok keys)
    (hkeys : ¬keys.Nodup) :
    (batchPop cfg m input).wp v t (fun res d' => res = .error duplicateKeys ∧ d' = d) d := by
  apply operation_rejected hq
  rw [requireMode_ok hm, wp_bind, wp_ofExcept, andThen_ok, prepareKeys_eq hinput, wp_bind,
    wp_ofExcept, andThen_ok, validateUniqueBatchKeys_eq (prepared_sorted cfg keys), if_neg hkeys,
    wp_bind, wp_ofExcept, andThen_error]
  exact ⟨rfl, rfl⟩

theorem batchDelete_sound (hr : cfg.Ready) (h : Sound cfg d) (input : List (List UInt8)) :
    (batchDelete cfg m input).wp .any t (fun _ d' => Settled cfg d d') d := by
  obtain ⟨T, hholds⟩ := h.holds
  cases hinput : validateKeys input with
  | ok keys =>
    by_cases hkeys : keys.Nodup
    · refine wp_mono (batchDelete_spec hr h.idle hholds hinput hkeys (fun hv => by cases hv)) ?_
      rintro res d' ⟨hframe, -, T', hheld, -⟩
      exact .of_holds h.idle hframe hheld
    · refine wp_mono (batchDelete_duplicate h.idle.quiescence hinput hkeys) ?_
      rintro res d' ⟨-, rfl⟩
      exact .refl h
  | error e =>
    apply h.refused
    rw [prepareKeys_error hinput, wp_bind, wp_ofExcept, andThen_error]
    exact ⟨rfl, rfl⟩

theorem batchPop_sound (hr : cfg.Ready) (h : Sound cfg d) (input : List (List UInt8)) :
    (batchPop cfg m input).wp .any t (fun _ d' => Settled cfg d d') d := by
  obtain ⟨T, hholds⟩ := h.holds
  rcases requireMode_cases cfg .map "batch_pop is available only for maps" with hm | hm
  · cases hinput : validateKeys input with
    | ok keys =>
      by_cases hkeys : keys.Nodup
      · refine wp_mono (batchPop_spec hr h.idle hholds hm hinput hkeys (fun hv => by cases hv)) ?_
        rintro res d' ⟨hframe, -, T', hheld, -⟩
        exact .of_holds h.idle hframe hheld
      · refine wp_mono (batchPop_duplicate h.idle.quiescence hm hinput hkeys) ?_
        rintro res d' ⟨-, rfl⟩
        exact .refl h
    | error e =>
      apply h.refused
      rw [requireMode_ok hm, prepareKeys_error hinput, wp_bind, wp_ofExcept, andThen_ok, wp_bind,
        wp_ofExcept, andThen_error]
      exact ⟨rfl, rfl⟩
  · apply h.refused
    rw [hm, wp_bind, wp_ofExcept, andThen_error]
    exact ⟨rfl, rfl⟩

theorem compact_sound (hr : cfg.Ready) (h : Sound cfg d) (load : Nat) :
    (compact cfg m load).wp .any t (fun _ d' => Settled cfg d d') d := by
  obtain ⟨chains, howned⟩ := h.owned
  by_cases hload : 1 ≤ load ∧ load ≤ cfg.blockSize / nodeSize
  · refine wp_mono (compact_spec hr h.idle howned hload.1 hload.2 (fun hv => by cases hv)) ?_
    rintro res d' ⟨hframe, ⟨chains', hrewritten⟩, -⟩
    exact .of_frame hframe ⟨h.idle.frame hframe, chains', hrewritten.owned⟩
  · refine wp_mono (compact_invalid hload) ?_
    rintro res d' ⟨rfl, -⟩
    exact .refl h

theorem Synced.settled {chains : Nat → List Nat} {res : Except Error Unit} (h : Sound cfg d)
    (hsync : Synced cfg v d chains res d') : Settled cfg d d' := by
  refine ⟨⟨?_, chains, hsync.owned⟩, ?_, hsync.heads⟩
  · rw [hsync.frame]
    exact ⟨h.idle.quiescence, h.idle.locks, h.idle.compaction, h.idle.checkpoint⟩
  · rw [hsync.frame]

theorem sync_sound (hr : cfg.Ready) (h : Sound cfg d) :
    (sync cfg m).wp .any t (fun _ d' => Settled cfg d d') d := by
  obtain ⟨chains, howned⟩ := h.owned
  refine wp_mono (sync_spec hr h.idle howned (fun hv => by cases hv)) ?_
  intro res d' hsync
  exact hsync.settled h

/-- Every call leaves a state at rest, whatever it was given and whatever it returned. -/
theorem Op.sound (hr : cfg.Ready) (h : Sound cfg d) (op : Op) :
    (op.program cfg m).wp .any t (fun _ d' => Settled cfg d d') d := by
  have hdrop : ∀ {α : Type} {p : TableM α}, p.wp .any t (fun _ d' => Settled cfg d d') d →
      (p >>= fun _ => pure ()).wp .any t (fun _ d' => Settled cfg d d') d := by
    intro α p hp
    refine wp_seq hp ?_
    intro res d' hd'
    cases res with
    | ok a => exact hd'
    | error e => exact hd'
  have hwrite : ∀ {α : Type} {p : TableM α}, p.wp .any t (Written cfg d) d →
      p.wp .any t (fun _ d' => Settled cfg d d') d := by
    intro α p hp
    exact wp_mono hp fun res d' hw => .of_frame hw.frame hw.sound
  cases op with
  | add key => exact hdrop (hwrite (add_written hr h key (fun hv => by cases hv)))
  | addBatch keys => exact hdrop (hwrite (addBatch_written hr h keys (fun hv => by cases hv)))
  | put key value => exact hdrop (hwrite (put_written hr h key value (fun hv => by cases hv)))
  | putNew key value => exact hdrop (hwrite (putNew_written hr h key value (fun hv => by cases hv)))
  | putBatch entries =>
    exact hdrop (hwrite (putBatch_written hr h entries (fun hv => by cases hv)))
  | get key => exact hdrop (get_sound hr h key)
  | contains key => exact hdrop (contains_sound hr h key)
  | batchFetch keys => exact hdrop (batchFetch_sound hr h keys)
  | delete key => exact hdrop (delete_sound hr h key)
  | batchDelete keys => exact hdrop (batchDelete_sound hr h keys)
  | batchPop keys => exact hdrop (batchPop_sound hr h keys)
  | compact load => exact hdrop (compact_sound hr h load)
  | sync => exact sync_sound hr h

end Others

end FlorestaDb
