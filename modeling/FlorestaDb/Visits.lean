import FlorestaDb.Headroom
import FlorestaDb.Stamped

/-! The states of a directory and of the handle that is open on it, between the calls of one
thread, and the room that checkpoints and recoveries find in them. -/
namespace FlorestaDb
open Program Program.Prog Allocator Chain

variable {cfg : Config} {m : Machine} {t : Tid} {w w' : Disk} {bank : Nat}

/-- How a handle came into being. -/
inductive Origin where
  | created
  | recovered
  | reopened

/- The directory with its handle: created, opened from its snapshots whatever they hold, or
   opened again after a clean close, with a larger body if one was asked for, and then called any
   number of times, whatever the calls and checkpoints returned. -/
inductive Visited : Config → Origin → Disk → Prop where
  | create {cfg : Config} {d : Db} (banks : Nat → Bank) (h : Db.create cfg = .ok d) :
      Visited cfg .created ⟨d, banks⟩
  | openDatabase {cfg : Config} {w w' : Disk} {m : Machine} {t : Tid} {length : Nat}
      (step : (FlorestaDb.openDatabase m length).Returns t w (.ok cfg) w') : Visited cfg .recovered w'
  | openRuntime {cfg : Config} {o : Origin} {w : Disk} {d₁ d₂ : Db} {m : Machine} {t : Tid}
      (h : Visited cfg o w) (step : (close cfg m).Returns t w.db (.ok ()) d₁)
      (opened : FlorestaDb.openRuntime (d₁.directory cfg) = .ok (cfg, d₂)) :
      Visited cfg .reopened { w with db := d₂ }
  | openWidened {cfg cfg' : Config} {o : Origin} {w : Disk} {d₁ d₂ : Db} {dir : Directory} {m : Machine}
      {t : Tid} {headroom : Nat} {flushed : Bool} {res : Except Error Bool}
      (h : Visited cfg o w) (step : (close cfg m).Returns t w.db (.ok ()) d₁)
      (widened : ensureRuntimeBodyHeadroom (d₁.directory cfg) headroom flushed = (res, dir))
      (opened : FlorestaDb.openRuntime dir = .ok (cfg', d₂)) :
      Visited cfg' .reopened { w with db := d₂ }
  | call {cfg : Config} {o : Origin} {w : Disk} {d : Db} {m : Machine} {t : Tid} {res : Except Error Unit}
      (op : Op) (h : Visited cfg o w) (step : (op.program cfg m).Returns t w.db res d) :
      Visited cfg o { w with db := d }
  | checkpoint {cfg : Config} {o : Origin} {w w' : Disk} {m : Machine} {t : Tid} {res : Except Error Nat}
      (h : Visited cfg o w) (step : (checkpoint cfg m).Returns t w res w') : Visited cfg o w'

/-- What is known of a handle at rest on a directory. -/
structure Station (cfg : Config) (w : Disk) : Prop where
  accepted : cfg.Accepted
  sound : Sound cfg w.db
  config : readConfig w.db.headsFile = .ok cfg

theorem Station.owned (h : Station cfg w) :
    ∃ chains, Owned cfg w.db.store w.db.runtimeHeads chains ∅ ∅ ∅ := h.sound.owned

section Words
variable {f f' : HeadsFile}

theorem HeadsKept.config (h : HeadsKept cfg f f') : readConfig f' = readConfig f := by
  apply readConfig_words
  intro i hi
  apply h
  intro b _
  have hstart : headsStart = 65536 := rfl
  omega

theorem HeadsKept.manifest (h : HeadsKept cfg f f') (hbank : bank ≤ 1) :
    readManifest f' bank = readManifest f bank := by
  apply Mapped.readManifest_words
  intro i hi
  apply h
  intro b _
  have hstart : headsStart = 65536 := rfl
  omega

/-- The header lies before the manifests and the roots. -/
theorem not_ofBank_header (ha : cfg.Accepted) {offset : Nat} (hlt : offset < manifestBase) :
    ¬OfBank cfg bank offset := by
  have hbase : manifestBase = 128 := rfl
  have hstart : headsStart = 65536 := rfl
  intro h
  cases h with
  | inl hmanifest =>
    rw [hbase] at hmanifest
    omega
  | inr hroot =>
    obtain ⟨b, hb⟩ := hroot
    have hbehind := (rootOffset_behind ha hb).1
    omega

/-- The manifest of one bank is not part of the other. -/
theorem not_ofBank_manifest (ha : cfg.Accepted) {bank' i : Nat} (hbank : bank ≤ 1) (hne : bank ≠ bank')
    (hi : i < 5) : ¬OfBank cfg bank' (128 + bank * 64 + i * 8) := by
  have hbase : manifestBase = 128 := rfl
  have hstride : manifestStride = 64 := rfl
  have hstart : headsStart = 65536 := rfl
  intro h
  cases h with
  | inl hmanifest =>
    rw [hbase, hstride] at hmanifest
    omega
  | inr hroot =>
    obtain ⟨b, hb⟩ := hroot
    have hbehind := (rootOffset_behind ha hb).1
    omega

theorem BankOnly.config (ha : cfg.Accepted) (h : BankOnly cfg bank w w') :
    readConfig w'.db.headsFile = readConfig w.db.headsFile := by
  apply readConfig_words
  intro i hi
  apply h.words
  apply not_ofBank_header ha
  have hbase : manifestBase = 128 := rfl
  omega

theorem BankOnly.manifest (ha : cfg.Accepted) {bank' : Nat} (h : BankOnly cfg bank' w w')
    (hbank : bank ≤ 1) (hne : bank ≠ bank') :
    readManifest w'.db.headsFile bank = readManifest w.db.headsFile bank := by
  apply Mapped.readManifest_words
  intro i hi
  exact h.words _ (not_ofBank_manifest ha hbank hne hi)

end Words

section Steps

theorem Station.settled (h : Station cfg w) {d : Db} (hs : Settled cfg w.db d) :
    Station cfg { w with db := d } :=
  ⟨h.accepted, hs.sound, hs.heads.config.trans h.config⟩

theorem Stamped.idle {r : Except Error Nat} (h : Stamped cfg w r w') (hi : Idle w.db) : Idle w'.db := by
  have hdb : w'.db = { w.db with
      headsFile := w'.db.headsFile, checkpointGeneration := w'.db.checkpointGeneration } := by
    have hat := h.confined.db
    exact congrArg (fun d : Db => { d with checkpointGeneration := w'.db.checkpointGeneration }) hat
  rw [hdb]
  exact ⟨hi.quiescence, hi.locks, hi.compaction, hi.checkpoint⟩

theorem Stamped.runtime {r : Except Error Nat} (h : Stamped cfg w r w') :
    w'.db.store = w.db.store ∧ w'.db.runtimeHeads = w.db.runtimeHeads := h.confined.runtime

theorem Station.stamped (h : Station cfg w) {r : Except Error Nat} (hs : Stamped cfg w r w') :
    Station cfg w' := by
  refine ⟨h.accepted, ⟨hs.idle h.sound.idle, ?_⟩, ?_⟩
  · rw [hs.runtime.1, hs.runtime.2]
    exact h.sound.owned
  · exact (hs.confined.config h.accepted).trans h.config

theorem Station.checkpoint (h : Station cfg w) {chains : Nat → List Nat} {fits : Prop}
    (howned : Owned cfg w.db.store w.db.runtimeHeads chains ∅ ∅ ∅)
    (hroom : fits → Roomy cfg w.db.store (reachableNodes cfg chains) (reachableNodes cfg chains).length)
    {res : Except Error Nat} (step : (checkpoint cfg m).Returns t w res w') :
    Answered cfg chains fits w res w' :=
  post_of_returnsAmid (checkpoint_answers h.accepted h.sound.idle howned hroom)
    (returnsAmid_of_returns (R := Alone) (fun _ => rfl) step)

theorem Roused.station {length : Nat} (h : Roused cfg length w w') : Station cfg w' := by
  obtain ⟨T, chains, howned, -⟩ := h.woken.holds
  exact ⟨h.accepted, ⟨h.woken.idle, chains, howned⟩, by rw [h.retained.headsFile, h.config]⟩

theorem Station.closed (h : Station cfg w) {d₁ : Db} (step : (close cfg m).Returns t w.db (.ok ()) d₁) :
    ∃ chains, Synced cfg .any w.db chains (.ok ()) d₁ ∧ Closed cfg d₁ chains := by
  obtain ⟨chains, howned⟩ := h.owned
  have hsync := post_of_returns (sync_spec h.accepted.ready h.sound.idle howned (fun hv => by cases hv)) step
  exact ⟨chains, hsync, hsync.closed h.config⟩

theorem Reopened.station {chains : Nat → List Nat} {d₁ d₂ : Db} (ha : cfg.Accepted)
    (hc : Closed cfg d₁ chains) (h : Reopened cfg d₁ chains d₂) (banks : Nat → Bank) :
    Station cfg ⟨d₂, banks⟩ :=
  ⟨ha, ⟨h.idle, chains, h.owned⟩, by rw [h.headsFile, hc.config]⟩

/-- `open_runtime` on closed files, and what it returns. -/
theorem Closed.reopened {chains : Nat → List Nat} {d₁ d₂ : Db} (ha : cfg.Accepted)
    (hc : Closed cfg d₁ chains) (opened : openRuntime (d₁.directory cfg) = .ok (cfg, d₂)) :
    Reopened cfg d₁ chains d₂ := by
  obtain ⟨d, hopen, hre⟩ := openRuntime_ok ha hc
  obtain ⟨-, rfl⟩ := Prod.mk.inj (Except.ok.inj (hopen.symm.trans opened))
  exact hre

theorem Station.reopened (h : Station cfg w) {d₁ d₂ : Db} (step : (close cfg m).Returns t w.db (.ok ()) d₁)
    (opened : openRuntime (d₁.directory cfg) = .ok (cfg, d₂)) :
    ∃ chains, Synced cfg .any w.db chains (.ok ()) d₁ ∧ Reopened cfg d₁ chains d₂ ∧
      Station cfg { w with db := d₂ } := by
  obtain ⟨chains, hsync, hc⟩ := h.closed step
  have hre := hc.reopened h.accepted opened
  exact ⟨chains, hsync, hre, hre.station h.accepted hc w.banks⟩

theorem Visited.station {o : Origin} (h : Visited cfg o w) : Station cfg w := by
  induction h with
  | create banks hcreate =>
    have ha := create_accepted hcreate
    obtain ⟨-, rfl⟩ := create_eq hcreate
    obtain ⟨chains, howned, -⟩ := holds_fresh _
    exact ⟨ha, ⟨idle_fresh _ _, chains, howned⟩, readConfig_header ha
      ( headerOf_initialize _ _)⟩
  | openDatabase step => exact ((post_of_returns openDatabase_any step).2 _ rfl).station
  | openRuntime _ step opened ih =>
    obtain ⟨chains, -, -, hstation⟩ := ih.reopened step opened
    exact hstation
  | openWidened _ step widened opened ih =>
    obtain ⟨chains, -, hc⟩ := ih.closed step
    obtain ⟨f, ha, hc', rfl⟩ := hc.widened ih.accepted widened opened
    exact (hc'.reopened ha opened).station ha hc' _
  | call op _ step ih =>
    exact ih.settled (post_of_returns (op.sound ih.accepted.ready ih.sound) step)
  | checkpoint _ step ih =>
    obtain ⟨chains, howned⟩ := ih.owned
    have hanswered : Answered _ chains False _ _ _ := ih.checkpoint howned (fun hf => hf.elim) step
    exact ih.stamped hanswered.stamped

end Steps

end FlorestaDb
