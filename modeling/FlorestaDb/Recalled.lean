import FlorestaDb.Lifetimes

/-! A checkpoint and the `open` that finds it: the newest value of every key comes back, and the
calls in between do not matter. -/
namespace FlorestaDb
open Program Program.Prog Allocator Chain

variable {cfg : Config} {m : Machine} {t : Tid} {w w₁ w₂ : Disk} {generation : Nat}

section Generations

/- No manifest in the bank of the newest generation is newer than the handle knows. The other
   bank is the next to be written, so what it names does not matter. -/
def Abreast (w : Disk) : Prop :=
  ∀ manifest, readManifest w.db.headsFile (w.db.checkpointGeneration % 2) = some manifest →
    manifest.generation ≤ w.db.checkpointGeneration

/-- A new heads file names no snapshot. -/
theorem readManifest_fresh (cfg : Config) (bank : Nat) :
    readManifest (initializeHeader HeadsFile.zero cfg) bank = none := by
  apply readManifest_none
  refine writeWords_other ?_
  intro i hi
  have hlen : (headerWords cfg ++ [headerChecksum (headerWords cfg)]).length = 13 := rfl
  have hbase : manifestBase = 128 := rfl
  omega

theorem readManifest_of_mem {f : HeadsFile} {x : Manifest} (h : x ∈ readManifests f) :
    ∃ bank ≤ 1, readManifest f bank = some x := by
  cases mem_readManifests.mp h with
  | inl hzero => exact ⟨0, Nat.zero_le 1, hzero⟩
  | inr hone => exact ⟨1, Nat.le_refl 1, hone⟩

theorem mem_of_readManifest {f : HeadsFile} {x : Manifest} {bank : Nat} (hbank : bank ≤ 1)
    (h : readManifest f bank = some x) : x ∈ readManifests f := by
  apply mem_readManifests.mpr
  cases Nat.le_one_iff_eq_zero_or_eq_one.mp hbank with
  | inl hzero => exact Or.inl (hzero ▸ h)
  | inr hone => exact Or.inr (hone ▸ h)

theorem HeadsKept.manifests {f f' : HeadsFile} (h : HeadsKept cfg f f') : readManifests f' = readManifests f := by
  rw [readManifests, readManifests, h.manifest (Nat.zero_le 1), h.manifest (Nat.le_refl 1)]

theorem Abreast.settled (h : Abreast w) {d : Db} (hs : Settled cfg w.db d) : Abreast { w with db := d } := by
  intro manifest hread
  have hsame := hs.heads.manifest (parity_le w.db.checkpointGeneration)
  have hgen : d.checkpointGeneration = w.db.checkpointGeneration := hs.generation
  simp only [hgen] at hread ⊢
  exact h manifest (hsame ▸ hread)

/-- The bank that a checkpoint writes is not the one of the handle's generation. -/
theorem generation_ne_nextBank (w : Disk) : w.db.checkpointGeneration % 2 ≠ nextBank w := by
  rw [nextBank]
  omega

theorem Stamped.manifest (ha : cfg.Accepted) {r : Except Error Nat} (h : Stamped cfg w r w₁) {bank : Nat}
    (hbank : bank ≤ 1) (hne : bank ≠ nextBank w) :
    readManifest w₁.db.headsFile bank = readManifest w.db.headsFile bank := by
  have hsame := h.confined.manifest ha hbank hne
  exact hsame

theorem Abreast.answered (ha : cfg.Accepted) (h : Abreast w) {chains : Nat → List Nat} {fits : Prop}
    {r : Except Error Nat} (hr : Answered cfg chains fits w r w₁) : Abreast w₁ := by
  intro manifest hread
  cases r with
  | error e =>
    have hgen := hr.stamped.failed e rfl
    rw [hgen] at hread ⊢
    rw [hr.stamped.manifest ha (parity_le _) (generation_ne_nextBank w)] at hread
    exact h manifest hread
  | ok g =>
    have hgen := (hr.stamped.done g rfl).2
    obtain ⟨schains, hrecorded⟩ := hr.ending
    rw [hgen] at hread ⊢
    obtain rfl := Option.some.inj (hrecorded.saved.manifest.symm.trans hread)
    exact Nat.le_refl g

theorem Roused.abreast {length : Nat} (h : Roused cfg length w w₁) : Abreast w₁ := by
  intro manifest hread
  obtain ⟨opened, hmem, hgen⟩ := h.woken.generation
  rw [h.retained.headsFile, hgen] at hread
  have hopened : readManifest w.db.headsFile (opened.generation % 2) = some opened := by
    cases mem_readManifests.mp hmem with
    | inl hzero => exact (readManifest_bank hzero).2.symm ▸ hzero
    | inr hone => exact (readManifest_bank hone).2.symm ▸ hone
  obtain rfl := Option.some.inj (hopened.symm.trans hread)
  exact hgen.ge

/-- A handle from `create` or `open` knows the newest generation of its bank. -/
theorem Visited.abreast {o : Origin} (h : Visited cfg o w) (ho : o ≠ .reopened) : Abreast w := by
  induction h with
  | @create cfg d banks hcreate =>
    obtain ⟨-, rfl⟩ := create_eq hcreate
    intro manifest hread
    have hnone : readManifest (initializeHeader HeadsFile.zero cfg) 0 = some manifest := hread
    rw [readManifest_fresh] at hnone
    cases hnone
  | openDatabase step => exact ((post_of_returns openDatabase_any step).2 _ rfl).abreast
  | openRuntime _ _ _ _ => exact absurd rfl ho
  | openWidened _ _ _ _ _ => exact absurd rfl ho
  | call op hvisited step ih =>
    have hstation := hvisited.station
    exact (ih ho).settled (post_of_returns (op.sound hstation.accepted.ready hstation.sound) step)
  | checkpoint hvisited step ih =>
    have hstation := hvisited.station
    obtain ⟨chains, howned⟩ := hstation.owned
    have hanswered : Answered _ chains False _ _ _ := hstation.checkpoint howned (fun hf => hf.elim) step
    exact (ih ho).answered hstation.accepted hanswered

end Generations

section Afterwards

/-- Calls on the handle and clean reopenings, one after the other, without a checkpoint. -/
inductive Later (cfg : Config) (w : Disk) : Disk → Prop where
  | refl : Later cfg w w
  | call {w₁ : Disk} {d : Db} {m : Machine} {t : Tid} {res : Except Error Unit} (op : Op)
      (h : Later cfg w w₁) (step : (op.program cfg m).Returns t w₁.db res d) :
      Later cfg w { w₁ with db := d }
  | openRuntime {w₁ : Disk} {d₁ d₂ : Db} {m : Machine} {t : Tid} (h : Later cfg w w₁)
      (step : (close cfg m).Returns t w₁.db (.ok ()) d₁)
      (opened : FlorestaDb.openRuntime (d₁.directory cfg) = .ok (cfg, d₂)) :
      Later cfg w { w₁ with db := d₂ }

/-- The snapshots, their roots and their manifests are as they were. -/
structure SnapshotsKept (cfg : Config) (w w₁ : Disk) : Prop where
  banks : w₁.banks = w.banks
  heads : HeadsKept cfg w.db.headsFile w₁.db.headsFile

theorem SnapshotsKept.trans (h : SnapshotsKept cfg w w₁) (h' : SnapshotsKept cfg w₁ w₂) :
    SnapshotsKept cfg w w₂ :=
  ⟨h'.banks.trans h.banks, fun offset ho => (h'.heads offset ho).trans (h.heads offset ho)⟩

theorem Settled.snapshots {d : Db} (h : Settled cfg w.db d) : SnapshotsKept cfg w { w with db := d } :=
  ⟨rfl, h.heads⟩

theorem Station.reopened_snapshots (h : Station cfg w) {d₁ d₂ : Db}
    (step : (close cfg m).Returns t w.db (.ok ()) d₁)
    (opened : openRuntime (d₁.directory cfg) = .ok (cfg, d₂)) : SnapshotsKept cfg w { w with db := d₂ } := by
  obtain ⟨chains, hsync, hre, -⟩ := h.reopened step opened
  refine ⟨rfl, ?_⟩
  have hheads := hsync.heads
  rw [← hre.headsFile] at hheads
  exact hheads

theorem Later.kept (h : Later cfg w w₁) (hs : Station cfg w) : Station cfg w₁ ∧ SnapshotsKept cfg w w₁ := by
  induction h with
  | refl => exact ⟨hs, rfl, fun _ _ => rfl⟩
  | call op _ step ih =>
    have hsettled := post_of_returns (op.sound ih.1.accepted.ready ih.1.sound) step
    exact ⟨ih.1.settled hsettled, ih.2.trans hsettled.snapshots⟩
  | openRuntime _ step opened ih =>
    obtain ⟨chains, -, -, hstation⟩ := ih.1.reopened step opened
    exact ⟨hstation, ih.2.trans (ih.1.reopened_snapshots step opened)⟩

theorem SnapshotsKept.saved (ha : cfg.Accepted) {schains : Nat → List Nat} (hk : SnapshotsKept cfg w w₁)
    (h : Saved cfg w generation schains) : Saved cfg w₁ generation schains := by
  have hothers : Others cfg w (w₁.at w.db.checkpointGeneration) := ⟨hk.banks, hk.heads, rfl⟩
  exact (h.aside (hothers.aside ha (generation % 2))).same rfl rfl

end Afterwards

section Recall

/-- What is restored from the newest records of a runtime: one value a key. -/
theorem stack_recovered (hv : cfg.Valid) {s : Store} {schains : Nat → List Nat}
    {T : Nat → List (Key × List UInt8)}
    (h : ∀ b < cfg.bucketCount, content cfg s schains b = Buckets.firsts (T b)) :
    Buckets.stack (bucketOf cfg) (recovered cfg s schains) =
      fun k => (Buckets.stack (bucketOf cfg) T k).take 1 := by
  funext k
  have hb := bucketOf_lt hv k
  rw [Buckets.stack, recovered, if_pos hb, h _ hb, Buckets.values_reverse, Buckets.values_firsts,
    Buckets.stack]
  cases Buckets.values (T (bucketOf cfg k)) k with
  | nil => rfl
  | cons v rest => rfl

/-- A saved snapshot that is newer than the other bank is the one `open` takes. -/
theorem Saved.newest (ha : cfg.Accepted) {schains : Nat → List Nat} (h : Saved cfg w generation schains)
    (hall : ∀ x ∈ readManifests w.db.headsFile, x.generation ≤ generation) :
    ∃ s, Restored cfg w generation schains s ∧
      Newest cfg w (savedManifest cfg w generation schains) s schains := by
  obtain ⟨s, hrestored⟩ := h.opens ha
  exact ⟨s, hrestored, mem_of_readManifest (parity_le _) h.manifest, hrestored.opens, fun x hx _ => hall x hx⟩

/-- The open that finds it. -/
theorem Saved.opened (ha : cfg.Accepted) (hconfig : readConfig w.db.headsFile = .ok cfg)
    {schains : Nat → List Nat} (h : Saved cfg w generation schains)
    (hall : ∀ x ∈ readManifests w.db.headsFile, x.generation ≤ generation) :
    ∃ s length, Restored cfg w generation schains s ∧ headsLength cfg.bucketCount = .ok length ∧
      ∀ (m : Machine) (t : Tid), m.Enough cfg → ∃ w', (openDatabase m length).run t w = some (.ok cfg, w') ∧
        Reborn cfg w (savedManifest cfg w generation schains) (recovered cfg s schains) w' := by
  obtain ⟨s, hrestored, hnewest⟩ := h.newest ha hall
  obtain ⟨length, hlength, hmapping⟩ := ha.heads
  refine ⟨s, length, hrestored, hlength, ?_⟩
  intro m t hfuel
  obtain ⟨r, w', hrun, -, hopen⟩ := run_of_wp
    (openDatabase_spec (t := t) hconfig ha.ready.valid hlength hmapping fun _ => hfuel)
  obtain ⟨rfl, hreborn⟩ := hopen _ s schains hnewest hrestored.recoverable rfl
  exact ⟨w', hrun, hreborn⟩

/-- The other bank holds nothing newer. -/
theorem Abreast.newest (ha : cfg.Accepted) (h : Abreast w) {g : Nat} {schains : Nat → List Nat}
    (hr : Stamped cfg w (.ok g) w₁) (hsaved : Saved cfg w₁ g schains) :
    ∀ x ∈ readManifests w₁.db.headsFile, x.generation ≤ g := by
  have hgen := (hr.done g rfl).1
  intro x hx
  obtain ⟨bank, hbank, hread⟩ := readManifest_of_mem hx
  by_cases hnew : bank = g % 2
  · rw [hnew, hsaved.manifest] at hread
    obtain rfl := Option.some.inj hread
    exact Nat.le_refl g
  · have hold : bank = w.db.checkpointGeneration % 2 := by omega
    rw [hold, hr.manifest ha (parity_le _) (generation_ne_nextBank w)] at hread
    have hle := h x hread
    omega

/- After a checkpoint of a database that came from `create` or `open`, and any calls behind it,
   `open` returns the newest value of every key and nothing else, in files that are in order; the
   checkpoint itself leaves the stacks alone. -/
theorem checkpoint_recovered (cfg : Config) {o : Origin} {w w₁ : Disk} (h : Visited cfg o w)
    (ho : o ≠ .reopened) {M : Stacks} (hM : Represents cfg w.db M) {m : Machine} {t : Tid} {g : Nat}
    (step : (checkpoint cfg m).Returns t w (.ok g) w₁) :
    Represents cfg w₁.db M ∧ ∀ w₂, Later cfg w₁ w₂ →
      ∃ length, headsLength cfg.bucketCount = .ok length ∧ ∀ (m' : Machine) (t' : Tid), m'.Enough cfg →
        ∃ w₃, (openDatabase m' length).run t' w₂ = some (.ok cfg, w₃) ∧
          w₃.db.checkpointGeneration = g ∧ (Represents cfg w₃.db fun k => (M k).take 1) ∧
            ∃ chains, Ownership cfg w₃.db chains := by
  have hstation := h.station
  have ha := hstation.accepted
  obtain ⟨T, ⟨chains, howned, rfl⟩, rfl⟩ := hM.holds
  have hanswered : Answered cfg chains False w (.ok g) w₁ :=
    hstation.checkpoint howned (fun hf => hf.elim) step
  have hstamped := hanswered.stamped
  obtain ⟨schains, hrecorded⟩ := hanswered.ending
  have hrepresents : Represents cfg w₁.db (Buckets.stack (bucketOf cfg) (content cfg w.db.store chains)) := by
    obtain ⟨hstore, hheads⟩ := hstamped.runtime
    refine ⟨hstamped.idle hM.idle, _, ⟨chains, ?_, ?_⟩, rfl⟩
    · rw [hstore, hheads]
      exact howned
    · rw [hstore]
  refine ⟨hrepresents, ?_⟩
  intro w₂ hlater
  obtain ⟨hstation₂, hkept⟩ := hlater.kept (hstation.stamped hstamped)
  have hsaved₂ := hkept.saved ha hrecorded.saved
  have hnewest : ∀ x ∈ readManifests w₂.db.headsFile, x.generation ≤ g := by
    rw [hkept.heads.manifests]
    exact (h.abreast ho).newest ha hstamped hrecorded.saved
  obtain ⟨s, length, hrestored, hlength, hopen⟩ := hsaved₂.opened ha hstation₂.config hnewest
  refine ⟨length, hlength, ?_⟩
  intro m' t' hfuel
  obtain ⟨w₃, hrun, hreborn⟩ := hopen m' t' hfuel
  obtain ⟨rchains, hrebuilt, -⟩ := hreborn.holds
  refine ⟨w₃, hrun, hreborn.generation, ⟨hreborn.idle, _, hreborn.holds, ?_⟩, rchains, hrebuilt.ownership ha.ready⟩
  apply stack_recovered ha.ready.valid
  intro b hb
  rw [content_flushed hrestored.flushed, hkept.banks]
  exact hrecorded.newest b hb

theorem Later.calls {ops : List Op} (h : Later cfg w w₁) (hrun : callEach cfg m ops w₁ = some w₂) :
    Later cfg w w₂ := by
  induction ops generalizing w₁ with
  | nil =>
    cases hrun
    exact h
  | cons op ops ih =>
    obtain ⟨x, hx, hrun⟩ := Option.bind_eq_some_iff.mp hrun
    exact ih (h.call op (returns_of_run hx)) hrun

/-- The key with two values is gone when the directory is opened, and comes back with the newer
one. -/
theorem checkpoint_recovered_pages : ∃ w w₁ w₂ w₃ d M rest, Visited Config.pages .created w ∧
    Represents Config.pages w.db M ∧ M (sampleKey 1) = [3] :: sampleWord 1 :: rest ∧
    (checkpoint Config.pages Machine.pages).run 0 w = some (.ok 1, w₁) ∧
    callEach Config.pages Machine.pages laterOps w₁ = some w₂ ∧
    (get Config.pages Machine.pages (sampleKey 1).toList).run 0 w₂.db = some (.ok none, d) ∧
    (openDatabase Machine.pages 262144).run 0 w₂ = some (.ok Config.pages, w₃) ∧
    w₃.db.checkpointGeneration = 1 ∧ (Represents Config.pages w₃.db fun k => (M k).take 1) ∧
    ∃ chains, Ownership Config.pages w₃.db chains := by
  obtain ⟨⟨w, w₁⟩, hfirst, htwo, hlater, -⟩ := firstCheckpoint_runs
  obtain ⟨⟨r, d⟩, htwo, rfl⟩ := Option.map_eq_some_iff.mp htwo
  obtain ⟨w₂, hcalls, hget⟩ := Option.bind_eq_some_iff.mp hlater
  obtain ⟨⟨r, d'⟩, hget, rfl⟩ := Option.map_eq_some_iff.mp hget
  have hvisited := firstCheckpoint_visited hfirst
  have hrun := (checkpointed_steps hfirst).2
  have hsound := hvisited.station.sound
  have hready := hvisited.station.accepted.ready
  obtain ⟨T, hholds⟩ := hsound.holds
  have hM : Represents Config.pages w.db (Buckets.stack (bucketOf Config.pages) T) :=
    ⟨hsound.idle, T, hholds, rfl⟩
  obtain ⟨rest, hrest⟩ := hM.two hready rfl htwo
  have horigin : Origin.created ≠ .reopened := fun heq => by cases heq
  obtain ⟨-, hopen⟩ := checkpoint_recovered Config.pages hvisited horigin hM (returns_of_run hrun)
  obtain ⟨length, hlength, hfuel⟩ := hopen w₂ (Later.refl.calls hcalls)
  have hheads : headsLength Config.pages.bucketCount = .ok 262144 := by decide +kernel
  obtain rfl : length = 262144 := Except.ok.inj (hlength.symm.trans hheads)
  obtain ⟨w₃, hrecovered, hgeneration, hholds⟩ := hfuel Machine.pages 0 enough_pages
  exact ⟨w, w₁, w₂, w₃, d', _, rest, hvisited, hM, hrest, hrun, hcalls, hget, hrecovered, hgeneration, hholds⟩

end Recall

section Validation

/- Whatever the files of a bank hold, the validator returns, and what it accepts can be
   rebuilt; `open` takes the newest generation that it accepts. -/
theorem snapshot_validator_sound (cfg : Config) (hvalid : cfg.validate = .ok ()) (m : Machine)
    (hfuel : m.Enough cfg) (t : Tid) :
    (∀ (w : Disk) (bank : Nat), ∃ r, (snapshotChecksum cfg bank).run t w = some (r, w) ∧
      ∀ c, r = .ok c → ∃ schains, Validated cfg w bank schains ∧
        ∀ b < cfg.bucketCount, ∀ b' < cfg.bucketCount, ∀ o ∈ schains b, ∀ o' ∈ schains b',
          ((w.banks bank).store.slots o).key = ((w.banks bank).store.slots o').key →
            b = b' ∧ o = o') ∧
    (∀ (w : Disk) (bank : Nat) (schains : Nat → List Nat) (f : HeadsFile) (generation : Nat),
      Validated cfg w bank schains → createStore cfg = .ok () → w.db = Db.fresh f generation →
      ∃ r w', (rebuildRuntime cfg m bank).run t w = some (r, w') ∧
        (Recoverable cfg (w.banks bank).store schains → r = .ok ()) ∧
        (∀ e, r = .error e → e.isCapacity = true) ∧
        (r = .ok () → ∃ T, Holds cfg w'.db.store w'.db.runtimeHeads T ∧
          (∀ b < cfg.bucketCount, ∀ o ∈ schains b,
            Buckets.stack (bucketOf cfg) T ((w.banks bank).store.slots o).key =
              [(entryAt cfg (w.banks bank).store o).2]) ∧
          ∀ key, (∀ b < cfg.bucketCount, ∀ o ∈ schains b, ((w.banks bank).store.slots o).key ≠ key) →
            Buckets.stack (bucketOf cfg) T key = [])) ∧
    ∀ (w : Disk) (length : Nat), readConfig w.db.headsFile = .ok cfg →
      ∃ r w', (openDatabase m length).run t w = some (r, w') ∧
        ((∀ x ∈ readManifests w.db.headsFile, ¬∃ s schains, Opens cfg w x s schains) →
          (∃ e, r = .error e) ∧ w'.db = w.db) ∧
        ∀ manifest s schains, headsLength cfg.bucketCount = .ok length →
          validateMappingLength length = .ok () → Newest cfg w manifest s schains →
          Recoverable cfg s schains →
            r = .ok cfg ∧ Reborn cfg w manifest (recovered cfg s schains) w' := by
  have hv := Config.validate_ok hvalid
  refine ⟨?_, ?_, ?_⟩
  · intro w bank
    obtain ⟨r, w', hrun, rfl, hok⟩ := run_of_wp (snapshotChecksum_total (t := t) cfg w bank)
    refine ⟨r, hrun, fun c hc => ?_⟩
    obtain ⟨schains, hval, -⟩ := hok c hc
    exact ⟨schains, hval, fun b hb b' hb' o ho o' ho' hkey => hval.distinct hb hb' ho ho' hkey⟩
  · intro w bank schains f generation hval hcreate hfresh
    have hr : cfg.Ready := ⟨hv, createStore_blob hcreate⟩
    obtain ⟨r, w', hrun, d', rfl, -, hout⟩ :=
      run_of_wp (rebuildRuntime_spec (t := t) hr hval hfresh fun _ => hfuel)
    refine ⟨r, _, hrun, ?_⟩
    rcases hout with ⟨rfl, hholds⟩ | ⟨e, rfl, he, hfits⟩
    · refine ⟨fun _ => rfl, fun e h => (nomatch h), fun _ => ⟨_, hholds, ?_, ?_⟩⟩
      · intro b hb o ho
        exact recovered_found hval hb ho
      · intro key hkey
        exact recovered_absent hkey
    · refine ⟨fun hrec => (nomatch (hfits hrec).1), ?_, fun h => by cases h⟩
      intro e' h
      obtain rfl := Except.error.inj h
      rcases he with hcap | ⟨hany, -⟩
      · exact hcap
      · cases hany
  · intro w length hcfg
    by_cases hgood : headsLength cfg.bucketCount = .ok length ∧ validateMappingLength length = .ok ()
    · obtain ⟨r, w', hrun, hnone, hsome⟩ :=
        run_of_wp (openDatabase_spec (t := t) hcfg hv hgood.1 hgood.2 fun _ => hfuel)
      exact ⟨r, w', hrun, hnone, fun manifest s schains _ _ hnew hrec =>
        hsome manifest s schains hnew hrec rfl⟩
    · have hbad : ∀ cfg', readConfig w.db.headsFile = .ok cfg' →
          headsLength cfg'.bucketCount ≠ .ok length ∨ validateMappingLength length ≠ .ok () := by
        intro cfg' hcfg'
        obtain rfl := Except.ok.inj (hcfg.symm.trans hcfg')
        exact Classical.not_and_iff_not_or_not.mp hgood
      obtain ⟨r, w', hrun, herr, rfl⟩ := run_of_wp (openDatabase_rejected (t := t) (m := m) hbad)
      exact ⟨r, w', hrun, fun _ => ⟨herr, rfl⟩, fun _ _ _ h1 h2 => absurd ⟨h1, h2⟩ hgood⟩

/-- The chain of a bucket that has a root is not empty. -/
theorem Validated.chain_ne_nil {schains : Nat → List Nat} {bank b : Nat} (h : Validated cfg w bank schains)
    (hb : b < cfg.bucketCount) (hroot : snapshotRoot cfg w.db.headsFile bank b ≠ 0) : schains b ≠ [] := by
  intro hnil
  have hchain := (h.chain b (List.mem_range.mpr hb)).chain
  rw [hnil] at hchain
  exact hroot hchain

/-- The snapshot of a checkpoint, with nodes in both buckets. -/
theorem snapshot_validator_sound_pages :
    Config.pages.validate = .ok () ∧ Machine.pages.Enough Config.pages ∧
    ∃ w c schains s w₁ w₂, (snapshotChecksum Config.pages 1).run 0 w = some (.ok c, w) ∧
      (∃ found, Validated Config.pages w 1 found ∧ found 0 ≠ [] ∧ found 1 ≠ []) ∧
      Validated Config.pages (beforeRebuild w 1 s 1) 1 schains ∧ Recoverable Config.pages s schains ∧
      schains 0 ≠ [] ∧ schains 1 ≠ [] ∧
      (rebuildRuntime Config.pages Machine.pages 1).run 0 (beforeRebuild w 1 s 1) = some (.ok (), w₁) ∧
      (∃ T, Holds Config.pages w₁.db.store w₁.db.runtimeHeads T ∧ ∀ b < 2, ∀ o ∈ schains b,
        Buckets.stack (bucketOf Config.pages) T (s.slots o).key = [(entryAt Config.pages s o).2]) ∧
      Newest Config.pages w (savedManifest Config.pages w 1 schains) s schains ∧
      (openDatabase Machine.pages 262144).run 0 w = some (.ok Config.pages, w₂) ∧
      Reborn Config.pages w (savedManifest Config.pages w 1 schains) (recovered Config.pages s schains) w₂ := by
  have hvalid : Config.pages.validate = .ok () := by decide +kernel
  obtain ⟨⟨w₀, w⟩, hfirst, -, -, hroot₀, hroot₁⟩ := firstCheckpoint_runs
  have hvisited := firstCheckpoint_visited hfirst
  have hrun := (checkpointed_steps hfirst).2
  have hstation := hvisited.station
  have ha := hstation.accepted
  obtain ⟨chains, howned⟩ := hstation.owned
  have hanswered : Answered Config.pages chains False w₀ (.ok 1) w :=
    hstation.checkpoint howned (fun hf => hf.elim) (returns_of_run hrun)
  obtain ⟨schains, hrecorded⟩ := hanswered.ending
  have hsaved := hrecorded.saved
  have hconfig := (hstation.stamped hanswered.stamped).config
  have hall := (hvisited.abreast (fun heq => by cases heq)).newest ha hanswered.stamped hsaved
  obtain ⟨s, hrestored, hnewest⟩ := hsaved.newest ha hall
  obtain ⟨hchecks, hrebuilds, hopens⟩ :=
    snapshot_validator_sound Config.pages hvalid Machine.pages enough_pages 0
  -- the validator accepts the bank
  obtain ⟨r, hsum, hfound⟩ := hchecks w 1
  have hsum' : (snapshotChecksum Config.pages 1).wp .fair 0 (fun r _ => ∃ c, r = .ok c) w :=
    (snapshotChecksum_ok hsaved.validated).mpr ⟨_, rfl⟩
  obtain ⟨r', w', hrun', c, rfl⟩ := run_of_wp hsum'
  obtain ⟨rfl, -⟩ := Prod.mk.inj (Option.some.inj (hsum.symm.trans hrun'))
  obtain ⟨found, hval, -⟩ := hfound c rfl
  -- it is rebuilt
  have hhere : ((beforeRebuild w 1 s 1).banks 1).store = s := w.store_setStore (.bank 1) s
  have hbefore : Validated Config.pages (beforeRebuild w 1 s 1) 1 schains :=
    ⟨hrestored.opens.validated.root, hrestored.opens.validated.chain⟩
  obtain ⟨r, w₁, hrebuild, hroom, -, hholds⟩ := hrebuilds _ 1 schains _ 1 hbefore rfl rfl
  rw [hhere] at hroom hholds
  obtain rfl := hroom hrestored.recoverable
  obtain ⟨T, hT, hstacks, -⟩ := hholds rfl
  -- and `open` takes it
  have hlength : headsLength Config.pages.bucketCount = .ok 262144 := by decide +kernel
  obtain ⟨r, w₂, hopen, -, htakes⟩ := hopens w 262144 hconfig
  obtain ⟨rfl, hreborn⟩ := htakes _ s schains hlength (by decide +kernel) hnewest hrestored.recoverable
  exact ⟨hvalid, enough_pages, w, c, schains, s, w₁, w₂, hsum,
    ⟨found, hval, hval.chain_ne_nil (by decide) hroot₀, hval.chain_ne_nil (by decide) hroot₁⟩, hbefore,
    hrestored.recoverable, hsaved.validated.chain_ne_nil (by decide) hroot₀,
    hsaved.validated.chain_ne_nil (by decide) hroot₁, hrebuild, ⟨T, hT, hstacks⟩, hnewest, hopen, hreborn⟩

end Validation

section Room

/-- No value that is reachable from a head is in a blob. -/
def Inline (w : Disk) : Prop :=
  ∀ b l, IsChain w.db.store.next (w.db.runtimeHeads b) l → ∀ o ∈ l, isBlob (w.db.store.slots o).value = false

theorem Inline.roomy (hi : Inline w) (hv : cfg.Valid) {chains : Nat → List Nat}
    (h : Owned cfg w.db.store w.db.runtimeHeads chains ∅ ∅ ∅) :
    Roomy cfg w.db.store (reachableNodes cfg chains) (reachableNodes cfg chains).length := by
  apply h.roomy hv
  intro o ho
  obtain ⟨b, -, hb⟩ := List.mem_flatMap.mp ho
  exact hi b (chains b) (h.chain b) o hb

/-- The only space a checkpoint can run out of is that of the generations. -/
theorem Excused.area_eq {area : String} (h : Excused True (.capacityExhausted area)) :
    area = "checkpoint generation" := by
  cases h with
  | inl heq => exact Error.capacityExhausted.inj heq
  | inr hdeclined =>
    cases hdeclined with
    | inl hio => cases hio
    | inr hcapacity => exact absurd trivial hcapacity.2

/- A checkpoint that succeeded among other calls, however often its buckets were copied again,
   can be rebuilt into empty runtime files; and without blob values a checkpoint finds room for
   its copies. -/
theorem recovery_fits (cfg : Config) (ha : cfg.Accepted) :
    (∀ (m : Machine) (t : Tid) (w w' : Disk) (g : Nat),
      (checkpoint cfg m).ReturnsAmid (Others cfg) t w (.ok g) w' →
        ∃ s, openStore cfg (w'.banks (g % 2)).store = .ok s ∧
          ∀ (m' : Machine) (t' : Tid) (generation : Nat),
            (∀ r w'', (rebuildRuntime cfg m' (g % 2)).Returns t' (beforeRebuild w' (g % 2) s generation) r w'' →
              r = .ok () ∨ r = .error .io) ∧
            (m'.Enough cfg → ∃ w'', (rebuildRuntime cfg m' (g % 2)).run t'
              (beforeRebuild w' (g % 2) s generation) = some (.ok (), w''))) ∧
    ∀ (o : Origin) (w : Disk), Visited cfg o w → Inline w →
      ∀ (m : Machine) (t : Tid) (w' : Disk) (area : String),
        ((checkpointInner cfg m).Returns t w (.error (.capacityExhausted area)) w' →
          area = "checkpoint generation") ∧
        ((checkpoint cfg m).Returns t w (.error (.capacityExhausted area)) w' →
          area = "checkpoint generation") := by
  refine ⟨?_, ?_⟩
  · intro m t w w' g hcheckpoint
    obtain ⟨-, -, schains, hsaved⟩ := post_of_returnsAmid (checkpoint_amid ha) hcheckpoint g rfl
    obtain ⟨s, hrestored⟩ := hsaved.opens ha
    refine ⟨s, hrestored.opens.store, ?_⟩
    intro m' t' generation
    refine ⟨?_, ?_⟩
    · intro r w'' hreturns
      have hout := post_of_returns (hrestored.rebuilds ha generation (fun hv => by cases hv)) hreturns
      cases hout with
      | inl hok => exact Or.inl hok
      | inr hio => exact Or.inr hio.2
    · intro henough
      obtain ⟨r, w'', hrun, hout⟩ := run_of_wp (hrestored.rebuilds ha generation fun _ => henough)
      cases hout with
      | inl hok => exact ⟨w'', hok ▸ hrun⟩
      | inr hio => cases hio.1
  · intro o w hvisited hinline m t w' area
    have hstation := hvisited.station
    obtain ⟨chains, howned⟩ := hstation.owned
    have hroom : True → Roomy cfg w.db.store (reachableNodes cfg chains) (reachableNodes cfg chains).length :=
      fun _ => hinline.roomy ha.ready.valid howned
    refine ⟨?_, ?_⟩
    · intro hreturns
      have hout := post_of_returnsAmid (checkpointInner_alone ha howned hroom)
        (returnsAmid_of_returns (R := Alone) (fun _ => rfl) hreturns)
      exact Excused.area_eq hout
    · intro hreturns
      exact Excused.area_eq (hstation.checkpoint howned hroom hreturns).ending

/-- The values of the live nodes are those that can be reachable. -/
theorem Station.inline (h : Station cfg w)
    (hlive : ∀ x ∈ w.db.store.body.live, isBlob (w.db.store.slots x.offset).value = false) : Inline w := by
  obtain ⟨chains, howned⟩ := h.owned
  intro b l hchain o ho
  rw [hchain.unique (howned.chain b)] at ho
  exact hlive (nodeAlloc cfg o) ((howned.heap.live_iff _).mpr (.inl ⟨o, mem_nodesOf ho, rfl⟩))

/-- Two values of one key, one of another that is removed, and one in the place it left. -/
def inlineOps : List Op :=
  [appendOp (sampleKey 1) (sampleWord 1), appendOp (sampleKey 2) (sampleWord 2),
    appendOp (sampleKey 1) (sampleWord 3), .delete (sampleKey 2).toList, appendOp (sampleKey 3) (sampleWord 4)]

theorem inline_runs : ∃ w, callEach Config.pages Machine.pages inlineOps
      (Disk.created (Db.fresh (initializeHeader HeadsFile.zero Config.pages) 0)) = some w ∧
    w.db.store.body.live.length = 3 ∧
    ∀ x ∈ w.db.store.body.live, isBlob (w.db.store.slots x.offset).value = false := by
  rw [← exists_any]
  decide +kernel

/-- The first snapshot, with blobs and nodes of both buckets, is rebuilt; and there is room to
capture three nodes. -/
theorem recovery_fits_pages : Config.pages.Accepted ∧
    (∃ w w₁ s w₂, Visited Config.pages .created w ∧
      (checkpoint Config.pages Machine.pages).ReturnsAmid (Others Config.pages) 0 w (.ok 1) w₁ ∧
      snapshotRoot Config.pages w₁.db.headsFile 1 0 ≠ 0 ∧ snapshotRoot Config.pages w₁.db.headsFile 1 1 ≠ 0 ∧
      openStore Config.pages (w₁.banks 1).store = .ok s ∧
      (rebuildRuntime Config.pages Machine.pages 1).run 0 (beforeRebuild w₁ 1 s 1) = some (.ok (), w₂)) ∧
    ∃ w, Visited Config.pages .created w ∧ Inline w ∧ w.db.store.body.live.length = 3 ∧
      ∀ w' area, (checkpointInner Config.pages Machine.pages).Returns 0 w (.error (.capacityExhausted area)) w' →
        area = "checkpoint generation" := by
  obtain ⟨⟨w, w₁⟩, hfirst, -, -, hroot₀, hroot₁⟩ := firstCheckpoint_runs
  have hvisited := firstCheckpoint_visited hfirst
  have ha := hvisited.station.accepted
  obtain ⟨hrebuilds, hcaptures⟩ := recovery_fits Config.pages ha
  have hamid := returnsAmid_of_returns (fun w => Others.refl Config.pages w)
    (returns_of_run (checkpointed_steps hfirst).2)
  obtain ⟨s, hopen, hrebuild⟩ := hrebuilds Machine.pages 0 _ w₁ 1 hamid
  obtain ⟨w₂, hrun⟩ := (hrebuild Machine.pages 0 1).2 enough_pages
  obtain ⟨w₃, hcalls, hthree, hlive⟩ := inline_runs
  have hinline := (Visited.create _ create_pages).calls hcalls
  have hroom := hinline.station.inline hlive
  exact ⟨ha, ⟨w, w₁, s, w₂, hvisited, hamid, hroot₀, hroot₁, hopen, hrun⟩, w₃, hinline, hroom, hthree,
    fun w' area => (hcaptures _ w₃ hinline hroom Machine.pages 0 w' area).1⟩

end Room

end FlorestaDb
