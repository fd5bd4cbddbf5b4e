import FlorestaDb.Histories

/-! Where the contents of an opened database come from: along any history of a directory, every
valid manifest is that of a checkpoint that completed, and its snapshot holds the newest records of
the runtime at that call. -/
namespace FlorestaDb
open Program Program.Prog Allocator Chain

variable {cfg : Config} {m : Machine} {t : Tid} {w w' w₁ before after : Disk} {x : Manifest}

section Sources
variable {generation : Nat} {schains : Nat → List Nat}

/-- The snapshot of a generation, and the records that a runtime with the bucket contents `T` had. -/
structure Archived (cfg : Config) (T : Nat → List (Key × List UInt8)) (generation : Nat) (w : Disk) :
    Prop where
  saved : ∃ schains, Saved cfg w generation schains ∧ ∀ b < cfg.bucketCount,
    content cfg (w.banks (generation % 2)).store schains b = Buckets.firsts (T b)

variable {T : Nat → List (Key × List UInt8)}

theorem Archived.transfer (h : Archived cfg T generation w)
    (hsaved : ∀ schains, Saved cfg w generation schains → Saved cfg w' generation schains)
    (hcontent : ∀ schains, Saved cfg w generation schains →
      content cfg (w'.banks (generation % 2)).store schains =
        content cfg (w.banks (generation % 2)).store schains) : Archived cfg T generation w' := by
  obtain ⟨schains, hhere, hnewest⟩ := h.saved
  refine ⟨schains, hsaved schains hhere, ?_⟩
  intro b hb
  rw [hcontent schains hhere]
  exact hnewest b hb

theorem Archived.kept (ha : cfg.Accepted) (h : Archived cfg T generation w) (hk : SnapshotsKept cfg w w') :
    Archived cfg T generation w' :=
  h.transfer (fun _ hsaved => hk.saved ha hsaved) fun _ _ => by rw [hk.banks]

theorem Archived.confined (ha : cfg.Accepted) (h : Archived cfg T generation w)
    {result : Except Error Nat} (hst : Stamped cfg w result w') (hne : generation % 2 ≠ nextBank w) :
    Archived cfg T generation w' := by
  have hbanks : (w'.banks (generation % 2)).store = (w.banks (generation % 2)).store :=
    (hst.confined.banks _ hne).1
  refine h.transfer ?_ fun schains _ => by rw [hbanks]
  intro schains hsaved
  exact (hsaved.confined ha hst.confined (nextBank_le w) hne).same rfl rfl

/-- An open may leave the allocators of a bank opened; the records stay. -/
theorem Archived.retained (ha : cfg.Accepted) (h : Archived cfg T generation w) (hr : Retained cfg w w') :
    Archived cfg T generation w' := by
  apply h.transfer
  · intro schains hsaved
    exact hsaved.retained ha hr
  · intro schains hsaved
    cases hr.banks (generation % 2) with
    | inl hsame => rw [hsame]
    | inr hopened =>
      obtain ⟨s, hopen, hbank⟩ := hopened
      obtain ⟨s', hrestored⟩ := hsaved.opens ha
      obtain rfl := Except.ok.inj (hopen.symm.trans hrestored.opens.store)
      rw [hbank]
      exact content_flushed hrestored.flushed schains

/-- What an archived snapshot is rebuilt to: the newest value of every key. -/
theorem Archived.stack (hv : cfg.Valid) (ha : cfg.Accepted) (h : Archived cfg T x.generation w)
    (hx : x ∈ readManifests w.db.headsFile) {s : Store} (hopens : Opens cfg w x s schains) :
    Buckets.stack (bucketOf cfg) (recovered cfg s schains) =
      fun k => (Buckets.stack (bucketOf cfg) T k).take 1 := by
  obtain ⟨schains', hsaved, hnewest⟩ := h.saved
  obtain ⟨s', hrestored⟩ := hsaved.opens ha
  obtain ⟨bank, -, hread⟩ := readManifest_of_mem hx
  have hsame : savedManifest cfg w x.generation schains' = x := by
    rw [← (readManifest_bank hread).2, hsaved.manifest] at hread
    exact Option.some.inj hread
  have hopens' := hrestored.opens
  rw [hsame] at hopens'
  obtain ⟨rfl, hrecovered, -⟩ := hopens'.unique hopens
  rw [hrecovered]
  apply stack_recovered hv
  rw [content_flushed hrestored.flushed]
  exact hnewest

/-- The open that takes it. -/
theorem Archived.opened (ha : cfg.Accepted) (hconfig : readConfig w.db.headsFile = .ok cfg)
    (h : Archived cfg T generation w) (hall : ∀ y ∈ readManifests w.db.headsFile, y.generation ≤ generation) :
    ∃ length, headsLength cfg.bucketCount = .ok length ∧ ∀ (m : Machine) (t : Tid), m.Enough cfg →
      ∃ w', (openDatabase m length).run t w = some (.ok cfg, w') ∧ w'.db.checkpointGeneration = generation ∧
        Represents cfg w'.db fun k => (Buckets.stack (bucketOf cfg) T k).take 1 := by
  obtain ⟨schains, hsaved, hnewest⟩ := h.saved
  obtain ⟨s, length, hrestored, hlength, hopen⟩ := hsaved.opened ha hconfig hall
  refine ⟨length, hlength, ?_⟩
  intro m t hfuel
  obtain ⟨w', hrun, hreborn⟩ := hopen m t hfuel
  refine ⟨w', hrun, hreborn.generation, hreborn.idle, _, hreborn.holds, ?_⟩
  apply stack_recovered ha.ready.valid
  rw [content_flushed hrestored.flushed]
  exact hnewest

end Sources

section Histories
variable {events : List Event}

/- A checkpoint of the history completed as this generation, and its snapshot holds what the runtime
   held before the call. -/
structure Sourced (cfg : Config) (before : Disk) (generation : Nat) (w : Disk) : Prop where
  idle : Idle before.db
  archived : ∃ T, Holds cfg before.db.store before.db.runtimeHeads T ∧ Archived cfg T generation w

variable {generation : Nat}

theorem Sourced.transfer (h : Sourced cfg before generation w)
    (hw : ∀ T, Archived cfg T generation w → Archived cfg T generation w') :
    Sourced cfg before generation w' := by
  obtain ⟨T, hholds, harchived⟩ := h.archived
  exact ⟨h.idle, T, hholds, hw T harchived⟩

/-- The checkpoint that has just completed. -/
theorem Answered.sourced (hs : Station cfg w) {chains : Nat → List Nat} {fits : Prop}
    (howned : Owned cfg w.db.store w.db.runtimeHeads chains ∅ ∅ ∅)
    (hr : Answered cfg chains fits w (.ok generation) w') : Sourced cfg w generation w' := by
  obtain ⟨schains, hrecorded⟩ := hr.ending
  exact ⟨hs.sound.idle, _, ⟨chains, howned, rfl⟩, schains, hrecorded.saved, hrecorded.newest⟩

/-- Every manifest that is valid comes from a checkpoint of the history. -/
def AllSourced (cfg : Config) (events : List Event) (w : Disk) : Prop :=
  ∀ x ∈ readManifests w.db.headsFile, ∃ before after,
    .checkpoint before after (.ok x.generation) ∈ events ∧ Sourced cfg before x.generation w

theorem AllSourced.later (h : AllSourced cfg events w) {events' : List Event} (hsub : events ⊆ events')
    (hfile : readManifests w'.db.headsFile = readManifests w.db.headsFile)
    (hw : ∀ T generation, Archived cfg T generation w → Archived cfg T generation w') :
    AllSourced cfg events' w' := by
  intro x hx
  rw [hfile] at hx
  obtain ⟨before, after, hmem, hsourced⟩ := h x hx
  exact ⟨before, after, hsub hmem, hsourced.transfer fun T => hw T x.generation⟩

/-- What a checkpoint leaves in the other bank. -/
theorem Answered.spared (hs : Station cfg w) {chains : Nat → List Nat} {fits : Prop}
    {result : Except Error Nat} (hr : Answered cfg chains fits w result w')
    (hx : x ∈ readManifests w'.db.headsFile) (hne : x.generation % 2 ≠ nextBank w) :
    x ∈ readManifests w.db.headsFile ∧ ∀ T, Archived cfg T x.generation w → Archived cfg T x.generation w' := by
  obtain ⟨bank, hbank, hread⟩ := readManifest_of_mem hx
  have hparity := (readManifest_bank hread).2
  rw [hr.stamped.manifest hs.accepted hbank (hparity ▸ hne)] at hread
  exact ⟨mem_of_readManifest hbank hread, fun T harchived => harchived.confined hs.accepted hr.stamped hne⟩

theorem AllSourced.answered (hs : Station cfg w) (h : AllSourced cfg events w) {chains : Nat → List Nat}
    {fits : Prop} (howned : Owned cfg w.db.store w.db.runtimeHeads chains ∅ ∅ ∅)
    {result : Except Error Nat} (hr : Answered cfg chains fits w result w') :
    AllSourced cfg (.checkpoint w w' result :: events) w' := by
  intro x hx
  by_cases hne : x.generation % 2 ≠ nextBank w
  · obtain ⟨hmem, hkept⟩ := hr.spared hs hx hne
    obtain ⟨before, after, hevent, hsourced⟩ := h x hmem
    exact ⟨before, after, List.mem_cons_of_mem _ hevent, hsourced.transfer hkept⟩
  · have hnew : x.generation % 2 = nextBank w := not_not.mp hne
    obtain ⟨bank, -, hread⟩ := readManifest_of_mem hx
    rw [← (readManifest_bank hread).2, hnew] at hread
    cases result with
    | ok g =>
      obtain ⟨schains, hrecorded⟩ := hr.ending
      have hg : g % 2 = nextBank w := by rw [(hr.stamped.done g rfl).1, nextBank]
      rw [← hg, hrecorded.saved.manifest] at hread
      obtain rfl := Option.some.inj hread
      exact ⟨w, w', List.mem_cons_self, hr.sourced hs howned⟩
    | error e =>
      cases hr.swept e rfl with
      | inl hnone =>
        rw [hnone] at hread
        cases hread
      | inr hsame =>
        rw [hsame.2] at hx
        obtain ⟨before, after, hevent, hsourced⟩ := h x hx
        refine ⟨before, after, List.mem_cons_of_mem _ hevent, hsourced.transfer ?_⟩
        intro T harchived
        exact harchived.transfer (fun _ hsaved => hsaved.same hsame.1 hsame.2) fun _ _ => by rw [hsame.1]

theorem History.sourced (h : History cfg events w) : AllSourced cfg events w := by
  induction h with
  | create banks hcreate =>
    obtain ⟨-, rfl⟩ := create_eq hcreate
    intro x hx
    have hnone : x ∈ readManifests (initializeHeader HeadsFile.zero cfg) := hx
    rw [readManifests_fresh] at hnone
    cases hnone
  | openDatabase h attempts step ih =>
    have hstation := h.station
    have hroused := (post_of_returns openDatabase_any step).2 cfg rfl
    have hretained := (attempts_retained hstation.config attempts).trans hroused.retained
    refine ih.later (List.subset_cons_self _ _) (by rw [hretained.headsFile]) ?_
    exact fun T generation harchived => harchived.retained hstation.accepted hretained
  | openRuntime h step opened ih =>
    have hkept := h.station.reopened_snapshots step opened
    refine ih.later (List.subset_cons_self _ _) hkept.heads.manifests ?_
    exact fun T generation harchived => harchived.kept h.station.accepted hkept
  | call op h step ih =>
    have hkept := (post_of_returns (op.sound h.station.accepted.ready h.station.sound) step).snapshots
    refine ih.later (List.Subset.refl _) hkept.heads.manifests ?_
    exact fun T generation harchived => harchived.kept h.station.accepted hkept
  | checkpoint h step ih =>
    obtain ⟨chains, howned⟩ := h.station.owned
    exact ih.answered h.station howned (h.station.checkpoint howned (fun hf => False.elim hf) step)

/-- The state before the last checkpoint that completed, and its generation. -/
def lastCompleted : List Event → Option (Disk × Nat)
  | [] => none
  | .checkpoint before _ (.ok generation) :: _ => some (before, generation)
  | _ :: events => lastCompleted events

/- What a directory holds of the last checkpoint that completed: the newest of its manifests. -/
inductive LastHeld (cfg : Config) : Option (Disk × Nat) → Disk → Prop where
  | nothing {w : Disk} (h : readManifests w.db.headsFile = []) : LastHeld cfg none w
  | newest {before w : Disk} {x : Manifest} (hx : x ∈ readManifests w.db.headsFile)
      (hall : ∀ y ∈ readManifests w.db.headsFile, y.generation ≤ x.generation)
      (sourced : Sourced cfg before x.generation w) : LastHeld cfg (some (before, x.generation)) w

theorem LastHeld.later {last : Option (Disk × Nat)} (h : LastHeld cfg last w)
    (hfile : readManifests w'.db.headsFile = readManifests w.db.headsFile)
    (hw : ∀ T generation, Archived cfg T generation w → Archived cfg T generation w') :
    LastHeld cfg last w' := by
  cases h with
  | nothing hnone => exact .nothing (hfile.trans hnone)
  | newest hx hall hsourced =>
    exact .newest (hfile.symm ▸ hx) (hfile.symm ▸ hall) (hsourced.transfer fun T => hw T _)

/-- A checkpoint that fails leaves the newest snapshot where it is. -/
theorem LastHeld.failed (hs : Station cfg w) {last : Option (Disk × Nat)} (h : LastHeld cfg last w)
    (hknown : Known w) (hanchor : Anchored w) {chains : Nat → List Nat} {fits : Prop} {e : Error}
    (hr : Answered cfg chains fits w (.error e) w') : LastHeld cfg last w' := by
  have hold : ∀ y ∈ readManifests w'.db.headsFile, y ∈ readManifests w.db.headsFile := by
    intro y hy
    by_cases hne : y.generation % 2 ≠ nextBank w
    · exact (hr.spared hs hy hne).1
    · cases hr.swept e rfl with
      | inr hsame => exact hsame.2 ▸ hy
      | inl hnone =>
        obtain ⟨bank, -, hread⟩ := readManifest_of_mem hy
        rw [← (readManifest_bank hread).2, not_not.mp hne, hnone] at hread
        cases hread
  cases h with
  | nothing hnone =>
    apply LastHeld.nothing
    apply List.eq_nil_iff_forall_not_mem.mpr
    intro y hy
    have hmem := hold y hy
    rw [hnone] at hmem
    cases hmem
  | newest hx hall hsourced =>
    rename_i before x
    have hspared := hknown.spared hanchor hx hall
    obtain ⟨bank, hbank, hread⟩ := readManifest_of_mem hx
    obtain ⟨hxbank, hparity⟩ := readManifest_bank hread
    rw [hxbank] at hspared
    have hstays : x ∈ readManifests w'.db.headsFile := by
      rw [← hr.stamped.manifest hs.accepted hbank hspared] at hread
      exact mem_of_readManifest hbank hread
    refine .newest hstays (fun y hy => hall y (hold y hy)) ?_
    exact hsourced.transfer (hr.spared hs hstays (hparity ▸ hspared)).2

theorem LastHeld.completed (hs : Station cfg w) (hknown : Known w) {chains : Nat → List Nat} {fits : Prop}
    (howned : Owned cfg w.db.store w.db.runtimeHeads chains ∅ ∅ ∅)
    (hr : Answered cfg chains fits w (.ok generation) w') : LastHeld cfg (some (w, generation)) w' := by
  obtain ⟨schains, hrecorded⟩ := hr.ending
  have hmem := mem_of_readManifest (parity_le generation) hrecorded.saved.manifest
  have hall := hknown.abreast.newest hs.accepted hr.stamped hrecorded.saved
  exact LastHeld.newest hmem hall (hr.sourced hs howned)

theorem History.lastHeld (h : History cfg events w) (hregular : ∀ e ∈ events, e.Regular cfg) :
    LastHeld cfg (lastCompleted events) w := by
  induction h with
  | create banks hcreate =>
    obtain ⟨-, rfl⟩ := create_eq hcreate
    exact .nothing (readManifests_fresh cfg)
  | openDatabase h attempts step ih =>
    have hstation := h.station
    have hroused := (post_of_returns openDatabase_any step).2 cfg rfl
    have hretained := (attempts_retained hstation.config attempts).trans hroused.retained
    have hbefore := ih fun e he => hregular e (List.mem_cons_of_mem _ he)
    refine hbefore.later (by rw [hretained.headsFile]) ?_
    exact fun T generation harchived => harchived.retained hstation.accepted hretained
  | openRuntime h step opened ih =>
    have hkept := h.station.reopened_snapshots step opened
    have hbefore := ih fun e he => hregular e (List.mem_cons_of_mem _ he)
    refine hbefore.later hkept.heads.manifests ?_
    exact fun T generation harchived => harchived.kept h.station.accepted hkept
  | call op h step ih =>
    have hkept := (post_of_returns (op.sound h.station.accepted.ready h.station.sound) step).snapshots
    refine (ih hregular).later hkept.heads.manifests ?_
    exact fun T generation harchived => harchived.kept h.station.accepted hkept
  | checkpoint h step ih =>
    have hpast := fun e he => hregular e (List.mem_cons_of_mem _ he)
    obtain ⟨chains, howned⟩ := h.station.owned
    have hanswered := h.station.checkpoint howned (fun hf : False => hf.elim) step
    rename_i result
    cases result with
    | ok g => exact .completed h.station (h.known hpast) howned hanswered
    | error e => exact (ih hpast).failed h.station (h.known hpast) h.anchored hanswered

theorem Retained.manifests (h : Retained cfg w w') :
    readManifests w'.db.headsFile = readManifests w.db.headsFile := by
  rw [h.headsFile]

/- Whatever failed before, a handle that `open` returns holds the newest values of the database as it
   was when some checkpoint of the history began that completed; if no open of the history met a
   failing system call, it is the last one that completed, and `open` does return. -/
theorem open_recovers_checkpoint (cfg : Config) {events : List Event} {w w₁ : Disk}
    (h : History cfg events w) (attempts : Relation.ReflTransGen FailedOpen w w₁) :
    (∀ (m : Machine) (t : Tid) (length : Nat) (w' : Disk),
      (openDatabase m length).Returns t w₁ (.ok cfg) w' → ∃ before after M,
        .checkpoint before after (.ok w'.db.checkpointGeneration) ∈ events ∧
          Represents cfg before.db M ∧ Represents cfg w'.db fun k => (M k).take 1) ∧
    ((∀ e ∈ events, e.Regular cfg) →
      (lastCompleted events = none → ∀ (m : Machine) (t : Tid) (length : Nat) (w' : Disk),
        ¬(openDatabase m length).Returns t w₁ (.ok cfg) w') ∧
      ∀ before generation, lastCompleted events = some (before, generation) →
        ∃ length M, headsLength cfg.bucketCount = .ok length ∧ Represents cfg before.db M ∧
          ∀ (m : Machine) (t : Tid), m.Enough cfg → ∃ w', (openDatabase m length).run t w₁ = some (.ok cfg, w') ∧
            w'.db.checkpointGeneration = generation ∧ Represents cfg w'.db fun k => (M k).take 1) := by
  have hstation := h.station
  have ha := hstation.accepted
  have hkept := attempts_retained hstation.config attempts
  refine ⟨?_, ?_⟩
  · intro m t length w' step
    have hroused := (post_of_returns openDatabase_any step).2 cfg rfl
    obtain ⟨x, hx, hgen, w₂, s, schains, hbetween, hopens, hholds⟩ := hroused.woken.source
    have hretained := hkept.trans hbetween
    rw [hkept.manifests] at hx
    obtain ⟨before, after, hevent, hsourced⟩ := h.sourced x hx
    obtain ⟨T, hbefore, harchived⟩ := hsourced.archived
    have hstack := (harchived.retained ha hretained).stack ha.ready.valid ha (hretained.manifests ▸ hx) hopens
    rw [hgen]
    exact ⟨before, after, _, hevent, ⟨hsourced.idle, T, hbefore, rfl⟩, hroused.woken.idle, _, hholds, hstack⟩
  · intro hregular
    have hlast := h.lastHeld hregular
    refine ⟨?_, ?_⟩
    · intro hnever m t length w' step
      rw [hnever] at hlast
      cases hlast with
      | nothing hnone =>
        have hroused := (post_of_returns openDatabase_any step).2 cfg rfl
        obtain ⟨x, hx, -⟩ := hroused.woken.generation
        rw [hkept.manifests, hnone] at hx
        cases hx
    · intro before generation hsome
      rw [hsome] at hlast
      cases hlast with
      | newest hx hall hsourced =>
        rename_i x
        obtain ⟨T, hbefore, harchived⟩ := hsourced.archived
        have hconfig : readConfig w₁.db.headsFile = .ok cfg := by rw [hkept.headsFile, hstation.config]
        obtain ⟨length, hlength, hopen⟩ :=
          (harchived.retained ha hkept).opened ha hconfig (hkept.manifests ▸ hall)
        exact ⟨length, _, hlength, ⟨hsourced.idle, T, hbefore, rfl⟩, hopen⟩

/-- An open that is refused, behind two generations and calls that removed a key. -/
theorem open_recovers_checkpoint_pages : ∃ events w before w' d M rest, History Config.pages events w ∧
    lastCompleted events = some (before, 2) ∧ FailedOpen w w ∧
    Represents Config.pages before.db M ∧ M (sampleKey 1) = [6, 7] :: [3] :: rest ∧
    (get Config.pages Machine.pages (sampleKey 1).toList).run 0 w.db = some (.ok none, d) ∧
    (openDatabase Machine.pages 262144).run 0 w = some (.ok Config.pages, w') ∧
    w'.db.checkpointGeneration = 2 ∧ Represents Config.pages w'.db fun k => (M k).take 1 := by
  obtain ⟨⟨before, after⟩, hsecond, htwo, -, -, hrest⟩ := secondCheckpoint_runs
  obtain ⟨⟨r, d⟩, htwo, rfl⟩ := Option.map_eq_some_iff.mp htwo
  obtain ⟨w, hcalls, hget⟩ := Option.bind_eq_some_iff.mp hrest
  obtain ⟨⟨r, d'⟩, hget, rfl⟩ := Option.map_eq_some_iff.mp hget
  obtain ⟨w₀, w₁, w₂, hhistory, hregular⟩ := secondCheckpoint_history hsecond
  have htrial := (checkpointed_steps hsecond).1
  have hfailed : FailedOpen w w :=
    ⟨Machine.pages, 0, 0, .invalidConfig
      "mapping length must be format-page aligned, representable, and nonzero", returns_of_run rfl⟩
  have hlater := hhistory.calls hcalls
  obtain ⟨-, hlast⟩ := (open_recovers_checkpoint Config.pages hlater (.single hfailed)).2 hregular
  obtain ⟨length, M, hlength, hbefore, hopen⟩ := hlast before 2 rfl
  have hheads : headsLength Config.pages.bucketCount = .ok 262144 := by decide +kernel
  obtain rfl : length = 262144 := Except.ok.inj (hlength.symm.trans hheads)
  obtain ⟨rest, hstack⟩ := hbefore.two (trial_visited htrial).station.accepted.ready rfl htwo
  obtain ⟨w', hopened, hgeneration, hrepresents⟩ := hopen Machine.pages 0 enough_pages
  exact ⟨_, w, before, w', d', M, rest, hlater, rfl, hfailed, hbefore, hstack, hget, hopened, hgeneration, hrepresents⟩

end Histories

end FlorestaDb
