import FlorestaDb.Recalled

/-! Whole histories of one directory: created, opened, reopened, called and checkpointed through
one handle after another. -/
namespace FlorestaDb
open Program Program.Prog Allocator Chain

variable {cfg : Config} {m : Machine} {t : Tid} {w w' w₁ : Disk} {bank generation : Nat}

section Files
variable {schains : Nat → List Nat}

/-- The roots of one bank are not part of the other. -/
theorem not_ofBank_root (ha : cfg.Accepted) {bank' b offset : Nat} (h : rootOffset cfg bank b = .ok offset)
    (hbank' : bank' ≤ 1) (hne : bank ≠ bank') : ¬OfBank cfg bank' offset := by
  have hbehind := (rootOffset_behind ha h).1
  have hbase : manifestBase = 128 := rfl
  have hstride : manifestStride = 64 := rfl
  have hstart : headsStart = 65536 := rfl
  intro hof
  cases hof with
  | inl hmanifest =>
    rw [hbase, hstride] at hmanifest
    omega
  | inr hroot =>
    obtain ⟨b', hb'⟩ := hroot
    obtain ⟨length, size, hg⟩ := ha.geometry
    obtain ⟨hle, hlt, heq⟩ := rootOffset_ok hg h
    obtain ⟨-, hlt', heq'⟩ := rootOffset_ok hg hb'
    have hholds := hg.holds
    have hcases : bank = 0 ∧ bank' = 1 ∨ bank = 1 ∧ bank' = 0 := by omega
    cases hcases with
    | inl hpair =>
      obtain ⟨rfl, rfl⟩ := hpair
      omega
    | inr hpair =>
      obtain ⟨rfl, rfl⟩ := hpair
      omega

/-- A checkpoint into the other bank leaves a snapshot alone. -/
theorem Saved.confined (ha : cfg.Accepted) (h : Saved cfg w generation schains)
    (hc : BankOnly cfg bank w w') (hbank : bank ≤ 1) (hne : generation % 2 ≠ bank) :
    Saved cfg w' generation schains := by
  obtain ⟨hstore, hpresent⟩ := hc.banks _ hne
  refine h.congr hstore hpresent ?_ (hc.manifest ha (parity_le _) hne)
  exact sameRoots_of_words fun b offset ho => hc.words offset (not_ofBank_root ha ho hbank hne)

/-- A snapshot whose allocators were opened is still the snapshot. -/
theorem Saved.retained (ha : cfg.Accepted) (h : Saved cfg w generation schains) (hr : Retained cfg w w') :
    Saved cfg w' generation schains := by
  have hroots : SameRoots cfg (generation % 2) w.db.headsFile w'.db.headsFile := by
    intro b
    rw [hr.headsFile]
  have hmanifest : readManifest w'.db.headsFile (generation % 2) = readManifest w.db.headsFile (generation % 2) := by
    rw [hr.headsFile]
  cases hr.banks (generation % 2) with
  | inl hsame => exact h.congr (by rw [hsame]) (by rw [hsame]) hroots hmanifest
  | inr hopened =>
    obtain ⟨s, hopen, hbank⟩ := hopened
    obtain ⟨s', hopen', -, hsealed, hval, hsum⟩ := h.files.opens ha h.validated
    obtain rfl := Except.ok.inj (hopen.symm.trans hopen')
    have hhere : ((w.setStore (.bank (generation % 2)) s).banks (generation % 2)) =
        { w.banks (generation % 2) with store := s } := Function.update_self _ _ _
    have hsaved : Saved cfg (w.setStore (.bank (generation % 2)) s) generation schains := by
      refine ⟨?_, ?_, hval, ?_⟩
      · rw [hhere]
        exact h.present
      · rw [hsum]
        exact h.manifest
      · rw [hhere]
        exact hsealed
    exact hsaved.congr (by rw [hbank, hhere]) (by rw [hbank, hhere]) hroots hmanifest

/-- Every manifest that is valid names a snapshot that was saved. -/
def Filed (cfg : Config) (w : Disk) : Prop :=
  ∀ x ∈ readManifests w.db.headsFile, ∃ schains, Saved cfg w x.generation schains

/-- No valid manifest is newer than the handle knows. -/
def Known (w : Disk) : Prop :=
  ∀ x ∈ readManifests w.db.headsFile, x.generation ≤ w.db.checkpointGeneration

theorem readManifests_fresh (cfg : Config) :
    readManifests (initializeHeader HeadsFile.zero cfg) = [] := by
  rw [readManifests, readManifest_fresh, readManifest_fresh]
  rfl

theorem Filed.kept (ha : cfg.Accepted) (h : Filed cfg w) (hk : SnapshotsKept cfg w w') : Filed cfg w' := by
  intro x hx
  rw [hk.heads.manifests] at hx
  obtain ⟨schains, hsaved⟩ := h x hx
  exact ⟨schains, hk.saved ha hsaved⟩

theorem Filed.retained (ha : cfg.Accepted) (h : Filed cfg w) (hr : Retained cfg w w') : Filed cfg w' := by
  intro x hx
  rw [hr.headsFile] at hx
  obtain ⟨schains, hsaved⟩ := h x hx
  exact ⟨schains, hsaved.retained ha hr⟩

theorem Filed.answered (ha : cfg.Accepted) (h : Filed cfg w) {chains : Nat → List Nat} {fits : Prop}
    {r : Except Error Nat} (hr : Answered cfg chains fits w r w') : Filed cfg w' := by
  have hother : ∀ {bank : Nat} {x : Manifest}, bank ≤ 1 → bank ≠ nextBank w →
      readManifest w'.db.headsFile bank = some x → ∃ schains, Saved cfg w' x.generation schains := by
    intro bank x hbank hne hread
    rw [hr.stamped.manifest ha hbank hne] at hread
    have hmem := mem_of_readManifest hbank hread
    obtain ⟨schains, hsaved⟩ := h x hmem
    have hparity := (readManifest_bank hread).2
    have hkept := hsaved.confined ha hr.stamped.confined (nextBank_le w) (hparity ▸ hne)
    exact ⟨schains, hkept.same rfl rfl⟩
  intro x hx
  obtain ⟨bank, hbank, hread⟩ := readManifest_of_mem hx
  by_cases hnew : bank = nextBank w
  · cases r with
    | ok g =>
      obtain ⟨schains, hrecorded⟩ := hr.ending
      have hg : g % 2 = bank := by rw [hnew, (hr.stamped.done g rfl).1, nextBank]
      rw [← hg, hrecorded.saved.manifest] at hread
      obtain rfl := Option.some.inj hread
      exact ⟨schains, hrecorded.saved⟩
    | error e =>
      cases hr.swept e rfl with
      | inl hnone =>
        rw [hnew, hnone] at hread
        cases hread
      | inr hsame =>
        rw [hsame.2] at hx
        obtain ⟨schains, hsaved⟩ := h x hx
        exact ⟨schains, hsaved.same hsame.1 hsame.2⟩
  · exact hother hbank hnew hread

theorem Known.kept (h : Known w) (hk : SnapshotsKept cfg w w')
    (hgen : w'.db.checkpointGeneration = w.db.checkpointGeneration) : Known w' := by
  intro x hx
  rw [hk.heads.manifests] at hx
  exact hgen.symm ▸ h x hx

theorem Known.abreast (h : Known w) : Abreast w := fun x hread =>
  h x (mem_of_readManifest (parity_le _) hread)

end Files

section Histories

/-- An attempt to open the directory that failed. -/
def FailedOpen (w w' : Disk) : Prop :=
  ∃ (m : Machine) (t : Tid) (length : Nat) (e : Error), (openDatabase m length).Returns t w (.error e) w'

/-- What a history does to the snapshots, or to the generation that the handle knows. -/
inductive Event where
  | opened (before after : Disk)
  | reopened (before : Disk)
  | checkpoint (before after : Disk) (result : Except Error Nat)

/- The histories of a directory, the newest event first: it is created, opened from its snapshots,
   opened again after a clean close, called and checkpointed, in any order. -/
inductive History (cfg : Config) : List Event → Disk → Prop where
  | create {d : Db} (banks : Nat → Bank) (h : Db.create cfg = .ok d) : History cfg [] ⟨d, banks⟩
  | openDatabase {events : List Event} {w w₁ w' : Disk} {m : Machine} {t : Tid} {length : Nat}
      (h : History cfg events w) (attempts : Relation.ReflTransGen FailedOpen w w₁)
      (step : (FlorestaDb.openDatabase m length).Returns t w₁ (.ok cfg) w') :
      History cfg (.opened w₁ w' :: events) w'
  | openRuntime {events : List Event} {w : Disk} {d₁ d₂ : Db} {m : Machine} {t : Tid}
      (h : History cfg events w) (step : (close cfg m).Returns t w.db (.ok ()) d₁)
      (opened : FlorestaDb.openRuntime (d₁.directory cfg) = .ok (cfg, d₂)) :
      History cfg (.reopened { w with db := d₁ } :: events) { w with db := d₂ }
  | call {events : List Event} {w : Disk} {d : Db} {m : Machine} {t : Tid} {res : Except Error Unit}
      (op : Op) (h : History cfg events w) (step : (op.program cfg m).Returns t w.db res d) :
      History cfg events { w with db := d }
  | checkpoint {events : List Event} {w w' : Disk} {m : Machine} {t : Tid} {res : Except Error Nat}
      (h : History cfg events w) (step : (checkpoint cfg m).Returns t w res w') :
      History cfg (.checkpoint w w' res :: events) w'

variable {events : List Event}

theorem History.visited (h : History cfg events w) : ∃ o, Visited cfg o w := by
  induction h with
  | create banks hcreate => exact ⟨_, .create banks hcreate⟩
  | openDatabase _ _ step _ => exact ⟨_, .openDatabase step⟩
  | openRuntime _ step opened ih =>
    obtain ⟨o, hvisited⟩ := ih
    exact ⟨_, .openRuntime hvisited step opened⟩
  | call op _ step ih =>
    obtain ⟨o, hvisited⟩ := ih
    exact ⟨o, .call op hvisited step⟩
  | checkpoint _ step ih =>
    obtain ⟨o, hvisited⟩ := ih
    exact ⟨o, .checkpoint hvisited step⟩

theorem History.station (h : History cfg events w) : Station cfg w := by
  obtain ⟨o, hvisited⟩ := h.visited
  exact hvisited.station

/-- The state before a checkpoint is that of an earlier part of the history. -/
theorem History.prior (h : History cfg events w) {before after : Disk} {result : Except Error Nat}
    (hmem : .checkpoint before after result ∈ events) : ∃ earlier, earlier ⊆ events ∧
      History cfg earlier before ∧ ∃ m t, (FlorestaDb.checkpoint cfg m).Returns t before result after := by
  have hlater : ∀ {e : Event} {earlier events : List Event}, earlier ⊆ events → earlier ⊆ e :: events :=
    fun hsub _ he => List.mem_cons_of_mem _ (hsub he)
  induction h with
  | create banks hcreate => cases hmem
  | openDatabase _ _ _ ih =>
    cases hmem with
    | tail _ hmem =>
      obtain ⟨earlier, hsub, hrest⟩ := ih hmem
      exact ⟨earlier, hlater hsub, hrest⟩
  | openRuntime _ _ _ ih =>
    cases hmem with
    | tail _ hmem =>
      obtain ⟨earlier, hsub, hrest⟩ := ih hmem
      exact ⟨earlier, hlater hsub, hrest⟩
  | call _ _ _ ih => exact ih hmem
  | checkpoint h step ih =>
    cases hmem with
    | head => exact ⟨_, fun _ he => List.mem_cons_of_mem _ he, h, _, _, step⟩
    | tail _ hmem =>
      obtain ⟨earlier, hsub, hrest⟩ := ih hmem
      exact ⟨earlier, hlater hsub, hrest⟩

/-- The answer of a checkpoint of a history. -/
theorem Station.answered (h : Station cfg w) {res : Except Error Nat}
    (step : (FlorestaDb.checkpoint cfg m).Returns t w res w') : ∃ chains, Answered cfg chains False w res w' := by
  obtain ⟨chains, howned⟩ := h.owned
  exact ⟨chains, h.checkpoint howned (fun hf => hf.elim) step⟩

/-- Failed attempts leave the heads file and the snapshots. -/
theorem attempts_retained (hconfig : readConfig w.db.headsFile = .ok cfg)
    (h : Relation.ReflTransGen FailedOpen w w₁) : Retained cfg w w₁ := by
  induction h with
  | refl => exact .refl cfg w
  | tail _ step ih =>
    obtain ⟨m, t, length, e, hreturns⟩ := step
    exact ih.trans ((post_of_returns openDatabase_any hreturns).1 cfg (by rw [ih.headsFile, hconfig]))

theorem History.filed (h : History cfg events w) : Filed cfg w := by
  induction h with
  | create banks hcreate =>
    obtain ⟨-, rfl⟩ := create_eq hcreate
    intro x hx
    have hnone : x ∈ readManifests (initializeHeader HeadsFile.zero cfg) := hx
    rw [readManifests_fresh] at hnone
    cases hnone
  | openDatabase h attempts step ih =>
    have hstation := h.station
    have hroused := (post_of_returns openDatabase_any step).2 cfg rfl
    have hretained := (attempts_retained hstation.config attempts).trans hroused.retained
    exact ih.retained hstation.accepted hretained
  | openRuntime h step opened ih =>
    exact ih.kept h.station.accepted (h.station.reopened_snapshots step opened)
  | call op h step ih =>
    have hsettled := post_of_returns (op.sound h.station.accepted.ready h.station.sound) step
    exact ih.kept h.station.accepted hsettled.snapshots
  | checkpoint h step ih =>
    obtain ⟨chains, hanswered⟩ := h.station.answered step
    exact ih.answered h.station.accepted hanswered

/-- The generation of the handle is that of a valid manifest, if there was a checkpoint. -/
def Anchored (w : Disk) : Prop :=
  w.db.checkpointGeneration = 0 ∨ ∃ x,
    readManifest w.db.headsFile (w.db.checkpointGeneration % 2) = some x ∧
      x.generation = w.db.checkpointGeneration

theorem Anchored.of_mem {x : Manifest} (hx : x ∈ readManifests w.db.headsFile)
    (hgen : w.db.checkpointGeneration = x.generation) : Anchored w := by
  obtain ⟨bank, -, hread⟩ := readManifest_of_mem hx
  refine Or.inr ⟨x, ?_, hgen.symm⟩
  rw [hgen, (readManifest_bank hread).2]
  exact hread

theorem Anchored.kept (h : Anchored w) (hk : SnapshotsKept cfg w w')
    (hgen : w'.db.checkpointGeneration = w.db.checkpointGeneration) : Anchored w' := by
  cases h with
  | inl hzero => exact Or.inl (hgen.trans hzero)
  | inr hanchor =>
    obtain ⟨x, hread, hx⟩ := hanchor
    refine Or.inr ⟨x, ?_, hx.trans hgen.symm⟩
    rw [hgen, hk.heads.manifest (parity_le _)]
    exact hread

theorem Anchored.answered (ha : cfg.Accepted) (h : Anchored w) {chains : Nat → List Nat} {fits : Prop}
    {r : Except Error Nat} (hr : Answered cfg chains fits w r w') : Anchored w' := by
  cases r with
  | ok g =>
    obtain ⟨schains, hrecorded⟩ := hr.ending
    have hgen := (hr.stamped.done g rfl).2
    refine Or.inr ⟨savedManifest cfg w' g schains, ?_, hgen.symm⟩
    rw [hgen]
    exact hrecorded.saved.manifest
  | error e =>
    have hgen := hr.stamped.failed e rfl
    cases h with
    | inl hzero => exact Or.inl (hgen.trans hzero)
    | inr hanchor =>
      obtain ⟨x, hread, hx⟩ := hanchor
      refine Or.inr ⟨x, ?_, hx.trans hgen.symm⟩
      rw [hgen, hr.stamped.manifest ha (parity_le _) (generation_ne_nextBank w)]
      exact hread

theorem History.anchored (h : History cfg events w) : Anchored w := by
  induction h with
  | create banks hcreate =>
    obtain ⟨-, rfl⟩ := create_eq hcreate
    exact Or.inl rfl
  | openDatabase h attempts step ih =>
    have hroused := (post_of_returns openDatabase_any step).2 cfg rfl
    obtain ⟨x, hmem, hgen⟩ := hroused.woken.generation
    rw [← hroused.retained.headsFile] at hmem
    exact .of_mem hmem hgen
  | openRuntime h step opened ih =>
    obtain ⟨chains, -, hre, -⟩ := h.station.reopened step opened
    exact Or.inl hre.generation
  | call op h step ih =>
    have hsettled := post_of_returns (op.sound h.station.accepted.ready h.station.sound) step
    exact ih.kept hsettled.snapshots hsettled.generation
  | checkpoint h step ih =>
    obtain ⟨chains, hanswered⟩ := h.station.answered step
    exact ih.answered h.station.accepted hanswered

end Histories

section Recency
variable {before after : Disk} {result : Except Error Nat}

/-- `open` selects the snapshot of a manifest, whatever calls come before it. -/
def Selected (cfg : Config) (after : Disk) (x : Manifest) : Prop :=
  ∀ w, Later cfg after w → ∃ s schains length, Opens cfg w x s schains ∧
    headsLength cfg.bucketCount = .ok length ∧ ∀ (m : Machine) (t : Tid), m.Enough cfg →
      ∃ w', (openDatabase m length).run t w = some (.ok cfg, w') ∧
        Reborn cfg w x (recovered cfg s schains) w'

/- A checkpoint spares the bank of the newest valid manifest; if it succeeds, its manifest is
   strictly newer than any other valid one, and the next `open` selects its snapshot. -/
structure Recent (cfg : Config) (before after : Disk) (result : Except Error Nat) : Prop where
  spared : ∀ x ∈ readManifests before.db.headsFile,
    (∀ y ∈ readManifests before.db.headsFile, y.generation ≤ x.generation) → x.bank ≠ nextBank before
  newest : ∀ g, result = .ok g → ∃ x ∈ readManifests after.db.headsFile,
    x.generation = g ∧ x.bank = nextBank before ∧
      (∀ y ∈ readManifests after.db.headsFile, y ≠ x → y.generation < g) ∧ Selected cfg after x

/-- There is a newest manifest, if there is any. -/
theorem exists_newest {f : HeadsFile} {x : Manifest} (h : x ∈ readManifests f) :
    ∃ y ∈ readManifests f, ∀ z ∈ readManifests f, z.generation ≤ y.generation := by
  have hsorted := (readManifests_sorted f).1
  cases hms : readManifests f with
  | nil =>
    rw [hms] at h
    cases h
  | cons y rest =>
    rw [hms] at hsorted
    refine ⟨y, List.mem_cons_self, ?_⟩
    intro z hz
    cases List.mem_cons.mp hz with
    | inl heq => exact heq ▸ Nat.le_refl y.generation
    | inr hrest => exact ((List.pairwise_cons.mp hsorted).1 z hrest).le

/-- A handle that knows the newest generation writes the other bank. -/
theorem Known.spared (h : Known before) (hanchor : Anchored before) {x : Manifest}
    (hx : x ∈ readManifests before.db.headsFile)
    (hnewest : ∀ y ∈ readManifests before.db.headsFile, y.generation ≤ x.generation) :
    x.bank ≠ nextBank before := by
  have hle := h x hx
  have hgen : x.generation = before.db.checkpointGeneration := by
    cases hanchor with
    | inl hzero => omega
    | inr hvalid =>
      obtain ⟨y, hread, hy⟩ := hvalid
      have hge := hnewest y (mem_of_readManifest (parity_le _) hread)
      omega
  obtain ⟨bank, -, hread⟩ := readManifest_of_mem hx
  obtain ⟨hbank, hparity⟩ := readManifest_bank hread
  rw [hbank, ← hparity, hgen]
  exact generation_ne_nextBank before

theorem Known.recent (hs : Station cfg before) (h : Known before) (hanchor : Anchored before)
    {chains : Nat → List Nat} {fits : Prop} (hr : Answered cfg chains fits before result after) :
    Recent cfg before after result := by
  refine ⟨fun x hx hnewest => h.spared hanchor hx hnewest, ?_⟩
  intro g hg
  subst hg
  have ha := hs.accepted
  obtain ⟨hgen, hcounter⟩ := hr.stamped.done g rfl
  obtain ⟨schains, hrecorded⟩ := hr.ending
  have hsaved := hrecorded.saved
  have hbank : g % 2 = nextBank before := by rw [hgen, nextBank]
  have hall := h.abreast.newest ha hr.stamped hsaved
  refine ⟨savedManifest cfg after g schains, mem_of_readManifest (parity_le g) hsaved.manifest, rfl, hbank,
    ?_, ?_⟩
  · intro y hy hne
    obtain ⟨bank, hle, hread⟩ := readManifest_of_mem hy
    have hother : bank ≠ g % 2 := by
      intro heq
      rw [heq, hsaved.manifest] at hread
      exact hne (Option.some.inj hread).symm
    rw [hr.stamped.manifest ha hle (hbank ▸ hother)] at hread
    have hold := h y (mem_of_readManifest hle hread)
    omega
  · intro w hlater
    obtain ⟨hstation, hkept⟩ := hlater.kept (hs.stamped hr.stamped)
    have hsaved' := hkept.saved ha hsaved
    have hsame : savedManifest cfg w g schains = savedManifest cfg after g schains := by
      have hread := hkept.heads.manifest (parity_le g)
      rw [hsaved'.manifest, hsaved.manifest] at hread
      exact Option.some.inj hread
    obtain ⟨s, length, hrestored, hlength, hopen⟩ :=
      hsaved'.opened ha hstation.config (hkept.heads.manifests ▸ hall)
    rw [← hsame]
    exact ⟨s, schains, length, hrestored.opens, hlength, hopen⟩

/-- A checkpoint that hits neither the newest manifest nor a newer one was made by a handle that
knows the newest generation. -/
theorem Recent.known (hs : Station cfg before) (hst : Stamped cfg before result after) {g : Nat}
    (hg : result = .ok g) (h : Recent cfg before after result) : Known before := by
  intro x hx
  by_contra hgt
  have hgen := (hst.done g hg).1
  obtain ⟨y, hy, hnewest⟩ := exists_newest hx
  have hle := hnewest x hx
  have hspared := h.spared y hy hnewest
  obtain ⟨written, -, -, hbank, hyounger, -⟩ := h.newest g hg
  obtain ⟨bank, hbank', hread⟩ := readManifest_of_mem hy
  have hybank := (readManifest_bank hread).1
  rw [hybank] at hspared
  rw [← hst.manifest hs.accepted hbank' hspared] at hread
  have hne : y ≠ written := by
    intro heq
    rw [← heq, hybank] at hbank
    exact hspared hbank
  have hlt := hyounger y (mem_of_readManifest hbank' hread) hne
  omega

/-- What an event has to be for the handle to know the newest generation: no system call fails in
an `open`, and `open_runtime` finds no manifest. -/
def Event.Regular (cfg : Config) : Event → Prop
  | .opened before after => ∃ (m : Machine) (t : Tid) (length : Nat), m.Enough cfg ∧
      (openDatabase m length).run t before = some (.ok cfg, after)
  | .reopened before => readManifests before.db.headsFile = []
  | .checkpoint _ _ _ => True

theorem Known.answered (ha : cfg.Accepted) (h : Known before) {chains : Nat → List Nat} {fits : Prop}
    (hr : Answered cfg chains fits before result after) : Known after := by
  cases result with
  | ok g =>
    obtain ⟨schains, hrecorded⟩ := hr.ending
    rw [Known, (hr.stamped.done g rfl).2]
    exact h.abreast.newest ha hr.stamped hrecorded.saved
  | error e =>
    rw [Known, hr.stamped.failed e rfl]
    intro x hx
    cases hr.swept e rfl with
    | inr hsame => exact h x (hsame.2 ▸ hx)
    | inl hnone =>
      obtain ⟨bank, hbank, hread⟩ := readManifest_of_mem hx
      have hne : bank ≠ nextBank before := by
        intro heq
        rw [heq, hnone] at hread
        cases hread
      rw [hr.stamped.manifest ha hbank hne] at hread
      exact h x (mem_of_readManifest hbank hread)

/-- The open of a directory whose manifests all name saved snapshots takes the newest one. -/
theorem Filed.opens_newest (ha : cfg.Accepted) (hconfig : readConfig w.db.headsFile = .ok cfg)
    (h : Filed cfg w) {x : Manifest} (hx : x ∈ readManifests w.db.headsFile)
    (hnewest : ∀ y ∈ readManifests w.db.headsFile, y.generation ≤ x.generation) :
    ∃ s schains length, Restored cfg w x.generation schains s ∧ headsLength cfg.bucketCount = .ok length ∧
      ∀ (m : Machine) (t : Tid), m.Enough cfg → ∃ w', (openDatabase m length).run t w = some (.ok cfg, w') ∧
        Reborn cfg w x (recovered cfg s schains) w' := by
  obtain ⟨schains, hsaved⟩ := h x hx
  obtain ⟨s, length, hrestored, hlength, hopen⟩ := hsaved.opened ha hconfig hnewest
  obtain ⟨bank, -, hread⟩ := readManifest_of_mem hx
  have hsame : savedManifest cfg w x.generation schains = x := by
    rw [← (readManifest_bank hread).2, hsaved.manifest] at hread
    exact Option.some.inj hread
  rw [hsame] at hopen
  exact ⟨s, schains, length, hrestored, hlength, hopen⟩

theorem Filed.known_opened (h : Filed cfg w) {length : Nat} (henough : m.Enough cfg)
    (hrun : (openDatabase m length).run t w = some (.ok cfg, w')) : Known w' := by
  have hroused := (post_of_returns openDatabase_any (returns_of_run hrun)).2 cfg rfl
  obtain ⟨x, hx, -⟩ := hroused.woken.generation
  obtain ⟨newest, hmem, hnewest⟩ := exists_newest hx
  obtain ⟨s, schains, length', -, hlength, hopen⟩ :=
    h.opens_newest hroused.accepted hroused.config hmem hnewest
  obtain rfl := Except.ok.inj (hlength.symm.trans hroused.headsLength)
  obtain ⟨w'', hrun', hreborn⟩ := hopen m t henough
  obtain ⟨-, rfl⟩ := Prod.mk.inj (Option.some.inj (hrun.symm.trans hrun'))
  intro y hy
  rw [hreborn.headsFile] at hy
  rw [hreborn.generation]
  exact hnewest y hy

theorem History.known {events : List Event} (h : History cfg events w)
    (hregular : ∀ e ∈ events, e.Regular cfg) : Known w := by
  induction h with
  | create banks hcreate =>
    obtain ⟨-, rfl⟩ := create_eq hcreate
    intro x hx
    have hnone : x ∈ readManifests (initializeHeader HeadsFile.zero cfg) := hx
    rw [readManifests_fresh] at hnone
    cases hnone
  | openDatabase h attempts step ih =>
    obtain ⟨m, t, length, henough, hrun⟩ := hregular _ List.mem_cons_self
    have hretained := attempts_retained h.station.config attempts
    exact (h.filed.retained h.station.accepted hretained).known_opened henough hrun
  | openRuntime h step opened ih =>
    have hnone : readManifests _ = [] := hregular _ List.mem_cons_self
    obtain ⟨chains, -, hre, -⟩ := h.station.reopened step opened
    intro x hx
    simp only [hre.headsFile] at hx
    rw [hnone] at hx
    cases hx
  | call op h step ih =>
    have hsettled := post_of_returns (op.sound h.station.accepted.ready h.station.sound) step
    exact (ih hregular).kept hsettled.snapshots hsettled.generation
  | checkpoint h step ih =>
    obtain ⟨chains, hanswered⟩ := h.station.answered step
    exact (ih fun e he => hregular e (List.mem_cons_of_mem _ he)).answered h.station.accepted hanswered

/- Along any history, a checkpoint spares the newest snapshot and, if it succeeds, is the one that
   `open` selects next, exactly when its handle knew the newest generation; and that is so in a
   history whose opens succeed and whose reopenings find no manifest. -/
theorem checkpoint_recent_iff (cfg : Config) {events : List Event} {w : Disk} (h : History cfg events w) :
    (∀ before after result, .checkpoint before after result ∈ events →
      (Known before → Recent cfg before after result) ∧
        ∀ g, result = .ok g → Recent cfg before after result → Known before) ∧
    ((∀ e ∈ events, e.Regular cfg) → ∀ before after result, .checkpoint before after result ∈ events →
      Recent cfg before after result) := by
  have hpast : ∀ before after result, .checkpoint before after result ∈ events → ∃ earlier,
      earlier ⊆ events ∧ History cfg earlier before ∧
        ∃ chains, Answered cfg chains False before result after := by
    intro before after result hmem
    obtain ⟨earlier, hsub, hbefore, m, t, step⟩ := h.prior hmem
    exact ⟨earlier, hsub, hbefore, hbefore.station.answered step⟩
  have hgood : ∀ before after result, .checkpoint before after result ∈ events → Known before →
      Recent cfg before after result := by
    intro before after result hmem hknown
    obtain ⟨earlier, -, hbefore, chains, hanswered⟩ := hpast before after result hmem
    exact hknown.recent hbefore.station hbefore.anchored hanswered
  refine ⟨?_, ?_⟩
  · intro before after result hmem
    obtain ⟨earlier, -, hbefore, chains, hanswered⟩ := hpast before after result hmem
    exact ⟨hgood before after result hmem,
      fun g hg hrecent => hrecent.known hbefore.station hanswered.stamped hg⟩
  · intro hregular before after result hmem
    obtain ⟨earlier, hsub, hbefore, -⟩ := hpast before after result hmem
    exact hgood before after result hmem (hbefore.known fun e he => hregular e (hsub he))

theorem History.calls {ops : List Op} (h : History cfg events w) (hrun : callEach cfg m ops w = some w') :
    History cfg events w' := by
  induction ops generalizing w with
  | nil =>
    cases hrun
    exact h
  | cons op ops ih =>
    obtain ⟨x, hx, hrun⟩ := Option.bind_eq_some_iff.mp hrun
    exact ih (h.call op (returns_of_run hx)) hrun

def secondCheckpoint : Option (Disk × Disk) := checkpointed Config.pages Machine.pages 2 trial

theorem secondCheckpoint_runs : ∃ x, secondCheckpoint = some x ∧
    ((topTwo Config.pages Machine.pages (sampleKey 1)).run 0 x.1.db).map Prod.fst =
      some (.ok (some [6, 7], some [3])) ∧
    (readManifests x.1.db.headsFile).map Manifest.generation = [1] ∧
    (readManifests x.2.db.headsFile).map Manifest.generation = [2, 1] ∧
    ((callEach Config.pages Machine.pages laterOps x.2).bind fun w =>
      ((get Config.pages Machine.pages (sampleKey 1).toList).run 0 w.db).map Prod.fst) = some (.ok none) := by
  rw [← exists_any]
  decide +kernel

/-- A checkpoint, the recovery from it, and a second checkpoint. -/
theorem secondCheckpoint_history (h : secondCheckpoint = some (w, w')) :
    ∃ w₀ w₁ w₂, History Config.pages
        [.checkpoint w w' (.ok 2), .opened w₁ w₂, .checkpoint w₀ w₁ (.ok 1)] w' ∧
      ∀ e ∈ [Event.checkpoint w w' (.ok 2), .opened w₁ w₂, .checkpoint w₀ w₁ (.ok 1)], e.Regular Config.pages := by
  obtain ⟨htrial, hrun⟩ := checkpointed_steps h
  obtain ⟨w₀, w₁, w₂, hfirst, hopen, hcalls⟩ := trial_steps htrial
  obtain ⟨hwrites, hcheckpoint⟩ := checkpointed_steps hfirst
  have hcreated : History Config.pages []
      (Disk.created (Db.fresh (initializeHeader HeadsFile.zero Config.pages) 0)) := .create _ create_pages
  have hsaved := (hcreated.calls hwrites).checkpoint (returns_of_run hcheckpoint)
  have hopened := (hsaved.openDatabase .refl (returns_of_run hopen)).calls hcalls
  refine ⟨w₀, w₁, w₂, hopened.checkpoint (returns_of_run hrun), ?_⟩
  intro e he
  cases he with
  | head => exact trivial
  | tail _ he =>
    cases he with
    | head => exact ⟨Machine.pages, 0, 262144, enough_pages, hopen⟩
    | tail _ he =>
      rw [List.mem_singleton.mp he]
      exact trivial

/-- The second generation of a directory. -/
theorem checkpoint_recent_pages : ∃ events w before after, History Config.pages events w ∧
    .checkpoint before after (.ok 2) ∈ events ∧
    (readManifests before.db.headsFile).map Manifest.generation = [1] ∧
    (readManifests after.db.headsFile).map Manifest.generation = [2, 1] ∧
    Recent Config.pages before after (.ok 2) := by
  obtain ⟨⟨w, w'⟩, hsecond, -, hbefore, hafter, hrest⟩ := secondCheckpoint_runs
  obtain ⟨w'', hcalls, -⟩ := Option.bind_eq_some_iff.mp hrest
  obtain ⟨w₀, w₁, w₂, hhistory, hregular⟩ := secondCheckpoint_history hsecond
  have hmem : Event.checkpoint w w' (.ok 2) ∈
      [Event.checkpoint w w' (.ok 2), .opened w₁ w₂, .checkpoint w₀ w₁ (.ok 1)] := List.mem_cons_self
  exact ⟨_, w'', w, w', hhistory.calls hcalls, hmem, hbefore, hafter,
    (checkpoint_recent_iff Config.pages hhistory).2 hregular _ _ _ hmem⟩

/- Two checkpoints, a clean reopening, one more key: the third checkpoint succeeds as generation 1
   beside the valid generation 2, which is what `open` returns. -/
theorem checkpoint_behind : ∃ events w before after opened, History Config.small events w ∧
    .checkpoint before after (.ok 1) ∈ events ∧ ¬Recent Config.small before after (.ok 1) ∧
      (openDatabase Machine.small 262144).run 0 after = some (.ok Config.small, opened) ∧
        opened.db.checkpointGeneration = 2 := by
  have hcreate := create_small
  generalize hd : Db.fresh (initializeHeader HeadsFile.zero Config.small) 0 = d at hcreate
  have hrun : (do
      let first ← (checkpoint Config.small Machine.small).run 0 (Disk.created d)
      let second ← (checkpoint Config.small Machine.small).run 0 first.2
      let closed ← (close Config.small Machine.small).run 0 second.2.db
      let reopened ← (openRuntime (closed.2.directory Config.small)).toOption
      let put ← ((Op.put (List.replicate 16 7) [1, 2, 3]).program Config.small Machine.small).run 0 reopened.2
      let third ← (checkpoint Config.small Machine.small).run 0 { second.2 with db := put.2 }
      let opened ← (openDatabase Machine.small 262144).run 0 third.2
      some ([closed.1.toOption.map fun _ => 0, third.1.toOption], reopened.1, opened.1.toOption,
        (readManifests third.2.db.headsFile).map Manifest.generation, opened.2.db.checkpointGeneration)) =
      some ([some 0, some 1], Config.small, some Config.small, [2, 1], 2) := by
    rw [← hd]
    decide +kernel
  obtain ⟨⟨r₁, w₁⟩, hfirst, hrun⟩ := Option.bind_eq_some_iff.mp hrun
  obtain ⟨⟨r₂, w₂⟩, hsecond, hrun⟩ := Option.bind_eq_some_iff.mp hrun
  obtain ⟨⟨r₃, d₃⟩, hclose, hrun⟩ := Option.bind_eq_some_iff.mp hrun
  obtain ⟨⟨c, d₄⟩, hreopen, hrun⟩ := Option.bind_eq_some_iff.mp hrun
  obtain ⟨⟨r₅, d₅⟩, hput, hrun⟩ := Option.bind_eq_some_iff.mp hrun
  obtain ⟨⟨r₆, w₆⟩, hthird, hrun⟩ := Option.bind_eq_some_iff.mp hrun
  obtain ⟨⟨r₇, w₇⟩, hopen, hrun⟩ := Option.bind_eq_some_iff.mp hrun
  simp only [Option.some.injEq, Prod.mk.injEq] at hrun
  obtain ⟨hresults, rfl, hconfig, hgenerations, htwo⟩ := hrun
  simp only [List.cons.injEq, and_true] at hresults
  obtain ⟨hclosed, hone⟩ := hresults
  obtain ⟨_, hclosed, -⟩ := Option.map_eq_some_iff.mp hclosed
  obtain rfl := ok_of_toOption hclosed
  obtain rfl := ok_of_toOption hone
  obtain rfl := ok_of_toOption hconfig
  have hopened : openRuntime (d₃.directory Config.small) = .ok (Config.small, d₄) := ok_of_toOption hreopen
  have hhistory := ((((History.create (Disk.created d).banks hcreate).checkpoint (returns_of_run hfirst)).checkpoint
    (returns_of_run hsecond)).openRuntime (returns_of_run hclose) hopened).call _ (returns_of_run hput) |>.checkpoint
      (returns_of_run hthird)
  refine ⟨_, w₆, _, w₆, w₇, hhistory, List.mem_cons_self, ?_, hopen, htwo⟩
  intro hrecent
  obtain ⟨x, -, hx, -, hyounger, -⟩ := hrecent.newest 1 rfl
  have hmem : 2 ∈ (readManifests w₆.db.headsFile).map Manifest.generation := by
    rw [hgenerations]
    exact List.mem_cons_self
  obtain ⟨y, hy, hygen⟩ := List.mem_map.mp hmem
  have hne : y ≠ x := by
    intro heq
    rw [heq, hx] at hygen
    cases hygen
  have hlt := hyounger y hy hne
  omega

end Recency

end FlorestaDb
