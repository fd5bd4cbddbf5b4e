import FlorestaDb.Recovery

/-! `open`: the newest generation whose snapshot opens and validates is rebuilt, and when there
is none the runtime files stay as they are. -/
namespace FlorestaDb
open Program Program.Prog Allocator Chain

variable {cfg : Config} {m : Machine} {v : Env} {t : Tid} {w : Disk}

section Generations
variable {manifest : Manifest} {s : Store} {schains : Nat → List Nat}

/- The snapshot a manifest selects is present, its allocators open, and it validates against
   the checksum of the manifest. -/
structure Opens (cfg : Config) (w : Disk) (manifest : Manifest) (s : Store)
    (schains : Nat → List Nat) : Prop where
  present : (w.banks manifest.bank).present = true
  store : openStore cfg (w.banks manifest.bank).store = .ok s
  validated : Validated cfg (w.setStore (.bank manifest.bank) s) manifest.bank schains
  checksum : checksumOf cfg (w.setStore (.bank manifest.bank) s) manifest.bank schains =
    manifest.snapshotChecksum

/-- Files that open have sizes that could be created. -/
theorem openAllocator_create {capacity blockSize : Nat} {c : Cells} {r : Layout × Cells}
    (h : openAllocator capacity blockSize c = .ok r) :
    ∃ r', Allocator.create capacity blockSize = .ok r' := by
  obtain ⟨_, hlayout, h⟩ := bind_ok h
  obtain ⟨⟨data, count, blocks⟩, hlengths, h⟩ := bind_ok h
  obtain ⟨_, hdata, h⟩ := bind_ok h
  obtain ⟨_, hcount, -⟩ := bind_ok h
  obtain ⟨_, hdata, -⟩ := bind_ok hdata
  obtain ⟨_, hcount, -⟩ := bind_ok hcount
  refine ⟨(⟨capacity, blockSize, blocks⟩, Cells.created), ?_⟩
  rw [Allocator.create, hlayout, ok_bind, hlengths, ok_bind]
  dsimp only
  rw [hdata, ok_bind, hcount, ok_bind]
  rfl

theorem openStore_create {s s' : Store} (h : openStore cfg s = .ok s') :
    createStore cfg = .ok () := by
  obtain ⟨_, hbody, h⟩ := bind_ok h
  obtain ⟨_, hcreate⟩ := openAllocator_create hbody
  rw [createStore, hcreate, ok_bind]
  by_cases hm : cfg.mode = .map
  · rw [if_pos hm] at h ⊢
    obtain ⟨_, hblobs, -⟩ := bind_ok h
    obtain ⟨_, hcreate'⟩ := openAllocator_create hblobs
    rw [hcreate', ok_bind]
    rfl
  · rw [if_neg hm]
    rfl

theorem wp_osCallDisk {Q : Except Error Unit → Disk → Prop} :
    osCallDisk.wp v t Q w ↔ Q (.ok ()) w ∧ (v = .any → Q (.error .io) w) := by
  rw [osCallDisk, wp_choose, if_neg (by decide), if_pos rfl, wp_pure, wp_throw]

theorem validateSnapshot_total (cfg : Config) (w : Disk) (manifest : Manifest) :
    (validateSnapshot cfg manifest).wp v t (fun r w' => w' = w ∧ ∀ u, r = .ok u →
      ∃ schains, Validated cfg w manifest.bank schains ∧
        checksumOf cfg w manifest.bank schains = manifest.snapshotChecksum) w := by
  rw [validateSnapshot, wp_bind]
  refine wp_mono (snapshotChecksum_total cfg w manifest.bank) ?_
  rintro (e | c) w' ⟨rfl, hok⟩
  · rw [andThen_error]
    exact ⟨rfl, fun _ h => by cases h⟩
  · rw [andThen_ok]
    obtain ⟨schains, hval, hsum⟩ := hok c rfl
    by_cases hmatch : c ≠ manifest.snapshotChecksum
    · rw [if_pos hmatch, wp_throw]
      exact ⟨rfl, fun _ h => by cases h⟩
    · rw [if_neg hmatch, wp_pure]
      exact ⟨rfl, fun _ _ => ⟨schains, hval, hsum.symm.trans (not_not.mp hmatch)⟩⟩

theorem validateSnapshot_ok (hval : Validated cfg w manifest.bank schains)
    (hsum : checksumOf cfg w manifest.bank schains = manifest.snapshotChecksum)
    {Q : Except Error Unit → Disk → Prop} :
    (validateSnapshot cfg manifest).wp v t Q w ↔ Q (.ok ()) w := by
  rw [validateSnapshot, wp_bind, snapshotChecksum_ok hval, andThen_ok, if_neg (not_not.mpr hsum),
    wp_pure]

/-- The files of a bank are the same; at most its allocators were opened. -/
def Renewed (cfg : Config) (bank bank' : Bank) : Prop :=
  bank' = bank ∨ ∃ s, openStore cfg bank.store = .ok s ∧ bank' = { bank with store := s }

theorem openAllocator_idem {capacity blockSize : Nat} {c : Cells} {r : Layout × Cells}
    (h : openAllocator capacity blockSize c = .ok r) :
    openAllocator capacity blockSize r.2 = .ok r := by
  obtain ⟨_, hlayout, h⟩ := bind_ok h
  obtain ⟨⟨data, count, blocks⟩, hlengths, h⟩ := bind_ok h
  obtain ⟨_, hdata, h⟩ := bind_ok h
  obtain ⟨_, hcount, h⟩ := bind_ok h
  obtain ⟨_, hheader, h⟩ := bind_ok h
  obtain rfl := Except.ok.inj h
  have hheader' : validateHeader ⟨capacity, blockSize, blocks⟩
      { c with currentBlock := 0, currentWord := 0, guard := RwLock.free } = .ok () := hheader
  rw [openAllocator, hlayout, ok_bind, hlengths, ok_bind]
  dsimp only
  rw [hdata, ok_bind, hcount, ok_bind, hheader', ok_bind]
  rfl

theorem openStore_idem {s s' : Store} (h : openStore cfg s = .ok s') :
    openStore cfg s' = .ok s' := by
  obtain ⟨body, hbody, h⟩ := bind_ok h
  by_cases hm : cfg.mode = .map
  · rw [if_pos hm] at h
    obtain ⟨blobs, hblobs, h⟩ := bind_ok h
    obtain rfl := Except.ok.inj h
    rw [openStore, openAllocator_idem hbody, ok_bind, if_pos hm, openAllocator_idem hblobs, ok_bind]
    rfl
  · rw [if_neg hm] at h
    obtain rfl := Except.ok.inj h
    rw [openStore, openAllocator_idem hbody, ok_bind, if_neg hm]
    rfl

theorem Renewed.trans {x y z : Bank} (h : Renewed cfg x y) (h' : Renewed cfg y z) :
    Renewed cfg x z := by
  rcases h with rfl | ⟨s, hs, rfl⟩
  · exact h'
  · rcases h' with rfl | ⟨s', hs', rfl⟩
    · exact Or.inr ⟨s, hs, rfl⟩
    · obtain rfl := Except.ok.inj ((openStore_idem hs).symm.trans hs')
      exact Or.inr ⟨s, hs, rfl⟩

/-- Nothing but the allocators of one bank was opened. -/
structure Peeked (cfg : Config) (bank : Nat) (w w' : Disk) : Prop where
  db : w'.db = w.db
  banks : ∀ b, b ≠ bank → w'.banks b = w.banks b
  renewed : Renewed cfg (w.banks bank) (w'.banks bank)

theorem Peeked.refl (cfg : Config) (bank : Nat) (w : Disk) : Peeked cfg bank w w :=
  ⟨rfl, fun _ _ => rfl, Or.inl rfl⟩

theorem peeked_setStore {bank : Nat} (h : openStore cfg (w.banks bank).store = .ok s) :
    Peeked cfg bank w (w.setStore (.bank bank) s) :=
  ⟨rfl, fun _ hb => Function.update_of_ne hb _ _, Or.inr ⟨s, h, Function.update_self _ _ _⟩⟩

/-- A manifest whose snapshot does not open or validate changes no runtime file. -/
theorem openGeneration_fails (hnone : ¬∃ s schains, Opens cfg w manifest s schains) :
    (openGeneration cfg m manifest).wp v t (fun r w' => (∃ e, r = .error e) ∧
      Peeked cfg manifest.bank w w') w := by
  rw [openGeneration, wp_bind, wp_osCallDisk, andThen_ok, andThen_error, wp_bind, openSnapshot,
    wp_bind, wp_osCallDisk, andThen_ok, andThen_error, wp_atomic]
  refine ⟨⟨?_, fun _ => ⟨⟨_, rfl⟩, .refl cfg _ w⟩⟩, fun _ => ⟨⟨_, rfl⟩, .refl cfg _ w⟩⟩
  by_cases hpresent : (w.banks manifest.bank).present = true
  · rw [if_pos hpresent]
    cases hstore : openStore cfg (w.banks manifest.bank).store with
    | error e => exact ⟨.error e, w, rfl, ⟨e, rfl⟩, .refl cfg _ w⟩
    | ok s =>
      refine ⟨.ok (), _, rfl, ?_⟩
      rw [andThen_ok, wp_bind]
      refine wp_mono (validateSnapshot_total cfg _ manifest) ?_
      rintro (e | u) _ ⟨rfl, hok⟩
      · rw [andThen_error]
        exact ⟨⟨e, rfl⟩, peeked_setStore hstore⟩
      · obtain ⟨schains, hval, hsum⟩ := hok u rfl
        exact absurd ⟨s, schains, hpresent, hstore, hval, hsum⟩ hnone
  · rw [if_neg hpresent]
    exact ⟨.error .io, w, rfl, ⟨_, rfl⟩, .refl cfg _ w⟩

/-- The handle of a database that was rebuilt from the generation of `manifest`. -/
structure Reborn (cfg : Config) (w : Disk) (manifest : Manifest) (T : Nat → List (Key × List UInt8))
    (w' : Disk) : Prop where
  idle : Idle w'.db
  generation : w'.db.checkpointGeneration = manifest.generation
  headsFile : w'.db.headsFile = w.db.headsFile
  banks : ∀ b, Renewed cfg (w.banks b) (w'.banks b)
  holds : Holds cfg w'.db.store w'.db.runtimeHeads T

/-- What an open leaves of the directory, whatever became of the runtime files. -/
structure Retained (cfg : Config) (w w' : Disk) : Prop where
  headsFile : w'.db.headsFile = w.db.headsFile
  banks : ∀ b, Renewed cfg (w.banks b) (w'.banks b)

theorem Retained.refl (cfg : Config) (w : Disk) : Retained cfg w w := ⟨rfl, fun _ => Or.inl rfl⟩

theorem Retained.trans {w' w'' : Disk} (h : Retained cfg w w') (h' : Retained cfg w' w'') : Retained cfg w w'' :=
  ⟨h'.headsFile.trans h.headsFile, fun b => (h.banks b).trans (h'.banks b)⟩

theorem Peeked.retained {w' : Disk} {bank : Nat} (h : Peeked cfg bank w w') : Retained cfg w w' := by
  refine ⟨congrArg Db.headsFile h.db, ?_⟩
  intro b
  by_cases hb : b = bank
  · rw [hb]
    exact h.renewed
  · exact Or.inl (h.banks b hb)

theorem Reborn.retained {w' : Disk} {T : Nat → List (Key × List UInt8)} (h : Reborn cfg w manifest T w') :
    Retained cfg w w' := ⟨h.headsFile, h.banks⟩

theorem openGeneration_opens (hv : cfg.Valid) (h : Opens cfg w manifest s schains)
    (hf : v = .fair → m.Enough cfg) :
    (openGeneration cfg m manifest).wp v t (fun r w' =>
      (r = .ok () ∧ Reborn cfg w manifest (recovered cfg s schains) w') ∨
      ∃ e, r = .error e ∧ Refusal v e ∧ Retained cfg w w' ∧
        (Recoverable cfg s schains → v = .any ∧ e = .io)) w := by
  have hstore : ((w.setStore (.bank manifest.bank) s).banks manifest.bank).store = s :=
    w.store_setStore (.bank manifest.bank) s
  have hcreate := openStore_create h.store
  have hr : cfg.Ready := ⟨hv, createStore_blob hcreate⟩
  have hopened := (peeked_setStore h.store).retained
  have hio : ∀ w' : Disk, Retained cfg w w' → v = .any → (((.error .io : Except Error Unit) = .ok () ∧
      Reborn cfg w manifest (recovered cfg s schains) w') ∨
      ∃ e, (.error .io : Except Error Unit) = .error e ∧ Refusal v e ∧ Retained cfg w w' ∧
        (Recoverable cfg s schains → v = .any ∧ e = .io)) := fun w' hp hv =>
    Or.inr ⟨.io, rfl, Or.inr ⟨hv, rfl⟩, hp, fun _ => ⟨hv, rfl⟩⟩
  rw [openGeneration, wp_bind, wp_osCallDisk, andThen_ok, andThen_error, wp_bind, openSnapshot,
    wp_bind, wp_osCallDisk, andThen_ok, andThen_error, wp_atomic, if_pos h.present, h.store]
  refine ⟨⟨⟨.ok (), _, rfl, ?_⟩, hio _ (.refl cfg w)⟩, hio _ (.refl cfg w)⟩
  rw [andThen_ok, wp_bind, validateSnapshot_ok h.validated h.checksum, andThen_ok, wp_bind,
    wp_osCallDisk, andThen_ok, andThen_error]
  refine ⟨?_, hio _ hopened⟩
  rw [wp_bind, replaceRuntime, wp_bind, wp_osCallDisk, andThen_ok, andThen_error]
  refine ⟨?_, hio _ hopened⟩
  rw [wp_bind, wp_step, andThen_ok, hcreate, wp_bind, wp_ofExcept, andThen_ok, wp_bind, wp_osCallDisk,
    andThen_ok, andThen_error]
  refine ⟨?_, hio _ ⟨hopened.headsFile, hopened.banks⟩⟩
  rw [wp_step, andThen_ok]
  refine wp_mono (rebuildRuntime_spec hr ⟨h.validated.root, h.validated.chain⟩ rfl hf) ?_
  rintro r _ ⟨d', rfl, hframe, hout⟩
  have hfile : d'.headsFile = w.db.headsFile := by
    rw [hframe]
    rfl
  rcases hout with ⟨rfl, hholds⟩ | ⟨e, rfl, he, hfits⟩
  · refine Or.inl ⟨rfl, ?_, ?_, hfile, hopened.banks, ?_⟩
    · exact Idle.frame ⟨rfl, fun _ => rfl, rfl, rfl⟩ hframe
    · rw [hframe]
      rfl
    · rw [← hstore]
      exact hholds
  · refine Or.inr ⟨e, rfl, he, ⟨hfile, hopened.banks⟩, ?_⟩
    rw [← hstore]
    exact hfits

theorem ChainOk.unique {s : Store} {b root : Nat} {l l' : List Nat} (h : ChainOk cfg s b root l)
    (h' : ChainOk cfg s b root l') : l = l' := h.chain.unique h'.chain

/-- What a manifest opens to is determined by the files. -/
theorem Opens.unique {s' : Store} {schains' : Nat → List Nat} (h : Opens cfg w manifest s schains)
    (h' : Opens cfg w manifest s' schains') :
    s' = s ∧ recovered cfg s schains' = recovered cfg s schains ∧
      (Recoverable cfg s schains' ↔ Recoverable cfg s schains) := by
  obtain rfl : s' = s := Except.ok.inj (h'.store.symm.trans h.store)
  have heq : ∀ b < cfg.bucketCount, schains' b = schains b := fun b hb =>
    (h'.validated.chain b (List.mem_range.mpr hb)).unique (h.validated.chain b (List.mem_range.mpr hb))
  have hnodes : snapshotNodes cfg schains' = snapshotNodes cfg schains :=
    List.flatMap_congr fun b hb => heq b (List.mem_range.mp hb)
  refine ⟨rfl, ?_, ?_⟩
  · funext b
    by_cases hb : b < cfg.bucketCount
    · rw [recovered, recovered, if_pos hb, if_pos hb, content, content, heq b hb]
    · rw [recovered, recovered, if_neg hb, if_neg hb]
  · rw [Recoverable, Recoverable, hnodes]

/-- Another bank does not matter. -/
theorem Opens.peeked {w' : Disk} {bank : Nat} (hu : Peeked cfg bank w w')
    (hne : manifest.bank ≠ bank) : Opens cfg w' manifest s schains ↔ Opens cfg w manifest s schains := by
  have hbank := hu.banks manifest.bank hne
  have hroot : ∀ b, snapshotRoot cfg (w'.setStore (.bank manifest.bank) s).db.headsFile manifest.bank b =
      snapshotRoot cfg (w.setStore (.bank manifest.bank) s).db.headsFile manifest.bank b := by
    intro b
    have hfile : (w'.setStore (.bank manifest.bank) s).db.headsFile =
        (w.setStore (.bank manifest.bank) s).db.headsFile := by
      change w'.db.headsFile = w.db.headsFile
      rw [hu.db]
    rw [hfile]
  have hstore : ((w'.setStore (.bank manifest.bank) s).banks manifest.bank).store =
      ((w.setStore (.bank manifest.bank) s).banks manifest.bank).store :=
    (w'.store_setStore (.bank manifest.bank) s).trans (w.store_setStore (.bank manifest.bank) s).symm
  have hval : Validated cfg (w'.setStore (.bank manifest.bank) s) manifest.bank schains ↔
      Validated cfg (w.setStore (.bank manifest.bank) s) manifest.bank schains := by
    constructor
    · intro h
      exact ⟨h.root, fun b hb => hstore ▸ hroot b ▸ h.chain b hb⟩
    · intro h
      exact ⟨h.root, fun b hb => hstore ▸ hroot b ▸ h.chain b hb⟩
  have hsum : checksumOf cfg (w'.setStore (.bank manifest.bank) s) manifest.bank schains =
      checksumOf cfg (w.setStore (.bank manifest.bank) s) manifest.bank schains := by
    simp only [checksumOf, mixBuckets, hstore, hroot]
  constructor
  · intro h
    exact ⟨hbank ▸ h.present, hbank ▸ h.store, hval.mp h.validated, hsum.symm.trans h.checksum⟩
  · intro h
    exact ⟨hbank ▸ h.present, hbank ▸ h.store, hval.mpr h.validated, hsum.trans h.checksum⟩

/-- The first manifest of the list whose snapshot opens. -/
def Selects (cfg : Config) (w : Disk) (ms : List Manifest) (manifest : Manifest) (s : Store)
    (schains : Nat → List Nat) : Prop :=
  ∃ before after, ms = before ++ manifest :: after ∧
    (∀ x ∈ before, ¬∃ s schains, Opens cfg w x s schains) ∧ Opens cfg w manifest s schains

theorem openFirst_spec (hv : cfg.Valid) {ms : List Manifest} (hnd : (ms.map Manifest.bank).Nodup)
    (first : Option Error) (hf : v = .fair → m.Enough cfg) :
    (openFirst cfg m ms first).wp v t (fun r w' =>
      ((∀ x ∈ ms, ¬∃ s schains, Opens cfg w x s schains) → (∃ e, r = .error e) ∧ w'.db = w.db) ∧
      ∀ manifest s schains, Selects cfg w ms manifest s schains → Recoverable cfg s schains →
        v = .fair → r = .ok cfg ∧ Reborn cfg w manifest (recovered cfg s schains) w') w := by
  induction ms generalizing w first with
  | nil =>
    rw [openFirst, wp_throw]
    refine ⟨fun _ => ⟨⟨_, rfl⟩, rfl⟩, ?_⟩
    rintro manifest s schains ⟨before, after, hms, -⟩
    cases before with
    | nil => cases hms
    | cons x before => cases hms
  | cons x rest ih =>
    obtain ⟨hnot, hnd'⟩ := List.nodup_cons.mp hnd
    rw [openFirst, wp_bind, wp_attempt]
    by_cases hopens : ∃ s schains, Opens cfg w x s schains
    · obtain ⟨s, schains, hopens⟩ := hopens
      refine wp_mono (openGeneration_opens hv hopens hf) ?_
      -- an opened generation is the one that is selected
      have hfirst : ∀ manifest s' schains', Selects cfg w (x :: rest) manifest s' schains' →
          manifest = x ∧ Opens cfg w x s' schains' := by
        rintro manifest s' schains' ⟨before, after, hms, hbefore, hsel⟩
        cases before with
        | nil =>
          obtain ⟨rfl, -⟩ := List.cons.inj hms
          exact ⟨rfl, hsel⟩
        | cons y before =>
          obtain ⟨rfl, -⟩ := List.cons.inj hms
          exact absurd ⟨s, schains, hopens⟩ (hbefore x List.mem_cons_self)
      rintro r w' (⟨rfl, hborn⟩ | ⟨e, rfl, -, -, hfits⟩)
      · rw [andThen_ok]
        dsimp only
        rw [wp_pure]
        refine ⟨fun hall => absurd ⟨s, schains, hopens⟩ (hall x List.mem_cons_self), ?_⟩
        intro manifest s' schains' hsel _ _
        obtain ⟨rfl, hopens'⟩ := hfirst manifest s' schains' hsel
        obtain ⟨rfl, hrec, -⟩ := hopens.unique hopens'
        rw [hrec]
        exact ⟨rfl, hborn⟩
      · rw [andThen_ok]
        refine wp_mono (ih hnd' _) ?_
        intro r w'' _
        refine ⟨fun hall => absurd ⟨s, schains, hopens⟩ (hall x List.mem_cons_self), ?_⟩
        intro manifest s' schains' hsel hrecover hfair
        obtain ⟨rfl, hopens'⟩ := hfirst manifest s' schains' hsel
        obtain ⟨rfl, -, hiff⟩ := hopens.unique hopens'
        have hany := (hfits (hiff.mp hrecover)).1
        rw [hfair] at hany
        cases hany
    · refine wp_mono (openGeneration_fails hopens) ?_
      rintro r w' ⟨⟨e, rfl⟩, hu⟩
      rw [andThen_ok]
      have hsame : ∀ y ∈ rest, ∀ s schains, Opens cfg w' y s schains ↔ Opens cfg w y s schains :=
        fun y hy s schains => Opens.peeked hu fun heq => hnot (heq ▸ List.mem_map_of_mem hy)
      refine wp_mono (ih hnd' _) ?_
      rintro r w'' ⟨hnone, hsome⟩
      refine ⟨fun hall => ?_, ?_⟩
      · obtain ⟨herr, hdb⟩ := hnone fun y hy => by
          simp only [hsame y hy]
          exact hall y (List.mem_cons_of_mem _ hy)
        exact ⟨herr, hdb.trans hu.db⟩
      · rintro manifest s' schains' ⟨before, after, hms, hbefore, hsel⟩ hrecover hfair
        cases before with
        | nil =>
          obtain ⟨rfl, -⟩ := List.cons.inj hms
          exact absurd ⟨s', schains', hsel⟩ hopens
        | cons y before =>
          obtain ⟨rfl, rfl⟩ := List.cons.inj hms
          have hmem : manifest ∈ before ++ manifest :: after := by simp
          obtain ⟨hr, hborn⟩ := hsome manifest s' schains' ⟨before, after, rfl, fun z hz => by
            simp only [hsame z (List.mem_append_left _ hz)]
            exact hbefore z (List.mem_cons_of_mem _ hz), (hsame manifest hmem _ _).mpr hsel⟩ hrecover hfair
          have hretained := hu.retained.trans hborn.retained
          exact ⟨hr, hborn.idle, hborn.generation, hretained.headsFile, hretained.banks, hborn.holds⟩

/- A handle that was rebuilt from one of the generations of a list, whatever was tried before. -/
structure Woken (cfg : Config) (ms : List Manifest) (w w' : Disk) : Prop where
  store : createStore cfg = .ok ()
  idle : Idle w'.db
  source : ∃ manifest ∈ ms, w'.db.checkpointGeneration = manifest.generation ∧
    ∃ w₁ s schains, Retained cfg w w₁ ∧ Opens cfg w₁ manifest s schains ∧
      Holds cfg w'.db.store w'.db.runtimeHeads (recovered cfg s schains)

theorem Woken.holds {ms : List Manifest} {w' : Disk} (h : Woken cfg ms w w') :
    ∃ T, Holds cfg w'.db.store w'.db.runtimeHeads T := by
  obtain ⟨-, -, -, -, s, schains, -, -, hholds⟩ := h.source
  exact ⟨_, hholds⟩

theorem Woken.generation {ms : List Manifest} {w' : Disk} (h : Woken cfg ms w w') :
    ∃ manifest ∈ ms, w'.db.checkpointGeneration = manifest.generation := by
  obtain ⟨manifest, hmem, hgen, -⟩ := h.source
  exact ⟨manifest, hmem, hgen⟩

/-- A handle that `open` returns, whatever failed before. -/
theorem openFirst_any (hv : cfg.Valid) {ms : List Manifest} (first : Option Error) :
    (openFirst cfg m ms first).wp .any t
      (fun r w' => Retained cfg w w' ∧ ∀ c, r = .ok c → c = cfg ∧ Woken cfg ms w w') w := by
  induction ms generalizing w first with
  | nil =>
    rw [openFirst, wp_throw]
    exact ⟨.refl cfg w, fun c hc => by cases hc⟩
  | cons x rest ih =>
    have hnext : ∀ w', Retained cfg w w' → ∀ first, (openFirst cfg m rest first).wp .any t
        (fun r w' => Retained cfg w w' ∧ ∀ c, r = .ok c → c = cfg ∧ Woken cfg (x :: rest) w w') w' := by
      intro w' hretained first
      refine wp_mono (ih first) ?_
      intro r w'' hr
      refine ⟨hretained.trans hr.1, ?_⟩
      intro c hc
      obtain ⟨hcfg, hwoken⟩ := hr.2 c hc
      obtain ⟨manifest, hmem, hgen, w₁, s, schains, hbetween, hsource⟩ := hwoken.source
      exact ⟨hcfg, hwoken.store, hwoken.idle, manifest, List.mem_cons_of_mem _ hmem, hgen, w₁, s, schains,
        hretained.trans hbetween, hsource⟩
    rw [openFirst, wp_bind, wp_attempt]
    by_cases hopens : ∃ s schains, Opens cfg w x s schains
    · obtain ⟨s, schains, hopens⟩ := hopens
      refine wp_mono (openGeneration_opens hv hopens (fun hv => by cases hv)) ?_
      intro r w' hr
      rcases hr with ⟨rfl, hborn⟩ | ⟨e, rfl, -, hretained, -⟩
      · rw [andThen_ok]
        refine ⟨hborn.retained, ?_⟩
        intro c hc
        obtain rfl := Except.ok.inj hc
        exact ⟨rfl, openStore_create hopens.store, hborn.idle, x, List.mem_cons_self, hborn.generation, w, s,
          schains, .refl cfg w, hopens, hborn.holds⟩
      · exact hnext w' hretained _
    · refine wp_mono (openGeneration_fails hopens) ?_
      intro r w' hr
      obtain ⟨⟨e, rfl⟩, hpeeked⟩ := hr
      exact hnext w' hpeeked.retained _

end Generations

section Open
variable {f : HeadsFile} {manifest : Manifest}

theorem readManifest_bank {bank : Nat} (h : readManifest f bank = some manifest) :
    manifest.bank = bank ∧ manifest.generation % 2 = bank := by
  simp only [readManifest] at h
  split at h
  · cases h
  · split at h
    · cases h
    · rename_i hok
      rw [not_or, not_or, not_not, not_not] at hok
      cases h
      exact ⟨rfl, hok.2.1⟩

theorem mem_readManifests : manifest ∈ readManifests f ↔
    readManifest f 0 = some manifest ∨ readManifest f 1 = some manifest := by
  rw [readManifests]
  cases h0 : readManifest f 0 with
  | none =>
    cases h1 : readManifest f 1 with
    | none => simp
    | some right => simp [eq_comm]
  | some left =>
    cases h1 : readManifest f 1 with
    | none => simp [eq_comm]
    | some right =>
      by_cases hgt : right.generation > left.generation
      · simp only [if_pos hgt, List.mem_cons, List.not_mem_nil, or_false, Option.some.injEq]
        rw [or_comm, eq_comm, eq_comm (a := manifest)]
      · simp only [if_neg hgt, List.mem_cons, List.not_mem_nil, or_false, Option.some.injEq]
        rw [eq_comm, eq_comm (a := manifest)]

/-- The two banks hold generations of different parity, so the newest one is unique. -/
theorem readManifests_sorted (f : HeadsFile) :
    (readManifests f).Pairwise (fun a b => b.generation < a.generation) ∧
      ((readManifests f).map Manifest.bank).Nodup := by
  rw [readManifests]
  cases h0 : readManifest f 0 with
  | none =>
    cases h1 : readManifest f 1 with
    | none => simp
    | some right => simp
  | some left =>
    cases h1 : readManifest f 1 with
    | none => simp
    | some right =>
      obtain ⟨hb0, hg0⟩ := readManifest_bank h0
      obtain ⟨hb1, hg1⟩ := readManifest_bank h1
      by_cases hgt : right.generation > left.generation
      · simp [if_pos hgt, hb0, hb1]
        omega
      · simp [if_neg hgt, hb0, hb1]
        omega

/-- The newest of the valid manifests whose snapshots open. -/
structure Newest (cfg : Config) (w : Disk) (manifest : Manifest) (s : Store)
    (schains : Nat → List Nat) : Prop where
  mem : manifest ∈ readManifests w.db.headsFile
  opens : Opens cfg w manifest s schains
  newest : ∀ x ∈ readManifests w.db.headsFile, (∃ s schains, Opens cfg w x s schains) →
    x.generation ≤ manifest.generation

theorem Newest.selects {s : Store} {schains : Nat → List Nat} (h : Newest cfg w manifest s schains) :
    Selects cfg w (readManifests w.db.headsFile) manifest s schains := by
  obtain ⟨before, after, hsplit⟩ := List.append_of_mem h.mem
  refine ⟨before, after, hsplit, ?_, h.opens⟩
  intro x hx hopens
  have hsorted := (readManifests_sorted w.db.headsFile).1
  have hmem : x ∈ readManifests w.db.headsFile := by
    rw [hsplit]
    exact List.mem_append_left _ hx
  have hle := h.newest x hmem hopens
  rw [hsplit, List.pairwise_append] at hsorted
  have hlt := hsorted.2.2 x hx manifest List.mem_cons_self
  omega

/-- `open` takes the newest generation that validates, or leaves the runtime files alone. -/
theorem openDatabase_spec {length : Nat} (hcfg : readConfig w.db.headsFile = .ok cfg)
    (hv : cfg.Valid) (hlength : headsLength cfg.bucketCount = .ok length)
    (hmapping : validateMappingLength length = .ok ()) (hf : v = .fair → m.Enough cfg) :
    (openDatabase m length).wp v t (fun r w' =>
      ((∀ x ∈ readManifests w.db.headsFile, ¬∃ s schains, Opens cfg w x s schains) →
        (∃ e, r = .error e) ∧ w'.db = w.db) ∧
      ∀ manifest s schains, Newest cfg w manifest s schains → Recoverable cfg s schains →
        v = .fair → r = .ok cfg ∧ Reborn cfg w manifest (recovered cfg s schains) w') w := by
  rw [openDatabase, wp_bind, wp_osCallDisk, andThen_ok, andThen_error]
  refine ⟨?_, fun hv => ⟨fun _ => ⟨⟨_, rfl⟩, rfl⟩, fun _ _ _ _ _ hfair => ?_⟩⟩
  · rw [wp_bind, wp_ofExcept, hmapping, andThen_ok, wp_bind, wp_step, andThen_ok, wp_bind, wp_ofExcept,
      hcfg, andThen_ok, wp_bind, wp_ofExcept, hlength, andThen_ok, if_neg (not_not.mpr rfl)]
    refine wp_mono (openFirst_spec hv (readManifests_sorted w.db.headsFile).2 none hf) ?_
    rintro r w' ⟨hnone, hsome⟩
    exact ⟨hnone, fun manifest s schains hnew => hsome manifest s schains hnew.selects⟩
  · rw [hv] at hfair
    cases hfair

/-- A handle that was opened on the directory of `w`. -/
structure Roused (cfg : Config) (length : Nat) (w w' : Disk) : Prop where
  accepted : cfg.Accepted
  config : readConfig w.db.headsFile = .ok cfg
  headsLength : headsLength cfg.bucketCount = .ok length
  retained : Retained cfg w w'
  woken : Woken cfg (readManifests w.db.headsFile) w w'

/-- Whatever the files are and whatever system call fails: the directory keeps its heads file and
its snapshots, and a handle that is returned is at rest. -/
theorem openDatabase_any {length : Nat} :
    (openDatabase m length).wp .any t (fun r w' =>
      (∀ cfg, readConfig w.db.headsFile = .ok cfg → Retained cfg w w') ∧
        ∀ cfg, r = .ok cfg → Roused cfg length w w') w := by
  have hrefused : ∀ e : Error, (∀ cfg, readConfig w.db.headsFile = .ok cfg → Retained cfg w w) ∧
      ∀ cfg, (.error e : Except Error Config) = .ok cfg → Roused cfg length w w := by
    intro e
    refine ⟨fun cfg _ => .refl cfg w, ?_⟩
    intro cfg hcfg
    cases hcfg
  rw [openDatabase, wp_bind, wp_osCallDisk, andThen_ok, andThen_error]
  refine ⟨?_, fun _ => hrefused _⟩
  rw [wp_bind, wp_ofExcept]
  cases hmapping : validateMappingLength length with
  | error e => exact hrefused e
  | ok u =>
    rw [andThen_ok, wp_bind, wp_step, andThen_ok, wp_bind, wp_ofExcept]
    generalize hread : readConfig w.db.headsFile = read at hrefused ⊢
    cases read with
    | error e => exact hrefused e
    | ok cfg =>
      rw [andThen_ok, wp_bind, wp_ofExcept]
      cases hlength : FlorestaDb.headsLength cfg.bucketCount with
      | error e => exact hrefused e
      | ok n =>
        rw [andThen_ok]
        by_cases hne : n ≠ length
        · rw [if_pos hne, wp_throw]
          exact hrefused _
        · obtain rfl : n = length := not_not.mp hne
          have hvalidate := (readConfig_body hread).1
          rw [if_neg hne]
          refine wp_mono (openFirst_any (Config.validate_ok hvalidate) none) ?_
          intro r w' hr
          refine ⟨?_, ?_⟩
          · intro c hc
            obtain rfl := Except.ok.inj hc
            exact hr.1
          · intro c hc
            obtain ⟨rfl, hwoken⟩ := hr.2 c hc
            exact ⟨⟨hvalidate, ⟨_, hlength, hmapping⟩, hwoken.store⟩, hread, hlength, hr.1, hwoken⟩

/-- A heads file that is not accepted is left alone with everything else. -/
theorem openDatabase_rejected {length : Nat}
    (hbad : ∀ cfg, readConfig w.db.headsFile = .ok cfg → headsLength cfg.bucketCount ≠ .ok length ∨
      validateMappingLength length ≠ .ok ()) :
    (openDatabase m length).wp v t (fun r w' => (∃ e, r = .error e) ∧ w' = w) w := by
  rw [openDatabase, wp_bind, wp_osCallDisk, andThen_ok, andThen_error]
  refine ⟨?_, fun _ => ⟨⟨_, rfl⟩, rfl⟩⟩
  rw [wp_bind, wp_ofExcept]
  cases hmapping : validateMappingLength length with
  | error e => exact ⟨⟨e, rfl⟩, rfl⟩
  | ok u =>
    rw [andThen_ok, wp_bind, wp_step, andThen_ok, wp_bind, wp_ofExcept]
    cases hcfg : readConfig w.db.headsFile with
    | error e => exact ⟨⟨e, rfl⟩, rfl⟩
    | ok cfg =>
      rw [andThen_ok, wp_bind, wp_ofExcept]
      cases hlength : headsLength cfg.bucketCount with
      | error e => exact ⟨⟨e, rfl⟩, rfl⟩
      | ok n =>
        rw [andThen_ok]
        by_cases hne : n ≠ length
        · rw [if_pos hne, wp_throw]
          exact ⟨⟨_, rfl⟩, rfl⟩
        · rcases hbad cfg hcfg with h | h
          · rw [not_not.mp hne] at hlength
            exact absurd hlength h
          · exact absurd hmapping h

end Open

end FlorestaDb
