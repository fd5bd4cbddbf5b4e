import FlorestaDb.Undisturbed

/-! A whole checkpoint that runs alone: what it records of the runtime, and the errors it can end
in. -/
namespace FlorestaDb
open Program Program.Prog Allocator Chain

variable {cfg : Config} {m : Machine} {t : Tid} {w w₁ w₂ : Disk} {bank generation : Nat} {α : Type}

/-- A part of which only its frame is needed. -/
theorem ends_confined {E : Error → Prop} {p : DiskM α} (hp : Within (BankOnly cfg bank) p)
    (ht : p.Throws E) : p.Ends Alone t E (fun _ w' => BankOnly cfg bank w w') w := by
  have hframe : p.Yields Alone t (fun _ w' => BankOnly cfg bank w w') w :=
    wlp_mono (wlp_within (BankOnly.refl cfg bank) BankOnly.trans hp) fun _ _ h _ _ => h
  exact hframe.ends ht

section Finish
variable {schains : Nat → List Nat} {nodes : List Nat}

theorem syncSnapshot_alone (ha : cfg.Accepted) (h : Copies cfg (w.banks bank).store nodes none) :
    (syncSnapshot cfg m bank).Ends Alone t OfSystem (fun _ _ => True) w := by
  rw [syncSnapshot]
  refine ends_seq (wlp_place (syncBody_spec ha.ready h)) ?_ ?_
  · intro e w' hr
    obtain ⟨s', -, herror, -⟩ := hr
    exact herror e rfl
  intro _ w' hbody
  obtain ⟨s', rfl, -, -, hcopies, hclosed⟩ := hbody
  have hblobs := syncBlobs_spec (m := m) (t := t) ha.ready hcopies hclosed
  rw [← w.store_setStore (.bank bank) s'] at hblobs
  refine ends_seq (wlp_place hblobs) ?_ ?_
  · intro e w' hr
    obtain ⟨s'', -, herror, -⟩ := hr
    exact herror e rfl
  · intro _ w' _
    exact wlp_alone ((wp_atomic _).mpr ⟨_, _, rfl, trivial⟩)

/-- Behind the copies only a system call can fail. -/
theorem finish_alone (ha : cfg.Accepted) (hval : Validated cfg w (generation % 2) schains)
    (hcopies : Copies cfg (w.banks (generation % 2)).store nodes none) :
    (do
      let checksum ← snapshotChecksum cfg (generation % 2)
      syncSnapshot cfg m (generation % 2)
      syncNamespace
      onDb syncHeads
      writeManifest ⟨generation, generation % 2, checksum⟩
      onDb syncHeads
      if ← casGeneration w.db.checkpointGeneration generation then return generation
      else throw (.corrupt "checkpoint generation changed unexpectedly") : DiskM Nat).Ends
      Alone t OfSystem (fun _ _ => True) w := by
  have hbank : generation % 2 ≤ 1 := by omega
  have hsum : (snapshotChecksum cfg (generation % 2)).wlp Alone t
      (fun r w' => r = .ok (checksumOf cfg w (generation % 2) schains) ∧ w' = w) w :=
    wlp_alone ((snapshotChecksum_ok hval).mpr ⟨rfl, rfl⟩)
  refine ends_seq hsum (fun e _ he => by cases he.1) ?_
  intro checksum w' hchecked
  obtain ⟨-, rfl⟩ := hchecked
  have hpart : ∀ {p : DiskM Unit} {w : Disk}, Within (BankOnly cfg (generation % 2)) p → p.Throws OfSystem →
      p.Ends Alone t OfSystem (fun _ w' => BankOnly cfg (generation % 2) w w') w := ends_confined
  refine (confined_ends (syncSnapshot_alone ha hcopies) BankOnly.admits.syncSnapshot).seq ?_
  intro _ w₁ h₁
  refine (hpart within_syncNamespace throws_syncNamespace).seq ?_
  intro _ w₂ h₂
  refine (hpart within_syncHeads throws_syncHeads).seq ?_
  intro _ w₃ h₃
  refine (hpart (within_writeManifest checksum) (throws_writeManifest hbank)).seq ?_
  intro _ w₄ h₄
  refine (hpart within_syncHeads throws_syncHeads).seq ?_
  intro _ w₅ h₅
  have hsame : w₅.db.checkpointGeneration = w'.db.checkpointGeneration := by
    rw [((((h₁.2.trans h₂).trans h₃).trans h₄).trans h₅).db]
  have hcas : (casGeneration w'.db.checkpointGeneration generation).wlp Alone t
      (fun r _ => r = .ok true) w₅ := wlp_alone ((wp_atomic _).mpr ⟨_, _, if_pos hsame, rfl⟩)
  refine ends_seq hcas (fun e _ he => by cases he) ?_
  intro won _ hwon
  obtain rfl := Except.ok.inj hwon
  exact ends_pure trivial

end Finish

section Whole
variable {chains : Nat → List Nat} {fits : Prop}

/-- The errors of a checkpoint: the generations are used up, or a copy was declined. -/
def Excused (fits : Prop) (e : Error) : Prop :=
  e = .capacityExhausted "checkpoint generation" ∨ Declined fits e

theorem Excused.refusal {e : Error} (h : Excused fits e) : Refusal .any e := by
  cases h with
  | inl hgeneration =>
    rw [hgeneration]
    exact Or.inl rfl
  | inr hdeclined =>
    cases hdeclined with
    | inl hio => exact Or.inr ⟨rfl, hio⟩
    | inr hcapacity => exact Or.inl hcapacity.1

theorem BankOnly.runtime (h : BankOnly cfg bank w w₁) :
    w₁.db.store = w.db.store ∧ w₁.db.runtimeHeads = w.db.runtimeHeads := by
  rw [h.db]
  exact ⟨rfl, rfl⟩

/-- The saved snapshot of the chains of a runtime. -/
structure Recorded (cfg : Config) (s : Store) (chains : Nat → List Nat) (generation : Nat)
    (schains : Nat → List Nat) (w : Disk) : Prop where
  saved : Saved cfg w generation schains
  newest : ∀ b < cfg.bucketCount, content cfg (w.banks (generation % 2)).store schains b =
    Buckets.firsts (content cfg s chains b)

theorem checkpointInner_alone (ha : cfg.Accepted)
    (howned : Owned cfg w.db.store w.db.runtimeHeads chains ∅ ∅ ∅)
    (hroom : fits → Roomy cfg w.db.store (reachableNodes cfg chains) (reachableNodes cfg chains).length) :
    (checkpointInner cfg m).Ends Alone t (Excused fits) (fun g w' =>
      g = w.db.checkpointGeneration + 1 ∧ w'.db.checkpointGeneration = g ∧
        ∃ schains, Recorded cfg w.db.store chains g schains w') w := by
  have hsystem : ∀ e, OfSystem e → Excused fits e := fun e he => Or.inr (Or.inl he)
  rw [checkpointInner]
  have hload : loadGeneration.Ends Alone t (Excused fits)
      (fun previous w' => previous = w.db.checkpointGeneration ∧ w' = w) w := by
    apply wlp_alone
    exact (wp_atomic _).mpr ⟨_, _, rfl, rfl, rfl⟩
  refine hload.seq ?_
  intro previous w' hprevious
  obtain ⟨rfl, rfl⟩ := hprevious
  refine ends_ofExcept ?_ ?_
  · intro e he
    refine Or.inl ?_
    cases hadd : checkedAdd w'.db.checkpointGeneration 1 with
    | some n =>
      rw [hadd] at he
      cases he
    | none =>
      rw [hadd] at he
      exact (Except.error.inj he).symm
  intro generation hgeneration
  obtain ⟨hbound, rfl⟩ := checkedAdd_some (okOr_ok hgeneration)
  generalize w'.db.checkpointGeneration + 1 = generation at hbound
  have hbank : generation % 2 ≤ 1 := by omega
  have hpart : ∀ {p : DiskM Unit} {w : Disk}, Within (BankOnly cfg (generation % 2)) p → p.Throws OfSystem →
      p.Ends Alone t (Excused fits) (fun _ w' => BankOnly cfg (generation % 2) w w') w :=
    fun hp ht => ends_confined hp (ht.mono hsystem)
  refine (hpart within_invalidateManifest (throws_invalidateManifest hbank)).seq ?_
  intro _ w₁ h₁
  refine (hpart within_syncHeads throws_syncHeads).seq ?_
  intro _ w₂ h₂
  refine (hpart BankOnly.admits.removeSnapshotFiles throws_removeSnapshotFiles).seq ?_
  intro _ w₃ h₃
  have hclear : (clearSnapshotBank cfg (generation % 2)).Ends Alone t (Excused fits)
      (fun _ w' => ∀ b ∈ [] ++ List.range cfg.bucketCount,
        snapshotRoot cfg w'.db.headsFile (generation % 2) b = 0) w₃ :=
    clearBuckets_alone ha hbank (fun b hb => List.mem_range.mp hb) (by simp)
  refine (confined_ends hclear BankOnly.admits.clearSnapshotBank).seq ?_
  intro _ w₄ h₄
  obtain ⟨hunset, h₄⟩ := h₄
  refine ((createSnapshot_alone ha).weaken hsystem).seq ?_
  intro _ w₅ h₅
  have hwithin := (((h₁.trans h₂).trans h₃).trans h₄).trans (h₅ ▸ confined_setBank _)
  obtain ⟨hstore, hheads⟩ := hwithin.runtime
  have hhere : w₅.banks (generation % 2) = ⟨Store.created, true, true, true⟩ := by
    rw [h₅]
    exact Function.update_self _ _ _
  have hempty : Mirrored cfg (generation % 2) [] (fun _ => []) chains w₅ := by
    refine ⟨captured_created _ (congrArg Bank.store hhere), ?_, by simp, by simp, ?_⟩
    · rw [hhere]
      exact stocked_created cfg
    · intro b hb _
      rw [h₅]
      exact hunset b (List.mem_range.mpr hb)
  have hcopies : (copyBuckets cfg m (generation % 2) (List.range cfg.bucketCount)).Ends Alone t
      (Declined fits) (fun _ w' => BankOnly cfg (generation % 2) w₅ w' ∧
        (w'.banks (generation % 2)).present = (w₅.banks (generation % 2)).present ∧ ∃ schains',
          Mirrored cfg (generation % 2) ([] ++ List.range cfg.bucketCount) schains' chains w') w₅ :=
    copyBuckets_alone ha (by rw [hstore, hheads]; exact howned) hbank hempty (by simpa using List.nodup_range)
      (fun b hb => List.mem_range.mp hb) (by rw [hstore]; exact hroom) (by simp [reachableNodes])
  refine (hcopies.weaken fun e he => Or.inr he).seq ?_
  intro _ w₆ h₆
  obtain ⟨h₆, hpresent, schains, hmirrored⟩ := h₆
  rw [List.nil_append] at hmirrored
  have hafter := hwithin.trans h₆
  have hval := hmirrored.validated ha hbank (by rw [hafter.runtime.1, hafter.runtime.2]; exact howned)
  have hcounter : w'.db.checkpointGeneration = w₆.db.checkpointGeneration := by
    rw [hafter.db]
  have hfinish := finish_alone (m := m) (t := t) ha hval hmirrored.captured.copies
  rw [← hcounter] at hfinish
  refine (Yields.ending (wlp_rely others_alone (finish_amid ha hbound hmirrored.captured
    (hpresent.trans (congrArg Bank.present hhere)))) (hfinish.weaken hsystem)).mono ?_
  intro g w₇ hg
  obtain ⟨rfl, hcounter, hsaved, hflush⟩ := hg
  refine ⟨rfl, hcounter, schains, hsaved, ?_⟩
  intro b hb
  rw [content_flushed hflush, hmirrored.newest b (List.mem_range.mpr hb), h₆.runtime.1, hstore]

end Whole

end FlorestaDb
