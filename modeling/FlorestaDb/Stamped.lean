import FlorestaDb.Fitting

/-! A whole checkpoint call on an idle handle: whatever it returns, the runtime is the same and
nothing was written but one bank, its manifest and its roots. -/
namespace FlorestaDb
open Program Program.Prog Allocator

variable {cfg : Config} {m : Machine} {t : Tid} {w w' w₀ : Disk} {bank : Nat} {α β : Type}

theorem parity_le (generation : Nat) : generation % 2 ≤ 1 :=
  Nat.lt_succ_iff.mp (Nat.mod_lt generation (by decide))

/-- The bank of the next checkpoint. -/
def nextBank (w : Disk) : Nat := (w.db.checkpointGeneration + 1) % 2

/-- The same directory under a handle that counts from `generation`. -/
def Disk.at (w : Disk) (generation : Nat) : Disk :=
  { w with db := { w.db with checkpointGeneration := generation } }

/- What a checkpoint leaves when nothing else is at work: its bank may have changed and, if it
   succeeded, the generation. -/
structure Stamped (cfg : Config) (w : Disk) (r : Except Error Nat) (w' : Disk) : Prop where
  confined : BankOnly cfg (nextBank w) w (w'.at w.db.checkpointGeneration)
  failed : ∀ e, r = .error e → w'.db.checkpointGeneration = w.db.checkpointGeneration
  done : ∀ g, r = .ok g → g = w.db.checkpointGeneration + 1 ∧ w'.db.checkpointGeneration = g

theorem BankOnly.stamped (h : BankOnly cfg (nextBank w) w w') (e : Error) : Stamped cfg w (.error e) w' := by
  have hgen : w'.db.checkpointGeneration = w.db.checkpointGeneration := by rw [h.db]
  have hat : w'.at w.db.checkpointGeneration = w' := by rw [← hgen]; rfl
  refine ⟨hat.symm ▸ h, fun _ _ => hgen, ?_⟩
  intro g hg
  cases hg

theorem BankOnly.advanced {generation : Nat} (h : BankOnly cfg (nextBank w) w w')
    (hg : generation = w.db.checkpointGeneration + 1) : Stamped cfg w (.ok generation) (w'.at generation) := by
  have hgen : w'.db.checkpointGeneration = w.db.checkpointGeneration := by rw [h.db]
  have hat : (w'.at generation).at w.db.checkpointGeneration = w' := by rw [← hgen]; rfl
  refine ⟨hat.symm ▸ h, ?_, ?_⟩
  · intro e he
    cases he
  · intro g hok
    obtain rfl := Except.ok.inj hok
    exact ⟨hg, rfl⟩

/-- A step within the bank. -/
theorem wlp_confined {p : DiskM α} {f : α → DiskM β} {Q : Except Error β → Disk → Prop}
    (hp : Within (BankOnly cfg bank) p) (h : BankOnly cfg bank w₀ w)
    (he : ∀ e w', BankOnly cfg bank w₀ w' → Q (.error e) w')
    (hf : ∀ a w', BankOnly cfg bank w₀ w' → (f a).wlp Alone t Q w') : (p >>= f).wlp Alone t Q w := by
  rw [wlp_bind]
  refine wlp_mono (wlp_within (BankOnly.refl cfg bank) BankOnly.trans hp) ?_
  intro r w' hr
  cases r with
  | ok a => exact hf a w' (h.trans hr)
  | error e => exact he e w' (h.trans hr)

theorem wlp_loadGeneration {Q : Except Error Nat → Disk → Prop} (h : Q (.ok w.db.checkpointGeneration) w) :
    loadGeneration.wlp Alone t Q w := by
  apply wlp_alone
  exact (wp_atomic _).mpr ⟨_, _, rfl, h⟩

theorem checkpointInner_stamped : (checkpointInner cfg m).wlp Alone t (Stamped cfg w) w := by
  have he : ∀ e w', BankOnly cfg (nextBank w) w w' → Stamped cfg w (.error e) w' := fun e w' h => h.stamped e
  rw [checkpointInner, wlp_bind]
  refine wlp_loadGeneration ?_
  rw [after_ok, wlp_bind, wlp_ofExcept]
  cases hadd : checkedAdd w.db.checkpointGeneration 1 with
  | none => exact he _ w (.refl cfg _ w)
  | some generation =>
    obtain ⟨-, hgen⟩ := checkedAdd_some hadd
    have hbank : generation % 2 = nextBank w := by rw [hgen]; rfl
    rw [okOr_some, after_ok]
    simp only [hbank]
    refine wlp_confined within_invalidateManifest (.refl cfg _ w) he fun _ _ h => ?_
    refine wlp_confined within_syncHeads h he fun _ _ h => ?_
    refine wlp_confined BankOnly.admits.removeSnapshotFiles h he fun _ _ h => ?_
    refine wlp_confined BankOnly.admits.clearSnapshotBank h he fun _ _ h => ?_
    refine wlp_confined BankOnly.admits.createSnapshot h he fun _ _ h => ?_
    refine wlp_confined (BankOnly.admits.copyBuckets _) h he fun _ _ h => ?_
    refine wlp_confined (BankOnly.admits.bucketsChecksum _ _) h he fun _ _ h => ?_
    refine wlp_confined BankOnly.admits.syncSnapshot h he fun _ _ h => ?_
    refine wlp_confined within_syncNamespace h he fun _ _ h => ?_
    refine wlp_confined within_syncHeads h he fun _ _ h => ?_
    refine wlp_confined (within_writeManifest _) h he fun _ _ h => ?_
    refine wlp_confined within_syncHeads h he fun _ w' h => ?_
    have hsame : w'.db.checkpointGeneration = w.db.checkpointGeneration := by rw [h.db]
    rw [wlp_bind]
    apply wlp_alone
    refine (wp_atomic _).mpr ⟨.ok true, w'.at generation, if_pos hsame, ?_⟩
    exact h.advanced hgen

section Sweep

/-- A manifest without its magic number is none. -/
theorem readManifest_none {f : HeadsFile} (h : f.words (manifestBase + bank * manifestStride) = 0) :
    readManifest f bank = none := by
  have hmagic : (0 : UInt64) ≠ manifestMagic := by decide
  rw [readManifest]
  dsimp only
  rw [h, if_pos hmagic]

/-- The page of the header and the manifests is as it was. -/
def FirstPage (w w' : Disk) : Prop :=
  ∀ offset < headsStart, w'.db.headsFile.words offset = w.db.headsFile.words offset

theorem FirstPage.admits (ha : cfg.Accepted) : Admits cfg bank FirstPage where
  stay := fun _ _ _ => rfl
  change := fun _ _ _ _ => rfl
  root := by
    intro w b offset word ho o hlt
    have hne : o ≠ offset := Nat.ne_of_lt (hlt.trans_le (rootOffset_behind ha ho).1)
    exact Function.update_of_ne hne _ _

theorem within_firstPage (ha : cfg.Accepted) : Within FirstPage (do
    onDb syncHeads
    removeSnapshotFiles bank
    clearSnapshotBank cfg bank
    syncNamespace : DiskM Unit) := by
  have hG : Admits cfg bank FirstPage := FirstPage.admits ha
  refine within_bind (steps_syncHeads fun _ _ hf offset _ => congrFun hf offset) fun _ => ?_
  refine within_bind hG.removeSnapshotFiles fun _ => within_bind hG.clearSnapshotBank fun _ => ?_
  exact steps_syncNamespace fun _ _ _ => rfl

/-- However far it gets, a cleanup removes the manifest. -/
theorem cleanup_sweeps (ha : cfg.Accepted) (hbank : bank ≤ 1) :
    (cleanupFailedCheckpoint cfg bank).wlp Alone t
      (fun _ w' => readManifest w'.db.headsFile bank = none) w := by
  rw [cleanupFailedCheckpoint, wlp_bind, invalidateManifest, manifestOffset, if_neg (Nat.not_lt.mpr hbank),
    wlp_bind, wlp_ofExcept, after_ok]
  apply wlp_alone
  refine (wp_atomic _).mpr ⟨_, _, rfl, ?_⟩
  rw [after_ok]
  refine wlp_mono (wlp_within (fun _ _ _ => rfl)
    (fun h h' offset hlt => (h' offset hlt).trans (h offset hlt)) (within_firstPage ha)) ?_
  intro _ w' h
  have hlt : manifestBase + bank * manifestStride < headsStart := by
    simp only [manifestBase, manifestStride, headsStart, formatPageSize]
    omega
  apply readManifest_none
  rw [h _ hlt]
  exact Function.update_self _ _ _

end Sweep

section Call
variable {chains : Nat → List Nat} {fits : Prop}

/- What a checkpoint on an idle handle returns and leaves: after an error there is no manifest
   in its bank, or it never began. -/
structure Answered (cfg : Config) (chains : Nat → List Nat) (fits : Prop) (w : Disk)
    (r : Except Error Nat) (w' : Disk) : Prop where
  stamped : Stamped cfg w r w'
  ending : Ending (Excused fits) (fun g w' => ∃ schains, Recorded cfg w.db.store chains g schains w') r w'
  swept : ∀ e, r = .error e → readManifest w'.db.headsFile (nextBank w) = none ∨
    w'.banks = w.banks ∧ w'.db.headsFile = w.db.headsFile

theorem checkpointInner_answers (ha : cfg.Accepted)
    (howned : Owned cfg w.db.store w.db.runtimeHeads chains ∅ ∅ ∅)
    (hroom : fits → Roomy cfg w.db.store (reachableNodes cfg chains) (reachableNodes cfg chains).length) :
    (checkpointInner cfg m).wlp Alone t (fun r w' => Stamped cfg w r w' ∧ Ending (Excused fits)
      (fun g w' => ∃ schains, Recorded cfg w.db.store chains g schains w') r w') w := by
  refine wlp_mono (wlp_and (checkpointInner_alone ha howned hroom) checkpointInner_stamped) ?_
  intro r w' hr
  refine ⟨hr.2, ?_⟩
  cases r with
  | ok g => exact hr.1.2.2
  | error e => exact hr.1

theorem within_cleanup : Within (BankOnly cfg bank) (cleanupFailedCheckpoint cfg bank) :=
  within_bind within_invalidateManifest fun _ => within_bind within_syncHeads fun _ =>
    within_bind BankOnly.admits.removeSnapshotFiles fun _ =>
      within_bind BankOnly.admits.clearSnapshotBank fun _ => within_syncNamespace

theorem Stamped.unchanged {e : Error} (h : Stamped cfg w (.error e) w') :
    BankOnly cfg (nextBank w) w w' := by
  have hat : w'.at w.db.checkpointGeneration = w' := by rw [← h.failed e rfl]; rfl
  exact hat ▸ h.confined

theorem nextBank_le (w : Disk) : nextBank w ≤ 1 := parity_le _

theorem checkpointChecked_answers (ha : cfg.Accepted) (hidle : w.db.compactionState = 0)
    (howned : Owned cfg w.db.store w.db.runtimeHeads chains ∅ ∅ ∅)
    (hroom : fits → Roomy cfg w.db.store (reachableNodes cfg chains) (reachableNodes cfg chains).length) :
    (checkpointChecked cfg m).wlp Alone t (Answered cfg chains fits w) w := by
  rw [checkpointChecked, wlp_bind]
  apply wlp_alone
  refine (wp_atomic _).mpr ⟨_, _, rfl, ?_⟩
  rw [after_ok, if_neg (not_not.mpr hidle), wlp_bind]
  refine wlp_loadGeneration ?_
  rw [after_ok, wlp_bind, wlp_ofExcept]
  cases hadd : checkedAdd w.db.checkpointGeneration 1 with
  | none => exact ⟨(BankOnly.refl cfg _ w).stamped _, Or.inl rfl, fun _ _ => Or.inr ⟨rfl, rfl⟩⟩
  | some failed =>
    obtain ⟨-, hfailed⟩ := checkedAdd_some hadd
    have hbank : failed % 2 = nextBank w := by rw [hfailed]; rfl
    rw [okOr_some, after_ok, wlp_bind, wlp_attempt]
    refine wlp_mono (checkpointInner_answers ha howned hroom) ?_
    intro r w' hr
    rw [after_ok]
    cases r with
    | ok g => exact ⟨hr.1, hr.2, fun e he => by cases he⟩
    | error e =>
      -- whatever becomes of the cleanup, the error of the checkpoint is returned
      rw [wlp_bind, wlp_attempt, hbank]
      refine wlp_mono (wlp_and (cleanup_sweeps ha (nextBank_le w))
        (wlp_within (BankOnly.refl cfg _) BankOnly.trans within_cleanup)) ?_
      intro _ w'' hclean
      exact ⟨(hr.1.unchanged.trans hclean.2).stamped e, hr.2, fun _ _ => Or.inl hclean.1⟩

/-- The same directory under a handle with these guards. -/
def Disk.held (w : Disk) (quiescence : RwLock) (checkpointState : Nat) : Disk :=
  { w with db := { w.db with quiescence := quiescence, checkpointState := checkpointState } }

theorem BankOnly.held (h : BankOnly cfg bank w w') (q : RwLock) (n : Nat) :
    BankOnly cfg bank (w.held q n) (w'.held q n) := by
  refine ⟨?_, h.words, h.banks⟩
  have hdb := h.db
  simp only [Disk.held]
  rw [hdb]

theorem Recorded.held {s : Store} {g : Nat} {schains : Nat → List Nat}
    (h : Recorded cfg s chains g schains w) (q : RwLock) (n : Nat) :
    Recorded cfg s chains g schains (w.held q n) :=
  ⟨h.saved.same rfl rfl, h.newest⟩

theorem Answered.held {r : Except Error Nat} (h : Answered cfg chains fits w r w') (q : RwLock) (n : Nat) :
    Answered cfg chains fits (w.held q n) r (w'.held q n) := by
  refine ⟨⟨h.stamped.confined.held q n, h.stamped.failed, h.stamped.done⟩, ?_, h.swept⟩
  cases r with
  | error e => exact h.ending
  | ok g =>
    obtain ⟨schains, hrecorded⟩ := h.ending
    exact ⟨schains, hrecorded.held q n⟩

theorem checkpoint_answers (ha : cfg.Accepted) (hi : Idle w.db)
    (howned : Owned cfg w.db.store w.db.runtimeHeads chains ∅ ∅ ∅)
    (hroom : fits → Roomy cfg w.db.store (reachableNodes cfg chains) (reachableNodes cfg chains).length) :
    (checkpoint cfg m).wlp Alone t (Answered cfg chains fits w) w := by
  have hfree := hi.quiescence
  have hnone := hi.checkpoint
  have hback : ∀ q n, (w.held q n).held RwLock.free 0 = w := by
    intro q n
    rw [← hfree, ← hnone]
    rfl
  refine wlp_guarded (w.held ⟨[t], none⟩ 0) ?_ ?_
  · apply wlp_alone
    rw [wp_onDb, lockQuiescenceRead]
    refine (wp_atomic _).mpr ⟨.ok (), _, if_pos (by rw [hfree]; rfl), rfl, ?_⟩
    rw [hfree, Disk.held, hnone]
    rfl
  refine wlp_guarded (w.held ⟨[t], none⟩ 1) ?_ ?_
  · rw [acquireCheckpoint, wlp_bind]
    apply wlp_alone
    exact (wp_atomic _).mpr ⟨.ok true, _, if_pos rfl, rfl, rfl⟩
  refine wlp_mono (checkpointChecked_answers (w := w.held ⟨[t], none⟩ 1) ha hi.compaction howned hroom) ?_
  intro r w' hr
  apply wlp_alone
  refine (wp_atomic _).mpr ⟨.ok (), _, rfl, rfl, ?_⟩
  apply wlp_alone
  rw [wp_onDb, unlockQuiescenceRead]
  refine (wp_atomic _).mpr ⟨.ok (), _, rfl, rfl, ?_⟩
  have hheld : w'.db.quiescence = ⟨[t], none⟩ := by
    have hdb := hr.stamped.confined.db
    exact congrArg Db.quiescence hdb
  have hleft := hr.held RwLock.free 0
  rw [hback] at hleft
  simp only [hheld, List.erase_cons_head]
  exact hleft

end Call

end FlorestaDb
