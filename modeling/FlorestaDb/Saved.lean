import FlorestaDb.Captured

/-! A saved snapshot opens, and new runtime files have room for all of it. -/
namespace FlorestaDb
open Program Program.Prog Allocator Chain

variable {cfg : Config} {m : Machine} {v : Env} {t : Tid} {w w₁ : Disk} {s s' : Store}
  {generation bank : Nat} {schains : Nat → List Nat}

section Opens

/-- An allocator that was opened has no open page. -/
theorem openAllocator_closed {capacity blockSize : Nat} {c : Cells} {r : Layout × Cells}
    (h : openAllocator capacity blockSize c = .ok r) : r.2.currentBlock = 0 := by
  obtain ⟨_, -, h⟩ := bind_ok h
  obtain ⟨⟨data, count, blocks⟩, -, h⟩ := bind_ok h
  obtain ⟨_, -, h⟩ := bind_ok h
  obtain ⟨_, -, h⟩ := bind_ok h
  obtain ⟨_, -, h⟩ := bind_ok h
  cases h
  rfl

theorem openStore_closed (h : openStore cfg s = .ok s') :
    s'.body.currentBlock = 0 ∧ (s'.blobs = s.blobs ∨ s'.blobs.currentBlock = 0) := by
  obtain ⟨body, hbody, h⟩ := bind_ok h
  by_cases hm : cfg.mode = .map
  · rw [if_pos hm] at h
    obtain ⟨blobs, hblobs, h⟩ := bind_ok h
    cases h
    exact ⟨openAllocator_closed hbody, Or.inr (openAllocator_closed hblobs)⟩
  · rw [if_neg hm] at h
    cases h
    exact ⟨openAllocator_closed hbody, Or.inl rfl⟩

/-- The manifest of a saved snapshot. -/
def savedManifest (cfg : Config) (w : Disk) (generation : Nat) (schains : Nat → List Nat) : Manifest :=
  ⟨generation, generation % 2, checksumOf cfg w (generation % 2) schains⟩

/-- What is found when the files of a saved snapshot are opened. -/
structure Restored (cfg : Config) (w : Disk) (generation : Nat) (schains : Nat → List Nat)
    (s : Store) : Prop where
  opens : Opens cfg w (savedManifest cfg w generation schains) s schains
  copies : Copies cfg s (snapshotNodes cfg schains) none
  flushed : Flushed (w.banks (generation % 2)).store s

/-- Sealed files open to the same snapshot. -/
theorem Sealed.opens (ha : cfg.Accepted) (h : Sealed cfg (w.banks bank).store (snapshotNodes cfg schains))
    (hval : Validated cfg w bank schains) :
    ∃ s, openStore cfg (w.banks bank).store = .ok s ∧ Flushed (w.banks bank).store s ∧
      Sealed cfg s (snapshotNodes cfg schains) ∧ Validated cfg (w.setStore (.bank bank) s) bank schains ∧
        checksumOf cfg (w.setStore (.bank bank) s) bank schains = checksumOf cfg w bank schains := by
  obtain ⟨s, hopen, hflush, hbody, hblobs⟩ := openStore_ok ha h.copies.body h.copies.blobs h.body h.blobs
  obtain ⟨hclosed, hclosed'⟩ := openStore_closed hopen
  have hcopies : Copies cfg s (snapshotNodes cfg schains) none :=
    h.copies.flushed hflush hbody hblobs (Or.inr hclosed) hclosed'
  have hsealed : s.blobs.currentBlock = 0 := by
    cases hclosed' with
    | inl hsame => exact hsame ▸ h.blobs
    | inr hzero => exact hzero
  have hhere : ((w.setStore (.bank bank) s).banks bank).store = s := w.store_setStore (.bank bank) s
  obtain ⟨hval', hsum⟩ : Validated cfg (w.setStore (.bank bank) s) bank schains ∧
      checksumOf cfg (w.setStore (.bank bank) s) bank schains = checksumOf cfg w bank schains :=
    hval.flushed ha.ready (fun _ => rfl) (hhere.symm ▸ hflush) (hhere.symm ▸ hcopies)
      fun b hb o ho => List.mem_flatMap.mpr ⟨b, hb, ho⟩
  exact ⟨s, hopen, hflush, ⟨hcopies, hclosed, hsealed⟩, hval', hsum⟩

theorem Saved.opens (ha : cfg.Accepted) (h : Saved cfg w generation schains) :
    ∃ s, Restored cfg w generation schains s := by
  obtain ⟨s, hopen, hflush, hsealed, hval, hsum⟩ := h.files.opens ha h.validated
  exact ⟨s, ⟨h.present, hopen, hval, hsum⟩, hsealed.copies, hflush⟩

theorem Restored.recoverable (h : Restored cfg w generation schains s) : Recoverable cfg s schains :=
  h.copies.recoverable

end Opens

section Rebuild

/-- New runtime files beside the opened snapshot. -/
def beforeRebuild (w : Disk) (bank : Nat) (s : Store) (generation : Nat) : Disk :=
  { w.setStore (.bank bank) s with db := Db.fresh w.db.headsFile generation }

/-- Whatever system call fails, the rebuild of a saved snapshot does not run out of pages. -/
theorem Restored.rebuilds (ha : cfg.Accepted) (h : Restored cfg w generation schains s)
    (newGeneration : Nat) (hf : v = .fair → m.Enough cfg) :
    (rebuildRuntime cfg m (generation % 2)).wp v t
      (fun r _ => r = .ok () ∨ v = .any ∧ r = .error .io)
      (beforeRebuild w (generation % 2) s newGeneration) := by
  have hhere : ((beforeRebuild w (generation % 2) s newGeneration).banks (generation % 2)).store = s :=
    w.store_setStore (.bank (generation % 2)) s
  have hval : Validated cfg (beforeRebuild w (generation % 2) s newGeneration) (generation % 2) schains :=
    ⟨h.opens.validated.root, h.opens.validated.chain⟩
  refine wp_mono (rebuildRuntime_spec ha.ready hval rfl hf) ?_
  intro r w' hr
  obtain ⟨d', rfl, -, hout⟩ := hr
  cases hout with
  | inl hok => exact Or.inl hok.1
  | inr herror =>
    obtain ⟨e, rfl, -, hroom⟩ := herror
    rw [hhere] at hroom
    obtain ⟨hv, rfl⟩ := hroom h.recoverable
    exact Or.inr ⟨hv, rfl⟩

end Rebuild

end FlorestaDb
