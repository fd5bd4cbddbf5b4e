import FlorestaDb.Capture

/-! What a checkpoint can write, step for step and whatever its steps find: the files of its bank,
its manifest and the roots of its bank. -/
namespace FlorestaDb
open Program Program.Prog Allocator

variable {cfg : Config} {m : Machine} {w w₁ w₂ : Disk} {bank : Nat} {α : Type}

section Relation

/-- The place of the manifest and the roots of a bank in the heads file. -/
def OfBank (cfg : Config) (bank offset : Nat) : Prop :=
  (manifestBase + bank * manifestStride ≤ offset ∧ offset < manifestBase + (bank + 1) * manifestStride) ∨
    ∃ b, rootOffset cfg bank b = .ok offset

/-- Nothing was written but the bank, its manifest and its roots. -/
structure BankOnly (cfg : Config) (bank : Nat) (w w₁ : Disk) : Prop where
  db : w₁.db = { w.db with headsFile := w₁.db.headsFile }
  words : ∀ offset, ¬OfBank cfg bank offset →
    w₁.db.headsFile.words offset = w.db.headsFile.words offset
  banks : ∀ b, b ≠ bank → (w₁.banks b).store = (w.banks b).store ∧
    (w₁.banks b).present = (w.banks b).present

theorem BankOnly.refl (cfg : Config) (bank : Nat) (w : Disk) : BankOnly cfg bank w w :=
  ⟨rfl, fun _ _ => rfl, fun _ _ => ⟨rfl, rfl⟩⟩

theorem BankOnly.trans (h : BankOnly cfg bank w w₁) (h' : BankOnly cfg bank w₁ w₂) :
    BankOnly cfg bank w w₂ where
  db := by
    rw [h'.db, h.db]
  words := fun offset ho => (h'.words offset ho).trans (h.words offset ho)
  banks := fun b hb => ⟨(h'.banks b hb).1.trans (h.banks b hb).1,
    (h'.banks b hb).2.trans (h.banks b hb).2⟩

theorem confined_setBank (f : Bank → Bank) : BankOnly cfg bank w (w.setBank bank f) := by
  refine ⟨rfl, fun _ _ => rfl, ?_⟩
  intro b hb
  have hother : (w.setBank bank f).banks b = w.banks b := Function.update_of_ne hb _ _
  rw [hother]
  exact ⟨rfl, rfl⟩

theorem confined_write {offset : Nat} (word : UInt64) (ho : OfBank cfg bank offset) :
    BankOnly cfg bank w
      { w with db := { w.db with headsFile := w.db.headsFile.write offset word } } := by
  refine ⟨rfl, ?_, fun _ _ => ⟨rfl, rfl⟩⟩
  intro o hnot
  have hne : o ≠ offset := fun heq => hnot (heq.symm ▸ ho)
  exact Function.update_of_ne hne _ _

/-- The word of the heads file at `offset` is replaced. -/
def Disk.poke (w : Disk) (offset : Nat) (word : UInt64) : Disk :=
  { w with db := { w.db with headsFile := w.db.headsFile.write offset word } }

/- A relation that a checkpoint respects as long as it leaves the manifests alone: its bank may
   become anything, and its roots may be written. -/
structure Admits (cfg : Config) (bank : Nat) (G : Disk → Disk → Prop) : Prop where
  stay : ∀ w, G w w
  change : ∀ w f, G w (w.setBank bank f)
  root : ∀ w b offset word, rootOffset cfg bank b = .ok offset → G w (w.poke offset word)

theorem BankOnly.admits : Admits cfg bank (BankOnly cfg bank) where
  stay := .refl cfg bank
  change := fun _ f => confined_setBank f
  root := fun _ b _ word ho => confined_write word (Or.inr ⟨b, ho⟩)

end Relation

section Words
variable {generation b : Nat} {G : Disk → Disk → Prop}

theorem steps_casReplace {offset : Nat} {word : UInt64} (h : ∀ w, G w (w.poke offset word)) :
    Within G (casReplace offset word) := by
  apply within_atomic
  intro t w x hx
  obtain rfl := Option.some.inj hx
  exact h w

theorem within_casReplace {offset : Nat} (word : UInt64) (ho : OfBank cfg bank offset) :
    Within (BankOnly cfg bank) (casReplace offset word) :=
  steps_casReplace fun _ => confined_write word ho

theorem manifest_ofBank {offset : Nat} (h : manifestOffset bank = .ok offset) {i : Nat} (hi : i ≤ 32) :
    OfBank cfg bank (offset + i) := by
  have hbank : ¬bank > 1 := by
    intro hgt
    rw [manifestOffset, if_pos hgt] at h
    cases h
  rw [manifestOffset, if_neg hbank] at h
  obtain rfl := Except.ok.inj h
  refine Or.inl ⟨by omega, ?_⟩
  simp only [manifestStride]
  omega

theorem within_invalidateManifest : Within (BankOnly cfg bank) (invalidateManifest bank) :=
  within_check fun _ ho => within_casReplace 0 (manifest_ofBank ho (Nat.zero_le 32))

theorem within_writeManifest (checksum : UInt64) :
    Within (BankOnly cfg bank) (writeManifest ⟨generation, bank, checksum⟩) := by
  refine within_check fun offset ho => ?_
  have hat : ∀ i ≤ 32, OfBank cfg bank (offset + i) := fun i hi => manifest_ofBank ho hi
  refine within_bind (within_casReplace _ (hat 0 (by omega))) fun _ => ?_
  refine within_bind (within_casReplace _ (hat 8 (by omega))) fun _ => ?_
  refine within_bind (within_casReplace _ (hat 16 (by omega))) fun _ => ?_
  refine within_bind (within_casReplace _ (hat 32 (by omega))) fun _ => ?_
  refine within_bind (within_casReplace _ (hat 24 (by omega))) fun _ => ?_
  exact within_casReplace _ (hat 0 (by omega))

theorem Admits.clearSnapshotBank (hG : Admits cfg bank G) : Within G (clearSnapshotBank cfg bank) := by
  rw [FlorestaDb.clearSnapshotBank]
  generalize List.range cfg.bucketCount = buckets
  induction buckets with
  | nil => exact within_pure _
  | cons b rest ih =>
    exact within_check fun offset ho => within_bind (steps_casReplace fun w => hG.root w b offset 0 ho) fun _ => ih

theorem Admits.casRoot (hG : Admits cfg bank G) (b root : Nat) : Within G (casRoot cfg bank b root) := by
  refine within_check fun offset ho => within_atomic ?_
  intro t w x hx
  by_cases hzero : w.db.headsFile.words offset = 0
  · rw [if_pos hzero] at hx
    obtain rfl := Option.some.inj hx
    exact hG.root w b offset _ ho
  · rw [if_neg hzero] at hx
    obtain rfl := Option.some.inj hx
    exact hG.stay w

theorem Admits.readRoot (hG : Admits cfg bank G) (b : Nat) : Within G (readRoot cfg bank b) := by
  refine within_check fun _ _ => within_atomic ?_
  intro t w x hx
  obtain rfl := Option.some.inj hx
  exact hG.stay w

end Words

section Files
variable {G : Disk → Disk → Prop}

theorem within_osCallDisk : Within G osCallDisk := by
  apply within_choose
  intro failed
  cases failed with
  | false => exact within_pure _
  | true => exact within_done _

/-- A flush of the heads file writes no word. -/
theorem steps_syncHeads (h : ∀ w f, f.words = w.db.headsFile.words →
    G w { w with db := { w.db with headsFile := f } }) : Within G (onDb syncHeads) := by
  have hsteps : Within (fun d d' : Db => ∃ f, f.words = d.headsFile.words ∧ d' = { d with headsFile := f })
      syncHeads := by
    refine within_bind (within_choose fun failed => ?_) fun _ => within_atomic ?_
    · cases failed with
      | false => exact within_pure _
      | true => exact within_done _
    · intro t d x hx
      obtain rfl := Option.some.inj hx
      exact ⟨d.headsFile.sync, rfl, rfl⟩
  refine within_focus (fun _ _ => rfl) hsteps ?_
  intro w d hd
  obtain ⟨f, hf, rfl⟩ := hd
  exact h w f hf

theorem within_syncHeads : Within (BankOnly cfg bank) (onDb syncHeads) :=
  steps_syncHeads fun _ _ hf => ⟨rfl, fun offset _ => congrFun hf offset, fun _ _ => ⟨rfl, rfl⟩⟩

/-- Any step on the files of the bank. -/
theorem Admits.onBank (hG : Admits cfg bank G) (p : StoreM α) : Within G (onPlace (.bank bank) p) := by
  refine within_focus (fun s w => w.store_setStore (.bank bank) s)
    (within_any (G := fun _ _ => True) (fun _ _ => trivial) p) ?_
  intro w s _
  exact hG.change w fun bank => { bank with store := s }

/-- A program that only reads. -/
theorem Admits.onRuntime (hG : Admits cfg bank G) {p : StoreM α} (h : Within (fun s s' => s' = s) p) :
    Within G (onPlace .runtime p) := by
  refine within_focus (fun s w => w.store_setStore .runtime s) h ?_
  intro w s hs
  have hsame : w.setStore .runtime s = w := by
    rw [hs]
    exact w.setStore_self .runtime
  rw [hsame]
  exact hG.stay w

theorem Admits.setBank (hG : Admits cfg bank G) (f : Bank → Bank) :
    Within G (atomic fun _ w => some (.ok (), w.setBank bank f) : DiskM Unit) := by
  apply within_atomic
  intro t w x hx
  obtain rfl := Option.some.inj hx
  exact hG.change w f

theorem Admits.removeSnapshotFiles (hG : Admits cfg bank G) : Within G (removeSnapshotFiles bank) :=
  within_bind within_osCallDisk fun _ => hG.setBank _

theorem Admits.createSnapshot (hG : Admits cfg bank G) : Within G (createSnapshot cfg bank) :=
  within_check fun _ _ => within_bind within_osCallDisk fun _ => hG.setBank _

theorem Admits.syncSnapshot (hG : Admits cfg bank G) : Within G (syncSnapshot cfg m bank) :=
  within_bind (hG.onBank _) fun _ => within_bind (hG.onBank _) fun _ => hG.setBank _

theorem steps_syncNamespace
    (h : ∀ w : Disk, G w { w with banks := fun b => { w.banks b with unnamed := false } }) :
    Within G syncNamespace := by
  refine within_bind within_osCallDisk fun _ => within_atomic ?_
  intro t w x hx
  obtain rfl := Option.some.inj hx
  exact h w

theorem within_syncNamespace : Within (BankOnly cfg bank) syncNamespace :=
  steps_syncNamespace fun _ => ⟨rfl, fun _ _ => rfl, fun _ _ => ⟨rfl, rfl⟩⟩

theorem Admits.bucketsChecksum (hG : Admits cfg bank G) (buckets : List Nat) (checksum : UInt64) :
    Within G (bucketsChecksum cfg bank buckets checksum) := by
  induction buckets generalizing checksum with
  | nil => exact within_pure _
  | cons b rest ih =>
    exact within_bind (hG.readRoot b) fun root => within_bind (hG.onBank _) fun mixed => ih mixed

end Files

section Reads
variable {offset : Nat} {G : Disk → Disk → Prop}

theorem reads_load {f : Tid → Store → Except Error α} :
    Within (fun s s' : Store => s' = s) (atomic fun t s => some (f t s, s)) := by
  apply within_atomic
  intro t s x hx
  obtain rfl := Option.some.inj hx
  rfl

theorem reads_readNode : Within (fun s s' : Store => s' = s) (readNode cfg offset) := by
  refine within_ite (within_done _) (within_ite (within_done _) ?_)
  refine within_bind reads_load fun _ => within_bind reads_load fun low => ?_
  refine within_bind reads_load fun high => within_bind reads_load fun value => ?_
  exact within_bind reads_load fun pointer => within_ite (within_done _) (within_pure _)

theorem reads_readNext : Within (fun s s' : Store => s' = s) (readNext cfg offset) :=
  within_bind (within_check fun _ _ => reads_load) fun _ => within_pure _

theorem reads_loadBytes (n : Nat) : Within (fun s s' : Store => s' = s) (loadBytes n offset) := by
  induction n generalizing offset with
  | zero => exact within_pure _
  | succ n ih => exact within_bind reads_load fun _ => within_bind ih fun _ => within_pure _

theorem reads_readBlobBytes (length : Nat) :
    Within (fun s s' : Store => s' = s) (readBlobBytes cfg offset length) :=
  within_bind reads_load fun _ => reads_loadBytes length

theorem Admits.loadHead (hG : Admits cfg bank G) (b : Nat) : Within G (onDb (loadHead cfg b)) := by
  have hread : Within (fun d d' : Db => d' = d) (FlorestaDb.loadHead cfg b) := by
    apply within_atomic
    intro t d x hx
    obtain rfl := Option.some.inj hx
    rfl
  refine within_focus (fun _ _ => rfl) hread ?_
  intro w d hd
  rw [hd]
  exact hG.stay w

end Reads

section Copies
variable {root tail : Nat} {node : Node} {G : Disk → Disk → Prop}

theorem Admits.copyNode (hG : Admits cfg bank G) (next : Nat) :
    Within G (copyNode cfg m .runtime (.bank bank) node next) := by
  have hdrop : ∀ blob, Within G (dropBlob cfg m (.bank bank) blob) := by
    intro blob
    cases blob with
    | none => exact within_pure _
    | some x => exact within_bind (within_attempt (hG.onBank _)) fun _ => within_pure _
  refine within_bind ?_ fun x => within_bind (within_attempt (hG.onBank _)) fun r => ?_
  · refine within_ite (within_pure _) ?_
    refine within_check fun _ _ => within_bind (hG.onRuntime (reads_readBlobBytes _)) fun header => ?_
    refine within_check fun _ _ => within_bind (hG.onRuntime (reads_readBlobBytes _)) fun bytes => ?_
    refine within_ite (within_done _) (within_check fun _ _ => ?_)
    exact within_bind (hG.onBank _) fun x => within_bind (hG.onBank _) fun _ => within_pure _
  · cases r with
    | error e => exact within_bind (hdrop _) fun _ => within_done _
    | ok x =>
      refine within_bind (within_attempt (hG.onBank _)) fun r => ?_
      cases r with
      | ok _ => exact within_pure _
      | error e =>
        exact within_bind (within_attempt (hG.onBank _)) fun _ =>
          within_bind (hdrop _) fun _ => within_done _

theorem Admits.abandonChain (hG : Admits cfg bank G) (e : Error) :
    Within G (abandonChain cfg m bank root e : DiskM α) :=
  within_bind (hG.onBank _) fun _ => within_done _

theorem Admits.appendNode (hG : Admits cfg bank G) : Within G (appendNode cfg m bank node root tail) := by
  refine within_bind (hG.onBank _) fun found => within_ite (within_pure _) ?_
  refine within_bind (within_attempt (hG.copyNode 0)) fun r => ?_
  cases r with
  | error e => exact hG.abandonChain e
  | ok copied =>
    refine within_ite (within_pure _) (within_bind (within_attempt (hG.onBank _)) fun r => ?_)
    cases r with
    | ok _ => exact within_pure _
    | error e => exact within_bind (hG.onBank _) fun _ => hG.abandonChain e

theorem Admits.copyChain (hG : Admits cfg bank G) (fuel current root tail : Nat) :
    Within G (copyChain cfg m bank fuel current root tail) := by
  induction fuel generalizing current root tail with
  | zero => exact fun _ _ => trivial
  | succ fuel ih =>
    rw [FlorestaDb.copyChain]
    refine within_ite (within_pure _) (within_bind (within_attempt (hG.onRuntime reads_readNode)) fun r => ?_)
    cases r with
    | error e => exact hG.abandonChain e
    | ok node =>
      refine within_bind hG.appendNode fun x => within_bind (hG.onRuntime reads_readNext) fun next => ?_
      exact within_ite (within_bind (hG.onBank _) fun _ => within_pure _) (ih _ _ _)

theorem Admits.copyBucketToSnapshot (hG : Admits cfg bank G) (b fuel : Nat) :
    Within G (copyBucketToSnapshot cfg m bank b fuel) := by
  induction fuel with
  | zero => exact fun _ _ => trivial
  | succ fuel ih =>
    rw [FlorestaDb.copyBucketToSnapshot]
    refine within_bind (hG.loadHead b) fun source => within_bind (hG.loadHead b) fun observed => ?_
    refine within_ite ih (within_bind (hG.copyChain _ _ _ _) fun x => ?_)
    cases x with
    | none => exact ih
    | some root =>
      refine within_bind (hG.loadHead b) fun again => ?_
      exact within_ite (within_bind (hG.onBank _) fun _ => ih) (within_pure _)

theorem Admits.copyBuckets (hG : Admits cfg bank G) (buckets : List Nat) :
    Within G (copyBuckets cfg m bank buckets) := by
  induction buckets with
  | nil => exact within_pure _
  | cons b rest ih =>
    refine within_bind (hG.copyBucketToSnapshot b _) fun root => ?_
    exact within_bind (hG.casRoot b root) fun won => within_ite ih (within_done _)

end Copies

end FlorestaDb
