import FlorestaDb.Capture
import FlorestaDb.Lib.Throws

/-! The steps of a checkpoint on the heads file and on the directory fail with a system call and
in no other way. -/
namespace FlorestaDb
open Program Program.Prog

variable {cfg : Config} {bank b : Nat}

section Offsets

theorem exists_manifestOffset (h : bank ≤ 1) : ∃ offset, manifestOffset bank = .ok offset :=
  ⟨_, if_neg (Nat.not_lt.mpr h)⟩

theorem exists_rootOffset (ha : cfg.Accepted) (hbank : bank ≤ 1) (hb : b < cfg.bucketCount) :
    ∃ offset, rootOffset cfg bank b = .ok offset := by
  obtain ⟨length, size, hg⟩ := ha.geometry
  have hholds := hg.holds
  have hbound := hg.bound
  have hlength := hg.length_eq
  have hsize : bank * size ≤ size := by
    cases Nat.le_one_iff_eq_zero_or_eq_one.mp hbank with
    | inl hzero => simp [hzero]
    | inr hone => simp [hone]
  refine ⟨headsStart + size + bank * size + b * 8, ?_⟩
  rw [rootOffset, if_neg (Nat.not_le.mpr hb), hg.start bank hbank, ok_bind, checkedMul_of_lt (by omega),
    Option.bind_some, checkedAdd_of_lt (by omega)]
  rfl

end Offsets

/-- The error of a system call. -/
def OfSystem (e : Error) : Prop := e = .io

section Steps
variable {α β S : Type} {E : Error → Prop} {r : Except Error α} {f : α → Prog S Error β}

theorem throws_step (f : Tid → S → α) (g : Tid → S → S) :
    (atomic fun t s => some (.ok (f t s), g t s) : Prog S Error α).Throws E := by
  apply throws_atomic
  intro t s e s' h
  cases h

/-- A check that is known to pass. -/
theorem throws_passed (hr : ∃ a, r = .ok a) (hf : ∀ a, (f a).Throws E) : (ofExcept r >>= f).Throws E := by
  obtain ⟨a, rfl⟩ := hr
  exact hf a

theorem throws_osCallDisk : osCallDisk.Throws OfSystem := by
  intro failed
  cases failed with
  | false => exact throws_pure _
  | true => exact throws_throw rfl

theorem throws_syncHeads : (onDb syncHeads).Throws OfSystem := by
  refine throws_focus (throws_bind ?_ fun _ => throws_step _ _)
  intro failed
  cases failed with
  | false => exact throws_pure _
  | true => exact throws_throw rfl

theorem throws_invalidateManifest (h : bank ≤ 1) : (invalidateManifest bank).Throws OfSystem :=
  throws_passed (exists_manifestOffset h) fun _ => throws_step _ _

theorem throws_writeManifest {manifest : Manifest} (h : manifest.bank ≤ 1) :
    (writeManifest manifest).Throws OfSystem := by
  refine throws_passed (exists_manifestOffset h) fun offset => ?_
  refine throws_bind (throws_step _ _) fun _ => throws_bind (throws_step _ _) fun _ => ?_
  refine throws_bind (throws_step _ _) fun _ => throws_bind (throws_step _ _) fun _ => ?_
  exact throws_bind (throws_step _ _) fun _ => throws_step _ _

theorem throws_removeSnapshotFiles : (removeSnapshotFiles bank).Throws OfSystem :=
  throws_bind throws_osCallDisk fun _ => throws_step _ _

theorem throws_syncNamespace : syncNamespace.Throws OfSystem :=
  throws_bind throws_osCallDisk fun _ => throws_step _ _

end Steps

end FlorestaDb
