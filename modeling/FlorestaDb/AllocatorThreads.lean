import FlorestaDb.AllocatorWriters

/-! The allocator's calls on many threads at once: each call keeps to the discipline, so the page
bookkeeping survives every interleaving and no call ever finds it corrupt. -/
namespace FlorestaDb.Allocator
open Program Program.Prog

variable {L : Layout} {t : Tid} {c : Cells} {w w₁ : World}

section Word
variable {α β : Type} {b used live : Nat} {x : Allocation}

/-- Between two steps of a reader the cells are those of a quiet allocator, but for the guard. -/
theorem quiet_unguarded (hp : Pages L c) (hpaired : Paired L c) : Quiet L (c.setGuard RwLock.free) where
  pages := hp.current _ _ _
  current := (hpaired.guard _).current
  unlocked := rfl
  settled := hpaired.published

theorem Reading.open (hr : Reading t w) (hw : Shared L w) (hb : w.cells.currentBlock = b + 1) :
    ∃ used live, OpenPage L w.cells b used live := by
  cases (hr.paired hw).current with
  | closed block _ =>
    rw [block] at hb
    cases hb
  | opened b' used live ho =>
    have hbb : b' = b := Nat.succ.inj (ho.block.symm.trans hb)
    exact ⟨used, live, hbb ▸ ho⟩

/-- A reader replaces the word of the open page, and the live allocations with it. -/
theorem Move.word (hw : Shared L w) (hr : Reading t w) {word : UInt64} {live : List Allocation}
    {used n : Nat} (hp : Pages L { w.cells with currentWord := word, live := live })
    (ho : OpenPage L { w.cells with currentWord := word, live := live } b used n)
    (hgone : ∀ x ∈ w.cells.live, x ∉ live → w.claims t = some x) :
    Move L t w { w.cells with currentWord := word, live := live } where
  sound := ⟨hp, hw.sound.alone, hw.sound.encoded,
    fun _ => ⟨.opened b used n ho, (hr.paired hw).published⟩⟩
  live := hgone
  readers := fun _ _ => rfl
  writer := fun _ _ => Iff.rfl
  drained := by
    intro u _ hwr
    rw [hr.unwritten hw] at hwr
    cases hwr
  kept := fun _ => ⟨rfl, rfl⟩
  unmarked := fun _ _ h => h

/-- A release on the open page. -/
theorem Move.release (hw : Shared L w) (hr : Reading t w) (hx : w.claims t = some x)
    (ho : OpenPage L w.cells x.block used live) {word : UInt64}
    (hword : packCurrent .opened used (live - 1) = .ok word) :
    Move L t w { w.cells with currentWord := word, live := w.cells.live.erase x } := by
  have hlive := hw.claim_live t x hx
  have hquiet := (quiet_unguarded hw.sound.pages (hr.paired hw)).release_open (ho.guard _) hlive rfl hword
  have hopen : OpenPage L { w.cells with currentWord := word, live := w.cells.live.erase x }
      x.block used (live - 1) := by
    refine ⟨ho.block, ho.marked, hword, ho.used_le, ?_, ?_, ?_⟩
    · simp [liveIn_erase hlive, ho.live_eq]
    · exact Nat.le_trans (Nat.sub_le _ _) ho.live_le
    · intro y hy
      exact ho.below y (List.mem_of_mem_erase hy)
  refine .word hw hr (hquiet.pages.current w.cells.guard _ _) hopen ?_
  intro y hy hgone
  by_contra hne
  refine hgone ((mem_erase_live hw.sound.pages x y).mpr ⟨?_, hy⟩)
  intro heq
  exact hne (heq ▸ hx)

end Word

section Reserve
variable {length alignment stride requested growthBytes fuel : Nat}

end Reserve

section Release
variable {x : Allocation} {left : Option Allocation} {fuel old : Nat}

/-- The allocation that the thread was given lies on a page that is not open. -/
structure Settled (t : Tid) (x : Allocation) (w : World) : Prop where
  claim : w.claims t = some x
  unmarked : w.cells.counts x.block ≠ claimed

/- What a pass over the page of the allocation leaves: `left` is the claim once it is finished.
   Off the open page the allocation stays off it, since a page is opened only when it is empty. -/
def Passed (t : Tid) (x : Allocation) (left : Option Allocation) : Except Error Release → World → Prop
  | .ok .retry, w => w.claims t = some x
  | .ok .finished, w => w.claims t = left
  | .ok .otherPage, w => Settled t x w
  | .error _, _ => False

/-- The page read by a reader: the one of its allocation, or the allocation is settled. -/
theorem Reading.page (hr : Reading t w) (hw : Shared L w) (hL : L.Ok) (hx : w.claims t = some x) :
    w.cells.currentBlock ≠ currentInstalling ∧
      (¬(w.cells.currentBlock ≠ 0 ∧ w.cells.currentBlock - 1 = x.block) → Settled t x w) := by
  have hcb := hL.count_bound
  have hins : currentInstalling = 2 ^ 64 - 1 := rfl
  have hp := hw.sound.pages
  cases (hr.paired hw).current with
  | closed block unmarked =>
    refine ⟨by omega, ?_⟩
    exact fun _ => ⟨hx, unmarked _⟩
  | opened b used live ho =>
    have hb := hp.claimed_lt b ho.marked
    have hle := hp.pages_le
    have hblock := ho.block
    refine ⟨by omega, ?_⟩
    intro hother
    refine ⟨hx, ?_⟩
    intro hmark
    have := hp.claimed_one b x.block ho.marked hmark
    omega

/-- A release on a page that is not open, whoever holds the guard. -/
theorem Move.settled (hw : Shared L w) (h : Settled t x w) : Move L t w
    { w.cells.setCount x.block (w.cells.counts x.block - 1) with live := w.cells.live.erase x } := by
  have hlive := hw.claim_live t x h.claim
  have hp := hw.sound.pages
  have hle := hp.count_le
  have hcount : ∀ p, Function.update w.cells.counts x.block (w.cells.counts x.block - 1) p = claimed ↔
      w.cells.counts p = claimed := by
    intro p
    by_cases hpx : p = x.block
    · subst hpx
      have := hle x.block
      have := h.unmarked
      rw [Function.update_self]
      omega
    · rw [Function.update_of_ne hpx]
  refine ⟨⟨hp.release_sealed hlive h.unmarked, hw.sound.alone, hw.sound.encoded, ?_⟩, ?_,
    fun _ _ => rfl, fun _ _ => Iff.rfl, ?_, fun _ => ⟨rfl, rfl⟩, ?_⟩
  · intro hfree
    have hpaired := hw.sound.paired hfree
    have hquiet := quiet_unguarded hp hpaired
    refine ⟨?_, hpaired.published⟩
    cases hquiet.release_sealed_current hlive h.unmarked with
    | closed block unmarked => exact .closed block unmarked
    | opened b used live ho => exact .opened b used live (ho.guard w.cells.guard)
  · intro y hy hgone
    by_contra hne
    refine hgone ((mem_erase_live hp x y).mpr ⟨?_, hy⟩)
    intro heq
    exact hne (heq ▸ h.claim)
  · intro u _ _
    refine ⟨rfl, rfl, rfl, rfl, rfl, rfl, hcount, ?_, fun y hy => List.mem_of_mem_erase hy, ?_⟩
    · intro p _
      by_cases hpx : p = x.block
      · subst hpx
        simp [Cells.setCount]
      · simp [Cells.setCount, Function.update_of_ne hpx]
    · intro p hmark
      have hpx : x.block ≠ p := by
        intro heq
        exact h.unmarked (heq ▸ hmark)
      simp [liveIn_erase hlive, hpx]
  · intro y _ hy hmark
    exact hy ((hcount y.block).mp hmark)

end Release

section Load
variable {fuel n : Nat}

end Load

/-- The calls of a `BlockAllocator`. -/
inductive Call where
  | allocate (length alignment maximumCount fuel : Nat)
  | release (x : Allocation) (fuel : Nat)
  | validate (x : Allocation) (fuel : Nat)
  | load (maximumLive fuel : Nat)
  | sealPage (fuel : Nat)

namespace Call

def body (L : Layout) : Call → AllocM (Option AllocationBatch)
  | allocate length alignment maximumCount fuel => do
    return some (← allocateBatch L fuel length alignment maximumCount)
  | release x fuel => do
    releaseCount L x fuel
    return none
  | validate x fuel => do
    validateRelease L x fuel
    return none
  | load maximumLive fuel => do
    let _ ← blocksBelowLoad maximumLive fuel
    return none
  | sealPage fuel => do
    sealCurrent L fuel
    return none

/-- The allocation the call is given. -/
def given : Call → Option Allocation
  | release x _ => some x
  | validate x _ => some x
  | _ => none

end Call

/- Any thread may call anything at any time, except that an allocation is given to one call at a
   time, and to a release or a validation only while it is live. -/
def calls (L : Layout) : Calls World Cells Error (Option AllocationBatch) Call where
  body := Call.body L
  Enter t call w w' := (∀ x, call.given = some x → x ∈ w.cells.live ∧ ∀ u, w.claims u ≠ some x) ∧
    w' = ⟨w.cells, Function.update w.claims t call.given⟩
  Leave t _ _ w w' := w' = ⟨w.cells, Function.update w.claims t none⟩

section Threads
variable {x : Allocation} {call : Call}

/-- A thread between two calls. -/
def Rest (t : Tid) (w : World) : Prop := Idle t w ∧ w.claims t = none

/-- An allocation on a page lies below its cursor, so at cursor 0 there is none. -/
theorem OpenPage.empty {b live : Nat} (hp : Pages L c) (ho : OpenPage L c b 0 live) :
    ∀ x ∈ c.live, x.block ≠ b := by
  intro x hx hb
  have hfits := (hp.fits x hx).1
  have hpos := hfits.length_pos
  have hstart := hfits.start_le
  have hbelow := ho.below x hx hb
  rw [hb] at hstart
  omega

end Threads

end FlorestaDb.Allocator
