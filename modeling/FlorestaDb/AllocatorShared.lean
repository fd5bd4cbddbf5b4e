import FlorestaDb.AllocatorCalls
import FlorestaDb.Lib.Threads

/-! The allocator shared by many threads: what holds of its cells between any two steps, what each
thread may rely on while it holds the guard, and the rules for the steps of a guard's holder. -/
namespace FlorestaDb.Allocator
open Program Program.Prog

variable {L : Layout} {t u : Tid} {c c₁ c₂ : Cells}

/- The cells, and for each thread the allocation that its call was given. A claim ends with the
   allocation: the step that takes it out of the live ones takes it from its thread. -/
structure World where
  cells : Cells
  claims : Tid → Option Allocation

def World.put (c : Cells) (w : World) : World :=
  ⟨c, fun t => (w.claims t).filter fun x => x ∈ c.live⟩

def view : View World Cells := ⟨World.cells, World.put⟩

/-- What the guard protects: the current page with its word, and the published pages. -/
structure Paired (L : Layout) (c : Cells) : Prop where
  current : Current L c
  published : c.highWater < growingBit

/-- What holds of the cells between any two steps. -/
structure Sound (L : Layout) (c : Cells) : Prop where
  pages : Pages L c
  alone : c.guard.writer ≠ none → c.guard.readers = []
  encoded : c.currentBlock = currentInstalling ∨ c.currentBlock ≤ L.blockCount
  paired : c.guard.writer = none → Paired L c

structure Shared (L : Layout) (w : World) : Prop where
  sound : Sound L w.cells
  claim_live : ∀ t x, w.claims t = some x → x ∈ w.cells.live
  claim_once : ∀ t u x, w.claims t = some x → w.claims u = some x → t = u

/- What the others can do while the guard is held for writing: allocations on pages without the
   mark are released. -/
structure Drained (c c₁ : Cells) : Prop where
  block : c₁.currentBlock = c.currentBlock
  word : c₁.currentWord = c.currentWord
  guard : c₁.guard = c.guard
  highWater : c₁.highWater = c.highWater
  countsLength : c₁.countsLength = c.countsLength
  dataLength : c₁.dataLength = c.dataLength
  marked : ∀ p, c₁.counts p = claimed ↔ c.counts p = claimed
  counts_le : ∀ p, c.counts p ≠ claimed → c₁.counts p ≤ c.counts p
  live : ∀ x ∈ c₁.live, x ∈ c.live
  held : ∀ p, c.counts p = claimed → liveIn c₁.live p = liveIn c.live p

theorem Drained.refl (c : Cells) : Drained c c where
  block := rfl
  word := rfl
  guard := rfl
  highWater := rfl
  countsLength := rfl
  dataLength := rfl
  marked := fun _ => Iff.rfl
  counts_le := fun _ _ => Nat.le_refl _
  live := fun _ h => h
  held := fun _ _ => rfl

theorem Drained.trans (h : Drained c c₁) (h' : Drained c₁ c₂) : Drained c c₂ where
  block := h'.block.trans h.block
  word := h'.word.trans h.word
  guard := h'.guard.trans h.guard
  highWater := h'.highWater.trans h.highWater
  countsLength := h'.countsLength.trans h.countsLength
  dataLength := h'.dataLength.trans h.dataLength
  marked := fun p => (h'.marked p).trans (h.marked p)
  counts_le := by
    intro p hp
    have hp₁ : c₁.counts p ≠ claimed := fun hc => hp ((h.marked p).mp hc)
    exact Nat.le_trans (h'.counts_le p hp₁) (h.counts_le p hp)
  live := fun x hx => h.live x (h'.live x hx)
  held := fun p hp => (h'.held p ((h.marked p).mpr hp)).trans (h.held p hp)

theorem Drained.open {b used live : Nat} (h : Drained c c₁) (ho : OpenPage L c b used live) :
    OpenPage L c₁ b used live where
  block := h.block.trans ho.block
  marked := (h.marked b).mpr ho.marked
  word := by
    rw [h.word]
    exact ho.word
  used_le := ho.used_le
  live_eq := ho.live_eq.trans (h.held b ho.marked).symm
  live_le := ho.live_le
  below := fun x hx hb => ho.below x (h.live x hx) hb

theorem Drained.unmarked (h : Drained c c₁) (hnone : ∀ p, c.counts p ≠ claimed) (p : Nat) :
    c₁.counts p ≠ claimed := fun hp => hnone p ((h.marked p).mp hp)

theorem Drained.zero (h : Drained c c₁) {p : Nat} (hz : c.counts p = 0) : c₁.counts p = 0 := by
  have hne : c.counts p ≠ claimed := by
    rw [hz]
    decide
  have := h.counts_le p hne
  omega

theorem Drained.paired (h : Drained c c₁) (hp : Paired L c) : Paired L c₁ where
  current := by
    cases hp.current with
    | closed block unmarked => exact .closed (h.block.trans block) (h.unmarked unmarked)
    | opened b used live ho => exact .opened b used live (h.open ho)
  published := by
    rw [h.highWater]
    exact hp.published

/-- What the thread `t` sees of the steps of the others. -/
structure Sees (t : Tid) (w w₁ : World) : Prop where
  claim : w₁.claims t = w.claims t
  readers : w₁.cells.guard.readers.count t = w.cells.guard.readers.count t
  writer : w₁.cells.guard.writer = some t ↔ w.cells.guard.writer = some t
  drained : w.cells.guard.writer = some t → Drained w.cells w₁.cells
  block : t ∈ w.cells.guard.readers → w₁.cells.currentBlock = w.cells.currentBlock
  highWater : t ∈ w.cells.guard.readers → w₁.cells.highWater = w.cells.highWater
  unmarked : ∀ x, w.claims t = some x → w.cells.counts x.block ≠ claimed →
    w₁.cells.counts x.block ≠ claimed

theorem Sees.refl (t : Tid) (w : World) : Sees t w w where
  claim := rfl
  readers := rfl
  writer := Iff.rfl
  drained := fun _ => .refl _
  block := fun _ => rfl
  highWater := fun _ => rfl
  unmarked := fun _ _ h => h

theorem Sees.reading {w w₁ : World} (h : Sees t w w₁) (ht : t ∈ w.cells.guard.readers) :
    t ∈ w₁.cells.guard.readers := by
  have hpos := List.count_pos_iff.mpr ht
  rw [← h.readers] at hpos
  exact List.count_pos_iff.mp hpos

theorem Sees.trans {w w₁ w₂ : World} (h : Sees t w w₁) (h' : Sees t w₁ w₂) : Sees t w w₂ where
  claim := h'.claim.trans h.claim
  readers := h'.readers.trans h.readers
  writer := h'.writer.trans h.writer
  drained := fun ht => (h.drained ht).trans (h'.drained (h.writer.mpr ht))
  block := fun ht => (h'.block (h.reading ht)).trans (h.block ht)
  highWater := fun ht => (h'.highWater (h.reading ht)).trans (h.highWater ht)
  unmarked := by
    intro x hx hc
    exact h'.unmarked x (h.claim.trans hx) (h.unmarked x hx hc)

/- No page gets the mark while an allocation on it is live, so a page that is opened at cursor 0 is
   an empty one. -/
def discipline (L : Layout) : Discipline World where
  Inv := Shared L
  Step w w₁ := ∀ x ∈ w.cells.live, w.cells.counts x.block ≠ claimed → w₁.cells.counts x.block ≠ claimed
  Rel := Sees
  still := fun _ _ _ h => h
  refl := Sees.refl
  trans := fun _ => Sees.trans

section Moves
variable {w w₁ : World}

/-- A step of the thread `t` to the cells `c`, as far as the others can tell. -/
structure Move (L : Layout) (t : Tid) (w : World) (c : Cells) : Prop where
  sound : Sound L c
  live : ∀ x ∈ w.cells.live, x ∉ c.live → w.claims t = some x
  readers : ∀ u, u ≠ t → c.guard.readers.count u = w.cells.guard.readers.count u
  writer : ∀ u, u ≠ t → (c.guard.writer = some u ↔ w.cells.guard.writer = some u)
  drained : ∀ u, u ≠ t → w.cells.guard.writer = some u → Drained w.cells c
  kept : w.cells.guard.writer ≠ some t →
    c.currentBlock = w.cells.currentBlock ∧ c.highWater = w.cells.highWater
  unmarked : ∀ x ∈ w.cells.live, w.cells.counts x.block ≠ claimed → c.counts x.block ≠ claimed

theorem Move.refl (hw : Shared L w) : Move L t w w.cells where
  sound := hw.sound
  live := fun _ hx hgone => absurd hx hgone
  readers := fun _ _ => rfl
  writer := fun _ _ => Iff.rfl
  drained := fun _ _ _ => .refl _
  kept := fun _ => ⟨rfl, rfl⟩
  unmarked := fun _ _ h => h

end Moves

section Guard
variable {w w₁ : World} {α : Type}

/-- The thread `t` does not hold the guard. -/
def Idle (t : Tid) (w : World) : Prop :=
  w.cells.guard.readers.count t = 0 ∧ w.cells.guard.writer ≠ some t

def Reading (t : Tid) (w : World) : Prop := w.cells.guard.readers.count t = 1

def Writing (t : Tid) (w : World) : Prop := w.cells.guard.writer = some t

theorem Reading.mem (h : Reading t w) : t ∈ w.cells.guard.readers :=
  List.count_pos_iff.mp (by rw [Reading] at h; omega)

theorem Reading.unwritten (h : Reading t w) (hw : Shared L w) : w.cells.guard.writer = none := by
  by_contra hne
  have hmem := h.mem
  rw [hw.sound.alone hne] at hmem
  cases hmem

theorem Reading.paired (h : Reading t w) (hw : Shared L w) : Paired L w.cells :=
  hw.sound.paired (h.unwritten hw)

def Cells.setGuard (c : Cells) (g : RwLock) : Cells := { c with guard := g }

theorem Paired.guard (h : Paired L c) (g : RwLock) : Paired L (c.setGuard g) where
  current := by
    cases h.current with
    | closed block unmarked => exact .closed block unmarked
    | opened b used live ho => exact .opened b used live (ho.guard g)
  published := h.published

/-- Taking and dropping the guard changes nothing but the guard. -/
theorem Move.guard (hw : Shared L w) {g : RwLock} (halone : g.writer ≠ none → g.readers = [])
    (hpaired : g.writer = none → Paired L w.cells)
    (hreaders : ∀ u, u ≠ t → g.readers.count u = w.cells.guard.readers.count u)
    (hwriter : ∀ u, u ≠ t → w.cells.guard.writer ≠ some u ∧ g.writer ≠ some u) :
    Move L t w (w.cells.setGuard g) where
  sound := ⟨hw.sound.pages.current g _ _, halone, hw.sound.encoded, fun hg => (hpaired hg).guard g⟩
  live := fun _ hx hgone => absurd hx hgone
  readers := hreaders
  writer := fun u hu => ⟨fun h => absurd h (hwriter u hu).2, fun h => absurd h (hwriter u hu).1⟩
  drained := fun u hu h => absurd h (hwriter u hu).1
  kept := fun _ => ⟨rfl, rfl⟩
  unmarked := fun _ _ h => h

end Guard

section Writers
variable {w w₁ : World} {α β : Type} {P P' : Cells → Prop}

/-- A step of the holder of the write guard: it marks only pages that count nothing. -/
structure Written (L : Layout) (c c' : Cells) : Prop where
  pages : Pages L c'
  guard : c'.guard = c.guard
  live : c'.live = c.live
  encoded : c'.currentBlock = currentInstalling ∨ c'.currentBlock ≤ L.blockCount
  marked : ∀ p, c'.counts p = claimed → c.counts p = claimed ∨ c.counts p = 0

theorem Written.refl (h : Sound L c) : Written L c c := ⟨h.pages, rfl, rfl, h.encoded, fun _ => .inl⟩

theorem Written.move (hw : Shared L w) (ht : Writing t w) (h : Written L w.cells c) :
    Move L t w c where
  sound := by
    refine ⟨h.pages, ?_, h.encoded, ?_⟩
    · rw [h.guard]
      exact hw.sound.alone
    · rw [h.guard, ht]
      intro hnone
      cases hnone
  live := by
    rw [h.live]
    exact fun _ hx hgone => absurd hx hgone
  readers := fun _ _ => by rw [h.guard]
  writer := fun _ _ => by rw [h.guard]
  drained := by
    intro u hu hwr
    rw [ht] at hwr
    exact absurd (Option.some.inj hwr).symm hu
  kept := fun hne => absurd ht hne
  unmarked := by
    intro x hx hc hmark
    cases h.marked x.block hmark with
    | inl h => exact hc h
    | inr h =>
      have hpos := liveIn_pos hx
      rw [← hw.sound.pages.counted _ hc, h] at hpos
      exact absurd hpos (Nat.lt_irrefl 0)

/-- How a part of a body ended: `Q` of what it returned, or `E` of its error. -/
def Ends (Q : α → Cells → Prop) (E : Error → Cells → Prop) : Except Error α → Cells → Prop
  | .ok a, c => Q a c
  | .error e, c => E e c

/-- A part of a body under the write guard. -/
def Writes (L : Layout) (t : Tid) (p : AllocM α) (P : Cells → Prop) (Q : α → Cells → Prop)
    (E : Error → Cells → Prop) : Prop :=
  ∀ w, Writing t w → P w.cells →
    p.Safe (discipline L) view t (fun r w' => Writing t w' ∧ Ends Q E r w'.cells) w

variable {Q : α → Cells → Prop} {Q' : β → Cells → Prop} {E E' : Error → Cells → Prop}

theorem Writes.pre {p : AllocM α} (h : Writes L t p P Q E) (hP : ∀ c, P' c → P c) :
    Writes L t p P' Q E := fun w ht hw => h w ht (hP _ hw)

theorem Writes.post {p : AllocM α} {Q₁ : α → Cells → Prop} (h : Writes L t p P Q E)
    (hQ : ∀ a c, Q a c → Q₁ a c) : Writes L t p P Q₁ E := by
  intro w ht hw
  refine safe_mono (h w ht hw) ?_
  intro r w' hr
  cases r with
  | ok a => exact ⟨hr.1, hQ a _ hr.2⟩
  | error e => exact hr

theorem Writes.bind {p : AllocM α} {f : α → AllocM β} (h : Writes L t p P Q E)
    (hf : ∀ a, Writes L t (f a) (Q a) Q' E) : Writes L t (p >>= f) P Q' E := by
  intro w ht hw
  rw [safe_bind]
  refine safe_mono (h w ht hw) ?_
  intro r w' hr
  cases r with
  | ok a => exact hf a w' hr.1 hr.2
  | error e => exact hr

/-- The error of the first part is a value for the second. -/
theorem Writes.attempt {p : AllocM α} {f : Except Error α → AllocM β} (h : Writes L t p P Q E)
    (hok : ∀ a, Writes L t (f (.ok a)) (Q a) Q' E')
    (herr : ∀ e, Writes L t (f (.error e)) (E e) Q' E') : Writes L t (p.attempt >>= f) P Q' E' := by
  intro w ht hw
  rw [safe_bind, safe_attempt]
  refine safe_mono (h w ht hw) ?_
  intro r w' hr
  cases r with
  | ok a => exact hok a w' hr.1 hr.2
  | error e => exact herr e w' hr.1 hr.2

end Writers

end FlorestaDb.Allocator
