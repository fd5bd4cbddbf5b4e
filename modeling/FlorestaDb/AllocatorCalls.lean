import FlorestaDb.AllocatorSequential

/-! The calls of the allocator, one specification each: what a single thread gets
back and what is live afterwards. -/
namespace FlorestaDb.Allocator
open Program Program.Prog

variable {L : Layout} {v : Env} {t : Tid} {c : Cells} {fuel : Nat}

/-- The page bookkeeping does not look at the guard or at the current page. -/
theorem Pages.current (hp : Pages L c) (g : RwLock) (b : Nat) (w : UInt64) :
    Pages L { c with guard := g, currentBlock := b, currentWord := w } :=
  ⟨hp.fits, hp.apart, hp.counted, hp.count_le, hp.claimed_lt, hp.claimed_one, hp.pages_le,
    hp.counts_mapped, hp.data_mapped, hp.lengths⟩

theorem OpenPage.guard {b used live : Nat} (ho : OpenPage L c b used live) (g : RwLock) :
    OpenPage L { c with guard := g } b used live :=
  ⟨ho.block, ho.marked, ho.word, ho.used_le, ho.live_eq, ho.live_le, ho.below⟩

theorem packCurrent_fresh : ∃ word, packCurrent .opened 0 0 = .ok word :=
  packCurrent_ok .opened 0 (by decide)

/-- The current page is known: none, or a page at cursor zero. -/
inductive Emptied (L : Layout) (c : Cells) : Prop where
  | closed (block : c.currentBlock = 0)
  | fresh (b : Nat) (h : OpenPage L c b 0 0)

section Install
variable {requestedBytes : Nat}

theorem quiet_opened (hp : Pages L c) (hs : c.highWater < growingBit) {b : Nat}
    (hb : b < c.pages) (hz : c.counts b = 0) (hnone : ∀ p, c.counts p ≠ claimed) {word : UInt64}
    (hw : packCurrent .opened 0 0 = .ok word) :
    Quiet L { c.setCount b claimed with
      guard := RwLock.free, currentBlock := b + 1, currentWord := word } ∧
    OpenPage L { c.setCount b claimed with
      guard := RwLock.free, currentBlock := b + 1, currentWord := word } b 0 0 := by
  have hlive : liveIn c.live b = 0 := by rw [← hp.counted b (hnone b), hz]
  have ho : OpenPage L { c.setCount b claimed with
      guard := RwLock.free, currentBlock := b + 1, currentWord := word } b 0 0 :=
    OpenPage.fresh rfl (by simp [Cells.setCount]) rfl hw hlive
  exact ⟨⟨(hp.claim hb hz hnone).current _ _ _, .opened b 0 0 ho, rfl, hs⟩, ho⟩

/-- Installing a page where none is open. -/
theorem installCurrent_spec (hL : L.Ok) (hq : Quiet L c) (hc : c.currentBlock = 0)
    (hb : requestedBytes < 2 ^ 63) (hf : v = .fair → 2 ≤ fuel) :
    (installCurrent L requestedBytes fuel).wp v t (fun r c' => Quiet L c' ∧ c'.live = c.live ∧
      ((r = .ok () ∧ ∃ b, OpenPage L c' b 0 0) ∨ ∃ e, r = .error e ∧ c'.currentBlock = 0 ∧
        Shortage v (∀ p < L.blockCount, liveIn c.live p ≠ 0) e)) c := by
  have hnone : ∀ p, c.counts p ≠ claimed := by
    cases hq.current with
    | closed _ h => exact h
    | opened b used live ho => exact absurd (hc.symm.trans ho.block) (Nat.succ_ne_zero b).symm
  refine wp_withWrite hq.unlocked ?_
  rw [wp_bind, wp_casCurrentBlock, if_pos hc, andThen_ok, if_pos rfl, wp_bind, wp_attempt]
  refine wp_mono (claimPage_spec hL (hq.pages.current _ currentInstalling _) hq.settled hnone hb
    hf) ?_
  rintro r c' ⟨d, hgrown, ⟨b, rfl, hlt, hz, rfl⟩ | ⟨e, rfl, rfl, he⟩⟩
  · obtain ⟨word, hword⟩ := packCurrent_fresh
    have hple := hgrown.pages.pages_le
    have hcb := hL.count_bound
    have hu : u64Bound = 2 ^ 64 := rfl
    have hdlive : d.live = c.live := by rw [hgrown.eq]
    have hdguard : d.guard = ⟨[], some t⟩ := by rw [hgrown.eq]
    have hdnone : ∀ p, d.counts p ≠ claimed := by
      rw [hgrown.eq]
      exact hnone
    obtain ⟨hquiet, hopen⟩ := quiet_opened hgrown.pages hgrown.settled hlt hz hdnone hword
    simp only [andThen_ok]
    rw [hword, wp_bind, wp_ofExcept, andThen_ok, wp_bind, wp_storeCurrentWord, andThen_ok,
      encodeBlock, checkedAdd_of_lt (by omega), okOr_some, wp_bind, wp_ofExcept, andThen_ok,
      wp_storeCurrentBlock]
    exact ⟨hdguard, hquiet, hdlive, Or.inl ⟨rfl, b, hopen⟩⟩
  · simp only [andThen_ok]
    rw [wp_bind, wp_storeCurrentBlock, andThen_ok, wp_throw]
    have hcounts : c'.counts = c.counts := by rw [hgrown.eq]
    refine ⟨by rw [hgrown.eq], ⟨hgrown.pages.current _ _ _, .closed rfl ?_, rfl, hgrown.settled⟩,
      by rw [hgrown.eq], Or.inr ⟨e, rfl, rfl, he.mono ?_⟩⟩
    · intro p
      change c'.counts p ≠ claimed
      rw [hcounts]
      exact hnone p
    · rintro ⟨hle, hcount⟩ p hp
      rw [← hq.pages.counted p (hnone p)]
      exact hcount p (Nat.lt_of_lt_of_le hp hle)

end Install

section Seal
variable {b used live : Nat}

/-- The page the run continues in counts nothing and is published. -/
theorem nextOfRun_spec (hL : L.Ok) (hp : Pages L c) (hs : c.highWater < growingBit)
    (hb : b < c.pages) (continueRun : Bool) (hf : v = .fair → 1 ≤ fuel) :
    (nextOfRun L b continueRun fuel).wp v t (fun r c' => c' = c ∧ ∃ next, r = .ok next ∧
      (continueRun = false → next = none) ∧
      ∀ n, next = some n → n = b + 1 ∧ n < c.pages ∧ c.counts n = 0) c := by
  have hple := hp.pages_le
  have hcb := hL.count_bound
  have hu : u64Bound = 2 ^ 64 := rfl
  cases continueRun with
  | false => exact ⟨rfl, none, rfl, fun _ => rfl, fun n h => by cases h⟩
  | true =>
    rw [nextOfRun, if_pos rfl, checkedAdd_of_lt (by omega), okOr_some, wp_bind, wp_ofExcept,
      andThen_ok, wp_bind]
    refine nextBlockValue_spec hs hf ?_
    have hpages : c.pages = c.highWater := Nat.mod_eq_of_lt hs
    rw [andThen_ok]
    by_cases hn : b + 1 < c.highWater
    · rw [if_pos hn, wp_bind, wp_readCount hp hL (by omega), andThen_ok]
      by_cases hz : c.counts (b + 1) = 0
      · rw [if_pos hz, wp_pure]
        refine ⟨rfl, _, rfl, (fun h => by cases h), ?_⟩
        intro n hn'
        obtain rfl := Option.some.inj hn'
        exact ⟨rfl, by omega, hz⟩
      · rw [if_neg hz, wp_pure]
        exact ⟨rfl, none, rfl, fun _ => rfl, fun n h => by cases h⟩
    · rw [if_neg hn, wp_pure]
      exact ⟨rfl, none, rfl, fun _ => rfl, fun n h => by cases h⟩

/-- The word of the open page is handed over to its count, and the run goes on in `next`. -/
theorem sealWord_spec (hL : L.Ok) (hp : Pages L c) (hs : c.highWater < growingBit)
    (hm : c.counts b = claimed) (hw : packCurrent .opened used live = .ok c.currentWord)
    (hlive : live = liveIn c.live b) (hle : live ≤ maxLive) {next : Option Nat}
    (hnext : ∀ n, next = some n → n < c.pages ∧ c.counts n = 0) (hf : v = .fair → 1 ≤ fuel) :
    (sealWord L (b + 1) b next fuel).wp v t (fun r c' => r = .ok () ∧ c'.guard = c.guard ∧
      c'.live = c.live ∧ Quiet L { c' with guard := RwLock.free } ∧
      Emptied L { c' with guard := RwLock.free } ∧
      (next = none → c'.currentBlock = 0)) c := by
  cases fuel with
  | zero =>
    cases v with
    | fair => exact absurd (hf rfl) (by decide)
    | any => exact rfl
  | succ fuel =>
    have hl16 : live < 2 ^ 16 := Nat.lt_of_le_of_lt hle (by decide)
    obtain ⟨sealing, hsealing⟩ := packCurrent_ok .sealing live (packCurrent_toNat hl16 hw).2
    have hb := hp.claimed_lt b hm
    have hp' := hp.current c.guard c.currentBlock sealing
    rw [sealWord, wp_bind, wp_loadCurrentWord, andThen_ok, currentState_pack hl16 hw, wp_bind,
      wp_ofExcept, andThen_ok, if_neg (by simp), currentUsed_pack hl16 hw,
      currentLive_pack hl16 hw, hsealing, wp_bind, wp_ofExcept, andThen_ok, wp_bind,
      wp_casCurrentWord, if_pos rfl, andThen_ok, if_pos rfl, id_eq, wp_bind,
      wp_casCount hp' hL hb, if_pos hm, andThen_ok, if_pos rfl, id_eq]
    have hsealed := hp.seal hm hlive hle
    have hnone := seal_unmarked hp hm hle
    cases next with
    | none =>
      rw [openNext, wp_bind, wp_storeCurrentWord, andThen_ok, wp_storeCurrentBlock]
      exact ⟨rfl, rfl, rfl, ⟨hsealed.current _ _ _, .closed rfl hnone, rfl, hs⟩, .closed rfl,
        fun _ => rfl⟩
    | some n =>
      obtain ⟨hn, hz⟩ := hnext n rfl
      have hnb : n ≠ b := by
        rintro rfl
        rw [hm] at hz
        exact absurd hz (by decide)
      obtain ⟨word, hword⟩ := packCurrent_fresh
      have hple := hp.pages_le
      have hcb := hL.count_bound
      have hu : u64Bound = 2 ^ 64 := rfl
      have hz' : (c.setCount b live).counts n = 0 := by
        simp only [Cells.setCount, Function.update_of_ne hnb]
        exact hz
      obtain ⟨hquiet, hopen⟩ := quiet_opened hsealed hs hn hz' hnone hword
      rw [openNext, wp_bind]
      refine (wp_storeCount (hsealed.current c.guard c.currentBlock sealing) hL hn).mpr ?_
      rw [andThen_ok, hword, wp_bind, wp_ofExcept, andThen_ok, wp_bind, wp_storeCurrentWord, andThen_ok,
        encodeBlock, checkedAdd_of_lt (by omega), okOr_some, wp_bind, wp_ofExcept, andThen_ok,
        wp_storeCurrentBlock]
      exact ⟨rfl, rfl, rfl, hquiet, .fresh n hopen, fun h => by cases h⟩

/-- Sealing the open page. -/
theorem sealCurrentBlock_spec (hL : L.Ok) (hq : Quiet L c) (ho : OpenPage L c b used live)
    (continueRun : Bool) (hf : v = .fair → 1 ≤ fuel) :
    (sealCurrentBlock L (b + 1) continueRun fuel).wp v t (fun r c' => r = .ok () ∧ Quiet L c' ∧
      c'.live = c.live ∧ Emptied L c' ∧ (continueRun = false → c'.currentBlock = 0)) c := by
  have hb := hq.pages.claimed_lt b ho.marked
  refine wp_withWrite hq.unlocked ?_
  have hp := hq.pages.current ⟨[], some t⟩ c.currentBlock c.currentWord
  rw [decodeBlock, checkedSub_of_le (by omega), okOr_some, wp_bind, wp_ofExcept, andThen_ok,
    wp_bind, Nat.add_sub_cancel]
  refine wp_mono (nextOfRun_spec hL hp hq.settled hb continueRun hf) ?_
  rintro _ _ ⟨rfl, next, rfl, hnone, hnext⟩
  rw [andThen_ok, wp_bind, wp_casCurrentBlock, if_pos ho.block, andThen_ok, if_pos rfl]
  refine wp_mono (sealWord_spec hL (hq.pages.current _ currentInstalling _) hq.settled ho.marked
    ho.word ho.live_eq ho.live_le (fun n hn => (hnext n hn).2) hf) ?_
  rintro r c' ⟨rfl, hg, hlive, hquiet, hempty, hclosed⟩
  exact ⟨hg, rfl, hquiet, hlive, hempty, fun h => hclosed (hnone h)⟩

/-- `seal_current` closes the unfinished page, if there is one. -/
theorem sealCurrent_spec (hL : L.Ok) (hq : Quiet L c) (hf : v = .fair → 1 ≤ fuel) :
    (sealCurrent L fuel).wp v t (fun r c' => r = .ok () ∧ Quiet L c' ∧ c'.live = c.live ∧
      c'.currentBlock = 0) c := by
  cases fuel with
  | zero =>
    cases v with
    | fair => exact absurd (hf rfl) (by decide)
    | any => exact rfl
  | succ fuel =>
    rw [sealCurrent, wp_bind, wp_loadCurrentBlock, andThen_ok]
    cases hq.current with
    | closed hc _ =>
      rw [hc, if_neg (by decide), if_pos rfl, wp_pure]
      exact ⟨rfl, hq, rfl, hc⟩
    | opened b used live ho =>
      have hb := hq.pages.claimed_lt b ho.marked
      have hple := hq.pages.pages_le
      have hcb := hL.count_bound
      have hi : currentInstalling = 2 ^ 64 - 1 := rfl
      rw [ho.block, if_neg (by omega), if_neg (by omega)]
      refine wp_mono (sealCurrentBlock_spec hL hq ho false fun _ => Nat.le_add_left _ _) ?_
      rintro r c' ⟨rfl, hquiet, hlive, -, hclosed⟩
      exact ⟨rfl, hquiet, hlive, hclosed rfl⟩

end Seal

section Allocate
variable {length alignment stride requested growthBytes : Nat}

/-- The open page is described by the word alone. -/
theorem OpenPage.unique {b used live b' used' live' : Nat} (h : OpenPage L c b used live)
    (h' : OpenPage L c b' used' live') : used = used' ∧ live = live' := by
  have hl : live < 2 ^ 16 := Nat.lt_of_le_of_lt h.live_le (by decide)
  have hl' : live' < 2 ^ 16 := Nat.lt_of_le_of_lt h'.live_le (by decide)
  exact ⟨(currentUsed_pack hl h.word).symm.trans (currentUsed_pack hl' h'.word),
    (currentLive_pack hl h.word).symm.trans (currentLive_pack hl' h'.word)⟩

/-- What a granted request is: `count` aligned pieces in one page. -/
structure Granted (L : Layout) (length alignment requested : Nat) (batch : AllocationBatch) :
    Prop where
  length_eq : batch.length = length
  stride_eq : alignUp length alignment = some batch.stride
  count_pos : 0 < batch.count
  count_le : batch.count ≤ requested
  aligned : ∃ k, batch.offset = pageStart L batch.block + k * alignment

/-- No open page takes one more piece. -/
def NoRoom (L : Layout) (length alignment : Nat) (c : Cells) : Prop :=
  ∀ b used live, OpenPage L c b used live → PageFull L used live length alignment

/-- The page a request is carved from: the open page if it has room, or else a page
without live allocations, opened at cursor zero. -/
structure Turned (L : Layout) (length alignment : Nat) (c c₁ : Cells) (b used live : Nat) :
    Prop where
  quiet : Quiet L c₁
  page : OpenPage L c₁ b used live
  room : ¬PageFull L used live length alignment
  live_eq : c₁.live = c.live
  origin : c₁ = c ∨ used = 0 ∧ live = 0 ∧ NoRoom L length alignment c

/-- Where the pieces of a granted request come from. -/
def Carving (L : Layout) (length alignment requested : Nat) (c c' : Cells)
    (batch : AllocationBatch) : Prop :=
  ∃ c₁ b used live, Turned L length alignment c c₁ b used live ∧
    Reserved L c₁ c' b used live length alignment batch.stride requested batch

/-- Every page is in use and the open one is full. -/
def Stuck (L : Layout) (length alignment : Nat) (c : Cells) : Prop :=
  (∀ p < L.blockCount, liveIn c.live p ≠ 0) ∧ NoRoom L length alignment c

/-- The outcome of a request: the pieces are live, or nothing happened. -/
def Served (L : Layout) (v : Env) (length alignment requested : Nat) (c : Cells)
    (r : Except Error AllocationBatch) (c' : Cells) : Prop :=
  Quiet L c' ∧
    ((∃ batch, r = .ok batch ∧ Granted L length alignment requested batch ∧
        c'.live = batch.allocations ++ c.live ∧
        Carving L length alignment requested c c' batch) ∨
      ∃ e, r = .error e ∧ c'.live = c.live ∧ c'.currentBlock = 0 ∧
        Shortage v (Stuck L length alignment c) e)

/-- A request that first had to change the open page. -/
theorem Served.of_turn {c d : Cells} (h : d.live = c.live) (hfull : NoRoom L length alignment c)
    (hd : NoRoom L length alignment d ∨ ∃ b, OpenPage L d b 0 0)
    {r : Except Error AllocationBatch} {c' : Cells}
    (hs : Served L v length alignment requested d r c') :
    Served L v length alignment requested c r c' := by
  obtain ⟨hq, ⟨batch, rfl, hg, hlive, c₁, b, used, live, hturn, hres⟩ | ⟨e, rfl, hlive, hclosed, he⟩⟩ := hs
  · refine ⟨hq, Or.inl ⟨batch, rfl, hg, by rw [hlive, h], c₁, b, used, live, ?_, hres⟩⟩
    refine ⟨hturn.quiet, hturn.page, hturn.room, hturn.live_eq.trans h, Or.inr ?_⟩
    rcases hturn.origin with rfl | ⟨hu, hl, -⟩
    · rcases hd with hd | ⟨b', ho⟩
      · exact absurd (hd b used live hturn.page) hturn.room
      · obtain ⟨rfl, rfl⟩ := hturn.page.unique ho
        exact ⟨rfl, rfl, hfull⟩
    · exact ⟨hu, hl, hfull⟩
  · exact ⟨hq, Or.inr ⟨e, rfl, hlive.trans h, hclosed, he.mono fun hstuck => ⟨h ▸ hstuck.1, hfull⟩⟩⟩

theorem granted_of_reserved {c' : Cells} {b used live : Nat} {batch : AllocationBatch}
    (hr : Request L length alignment stride requested)
    (h : Reserved L c c' b used live length alignment stride requested batch) :
    Granted L length alignment requested batch := by
  refine ⟨h.length_eq, ?_, h.carved.count_pos, ?_, (used + (alignment - 1)) / alignment,
    h.carved.offset⟩
  · rw [h.stride_eq]
    exact hr.stride_eq
  · rw [h.count_eq, carvedCount]
    omega

theorem quiet_of_reserved {c' : Cells} {b used live : Nat} {batch : AllocationBatch}
    (hq : Quiet L c) (ho : OpenPage L c b used live)
    (hr : Request L length alignment stride requested)
    (h : Reserved L c c' b used live length alignment stride requested batch) :
    Quiet L c' ∧ c'.live = batch.allocations ++ c.live := by
  obtain ⟨word, hword, rfl⟩ := h.fresh
  have hs : used ≤ alignedStart used alignment := (roundUp_bounds used hr.align_pos).1
  have hlive := ho.live_le
  have hcount : live + batch.count ≤ maxLive := by
    rw [h.count_eq, carvedCount]
    omega
  exact ⟨⟨hq.pages.reserve ho h.carved h.block hs word,
    .opened _ _ _ (ho.reserve h.carved h.block hs hcount hword), hq.unlocked, hq.settled⟩, rfl⟩

/-- One pass over an open page that has room. -/
theorem reserveLoop_open (hL : L.Ok) (hq : Quiet L c) {b used live : Nat}
    (ho : OpenPage L c b used live) (hr : Request L length alignment stride requested)
    (hnf : ¬PageFull L used live length alignment) (hf : v = .fair → 1 ≤ fuel) :
    (reserveLoop L length alignment stride requested growthBytes fuel).wp v t
      (Served L v length alignment requested c) c := by
  cases fuel with
  | zero =>
    cases v with
    | fair => exact absurd (hf rfl) (by decide)
    | any => exact rfl
  | succ fuel =>
    rw [reserveLoop, wp_bind]
    refine wp_withRead hq.unlocked ?_
    refine wp_mono (reserveOnce_open hL (hq.pages.current _ _ _) (ho.guard _) hr) ?_
    rintro r c' (⟨hfull, -, -⟩ | ⟨-, batch, rfl, hres⟩)
    · exact absurd hfull hnf
    · have hg : c'.guard = ⟨[t], none⟩ := by
        obtain ⟨word, -, rfl⟩ := hres.fresh
        rfl
      have hres' : Reserved L c { c' with guard := RwLock.free } b used live length alignment stride
          requested batch := by
        obtain ⟨word, hword, rfl⟩ := hres.fresh
        refine ⟨hres.carved, hres.block, hres.length_eq, hres.stride_eq, hres.count_eq, word,
          hword, ?_⟩
        simp only [← hq.unlocked]
      obtain ⟨hquiet, hlive⟩ := quiet_of_reserved hq ho hr hres'
      refine ⟨hg, ?_⟩
      simp only [andThen_ok]
      rw [wp_pure]
      refine ⟨hquiet, Or.inl ⟨batch, rfl, granted_of_reserved hr hres', hlive, c, b, used, live,
        ⟨hq, ho, hnf, rfl, Or.inl rfl⟩, ?_⟩⟩
      rw [hres'.stride_eq]
      exact hres'

theorem fresh_not_full (hr : Request L length alignment stride requested) :
    ¬PageFull L 0 0 length alignment := by
  have h1 := hr.length_le
  have h2 : alignedStart 0 alignment = 0 := by
    have hlt : 0 + (alignment - 1) < alignment := by
      have := hr.align_pos
      omega
    rw [alignedStart, Nat.div_eq_of_lt hlt, Nat.zero_mul]
  rintro (h | h)
  · omega
  · exact absurd h (by decide)

/-- No page is open: one is installed, and it has room. -/
theorem reserveLoop_closed (hL : L.Ok) (hq : Quiet L c) (hc : c.currentBlock = 0)
    (hr : Request L length alignment stride requested) (hb : growthBytes < 2 ^ 63)
    (hf : v = .fair → 2 ≤ fuel) :
    (reserveLoop L length alignment stride requested growthBytes fuel).wp v t
      (Served L v length alignment requested c) c := by
  cases fuel with
  | zero =>
    cases v with
    | fair => exact absurd (hf rfl) (by decide)
    | any => exact rfl
  | succ fuel =>
    rw [reserveLoop, wp_bind]
    refine wp_withRead hq.unlocked ?_
    apply reserveOnce_closed
    · exact hc
    refine ⟨rfl, ?_⟩
    have hself : { c with guard := RwLock.free } = c := by rw [← hq.unlocked]
    simp only [andThen_ok]
    rw [hself, wp_bind]
    refine wp_mono (installCurrent_spec hL hq hc hb hf) ?_
    have hfull : NoRoom L length alignment c := fun b used live ho =>
      absurd (hc.symm.trans ho.block) (Nat.succ_ne_zero b).symm
    rintro r d ⟨hqd, hlive, ⟨rfl, b, ho⟩ | ⟨e, rfl, hclosed, he⟩⟩
    · rw [andThen_ok]
      refine wp_mono (reserveLoop_open hL hqd ho hr (fresh_not_full hr)
        fun hv => Nat.le_of_succ_le_succ (hf hv)) ?_
      intro r c' hs
      exact hs.of_turn hlive hfull (Or.inr ⟨b, ho⟩)
    · rw [andThen_error]
      exact ⟨hqd, Or.inr ⟨e, rfl, hlive, hclosed, he.mono fun h => ⟨h, hfull⟩⟩⟩

theorem reserveLoop_spec (hL : L.Ok) (hq : Quiet L c)
    (hr : Request L length alignment stride requested) (hb : growthBytes < 2 ^ 63)
    (hf : v = .fair → 3 ≤ fuel) :
    (reserveLoop L length alignment stride requested growthBytes fuel).wp v t
      (Served L v length alignment requested c) c := by
  cases hq.current with
  | closed hc _ => exact reserveLoop_closed hL hq hc hr hb fun hv => Nat.le_of_succ_le (hf hv)
  | opened b used live ho =>
    by_cases hfull : PageFull L used live length alignment
    · cases fuel with
      | zero =>
        cases v with
        | fair => exact absurd (hf rfl) (by decide)
        | any => exact rfl
      | succ fuel =>
        rw [reserveLoop, wp_bind]
        refine wp_withRead hq.unlocked ?_
        refine wp_mono (reserveOnce_open hL (hq.pages.current _ _ _) (ho.guard _) hr) ?_
        rintro r c' (⟨-, rfl, rfl⟩ | ⟨hnf, -⟩)
        · refine ⟨rfl, ?_⟩
          have hself : { c with guard := RwLock.free } = c := by rw [← hq.unlocked]
          simp only [andThen_ok]
          rw [hself, wp_bind]
          refine wp_mono (sealCurrentBlock_spec hL hq ho true fun _ => Nat.le_add_left _ _) ?_
          rintro r d ⟨rfl, hqd, hlive, hempty, -⟩
          rw [andThen_ok]
          have hf' : v = .fair → 2 ≤ fuel := fun hv => Nat.le_of_succ_le_succ (hf hv)
          have hnoroom : NoRoom L length alignment c := by
            intro b' used' live' ho'
            obtain ⟨rfl, rfl⟩ := ho.unique ho'
            exact hfull
          cases hempty with
          | closed hc =>
            refine wp_mono (reserveLoop_closed hL hqd hc hr hb hf') ?_
            intro r c' hs
            refine hs.of_turn hlive hnoroom (Or.inl fun b' used' live' ho' => ?_)
            exact absurd (hc.symm.trans ho'.block) (Nat.succ_ne_zero b').symm
          | fresh b' ho' =>
            refine wp_mono (reserveLoop_open hL hqd ho' hr (fresh_not_full hr)
              fun hv => Nat.le_of_succ_le (hf' hv)) ?_
            intro r c' hs
            exact hs.of_turn hlive hnoroom (Or.inr ⟨b', ho'⟩)
        · exact absurd hfull hnf
    · exact reserveLoop_open hL hq ho hr hfull fun hv => by
        have := hf hv
        omega

/-- Why `allocate_batch` refused: a length that fits no page, or no page left. -/
structure Refused (L : Layout) (v : Env) (length alignment maximumCount : Nat) (c : Cells)
    (e : Error) : Prop where
  refusal : Refusal v e
  short : 0 < length → length ≤ L.blockSize → 0 < maximumCount →
    Shortage v (Stuck L length alignment c) e

/-- Nothing was granted: the open page is the one that was open, or it was sealed. -/
structure Ungranted (c c' : Cells) : Prop where
  live : c'.live = c.live
  current : c'.currentBlock = c.currentBlock ∨ c'.currentBlock = 0

/-- `allocate_batch` grants between one and `maximumCount` pieces, or refuses. -/
theorem allocateBatch_spec (hL : L.Ok) (hq : Quiet L c) {maximumCount : Nat}
    (hpow : isPowerOfTwo alignment = true) (hap : 0 < alignment) (hal : alignment ≤ L.blockSize)
    (hf : v = .fair → 3 ≤ fuel) :
    (allocateBatch L fuel length alignment maximumCount).wp v t (fun r c' => Quiet L c' ∧
      ((∃ batch, r = .ok batch ∧ Granted L length alignment maximumCount batch ∧
          c'.live = batch.allocations ++ c.live ∧
          Carving L length alignment (min (min maximumCount (2 ^ 32 - 1)) maxLive) c c' batch) ∨
        ∃ e, r = .error e ∧ Refused L v length alignment maximumCount c e ∧ Ungranted c c')) c := by
  by_cases hbad : length = 0 ∨ length > L.blockSize ∨ maximumCount = 0
  · rw [allocateBatch, if_pos hbad, wp_throw]
    refine ⟨hq, Or.inr ⟨_, rfl, ⟨Or.inl rfl, ?_⟩, rfl, Or.inl rfl⟩⟩
    intro h1 h2 h3
    omega
  · rw [not_or, not_or] at hbad
    have hbs := hL.block_bound
    have hu : u64Bound = 2 ^ 64 := rfl
    have hmax : maxLive = 65534 := rfl
    have hround := roundUp_bounds length hap
    have halign := alignUp_eq hpow hap (show length + (alignment - 1) < u64Bound by omega)
    generalize (length + (alignment - 1)) / alignment * alignment = stride at hround halign
    have hreq : Request L length alignment stride (min (min maximumCount (2 ^ 32 - 1)) maxLive) :=
      ⟨by omega, by omega, hpow, hap, hal, halign, by omega, by omega⟩
    have hmul : stride * min (min maximumCount (2 ^ 32 - 1)) maxLive ≤ 2 ^ 32 * 65534 :=
      Nat.mul_le_mul (by omega) (by omega)
    rw [allocateBatch, if_neg (by omega), if_neg (by rw [hpow]; simp; omega), halign, okOr_some,
      wp_bind, wp_ofExcept, andThen_ok]
    simp only
    rw [checkedMul_of_lt (by omega), okOr_some, wp_bind, wp_ofExcept, andThen_ok]
    refine wp_mono (reserveLoop_spec hL hq hreq (by omega) hf) ?_
    rintro r c' ⟨hq', ⟨batch, rfl, hg, hlive, hcarve⟩ | ⟨e, rfl, hlive, hclosed, he⟩⟩
    · refine ⟨hq', Or.inl ⟨batch, rfl, ⟨hg.length_eq, hg.stride_eq, hg.count_pos, ?_, hg.aligned⟩,
        hlive, hcarve⟩⟩
      have := hg.count_le
      omega
    · exact ⟨hq', Or.inr ⟨e, rfl, ⟨he.refusal, fun _ _ _ => he⟩, hlive, Or.inr hclosed⟩⟩

/-- What `allocate` hands out: a new live allocation, at the cursor of the open page. -/
structure Fresh (L : Layout) (length alignment : Nat) (c c' : Cells) (x : Allocation) : Prop where
  length_eq : x.length = length
  aligned : ∃ k, x.offset = pageStart L x.block + k * alignment
  live : c'.live = x :: c.live
  place : ∃ c₁ used held word, Turned L length alignment c c₁ x.block used held ∧
    x.offset = pageStart L x.block + alignedStart used alignment ∧
    packCurrent .opened (alignedStart used alignment + length) (held + 1) = .ok word ∧
    c' = { c₁ with currentWord := word, live := x :: c₁.live }

theorem allocate_spec (hL : L.Ok) (hq : Quiet L c) (hpow : isPowerOfTwo alignment = true)
    (hap : 0 < alignment) (hal : alignment ≤ L.blockSize) (hf : v = .fair → 3 ≤ fuel) :
    (allocate L fuel length alignment).wp v t (fun r c' => Quiet L c' ∧
      ((∃ x, r = .ok x ∧ Fresh L length alignment c c' x) ∨
        ∃ e, r = .error e ∧ Refused L v length alignment 1 c e ∧ Ungranted c c')) c := by
  rw [allocate, wp_bind]
  refine wp_mono (allocateBatch_spec hL hq hpow hap hal hf) ?_
  rintro r c' ⟨hq', ⟨batch, rfl, hg, hlive, hcarve⟩ | ⟨e, rfl, he, hnone⟩⟩
  · have hone : batch.count = 1 := by
      have h1 := hg.count_pos
      have h2 := hg.count_le
      omega
    have hall : batch.allocations = [⟨batch.offset, batch.length, batch.block⟩] := by
      rw [AllocationBatch.allocations, hone]
      simp
    rw [andThen_ok, hall, List.head?_cons, okOr_some, wp_ofExcept]
    refine ⟨hq', Or.inl ⟨_, rfl, hg.length_eq, hg.aligned, ?_, ?_⟩⟩
    · rw [hlive, hall]
      rfl
    · obtain ⟨c₁, b, used, held, hturn, hres⟩ := hcarve
      obtain ⟨word, hword, rfl⟩ := hres.fresh
      obtain rfl := hres.block
      rw [hone, Nat.sub_self, Nat.zero_mul, Nat.add_zero] at hword
      refine ⟨c₁, used, held, word, hturn, hres.carved.offset, hword, ?_⟩
      rw [hall]
      rfl
  · rw [andThen_error]
    exact ⟨hq', Or.inr ⟨e, rfl, he, hnone⟩⟩

end Allocate

section Release
variable {x : Allocation}

theorem Quiet.free_guard (hq : Quiet L c) : { c with guard := RwLock.free } = c := by
  rw [← hq.unlocked]

/-- The allocation recomputed from its offset and length is itself. -/
theorem allocationFor_fits (hL : L.Ok) (hx : x.Fits L) (hb : x.block < L.blockCount) :
    allocationFor L x.offset x.length = .ok x := by
  have h1 := hx.length_pos
  have h2 := hx.start_le
  have h3 := hx.end_le
  have hbs := hL.block_pos
  have hle := pageStart_mono L (show x.block + 1 ≤ L.blockCount from hb)
  have hbound := hL.page_bound (Nat.le_refl L.blockCount)
  have hcap := hL.capacity_eq
  have hu : u64Bound = 2 ^ 64 := rfl
  have hmul : (x.block + 1) * L.blockSize = x.block * L.blockSize + L.blockSize :=
    Nat.succ_mul _ _
  simp only [pageStart] at h2 h3 hle
  have hdiv : ∀ y, x.offset - dataStart ≤ y → y < x.offset - dataStart + x.length →
      y / L.blockSize = x.block := by
    intro y hy1 hy2
    rw [Nat.div_eq_iff hbs]
    omega
  rw [allocationFor, validateDataRange, checkedSub_of_le (by omega), okOr_some, ok_bind,
    checkedAdd_of_lt (by omega), okOr_some, ok_bind, if_neg (by omega), ok_bind, okOr_some, ok_bind]
  simp only
  rw [checkedAdd_of_lt (by omega), okOr_some, ok_bind, hdiv _ (by omega) (by omega),
    hdiv _ (by omega) (by omega), if_neg (by simp)]

theorem validateAllocation_fits (hL : L.Ok) (hx : x.Fits L) (hb : x.block < L.blockCount) :
    validateAllocation L x = .ok () := by
  rw [validateAllocation, allocationFor_fits hL hx hb, ok_bind, if_neg (by simp)]

theorem validateAllocation_live (hL : L.Ok) (hp : Pages L c) (hx : x ∈ c.live) :
    validateAllocation L x = .ok () :=
  validateAllocation_fits hL (hp.fits x hx).1 (Nat.lt_of_lt_of_le (hp.fits x hx).2 hp.pages_le)

/-- The page of a live allocation that is not open counts it. -/
theorem Pages.count_live (hp : Pages L c) (hx : x ∈ c.live) (hc : c.counts x.block ≠ claimed) :
    ¬(c.counts x.block = 0 ∨ c.counts x.block = claimed) := by
  have h1 := liveIn_pos hx
  have h2 := hp.counted _ hc
  omega

/-- The packed word or the count vouches for a live allocation. -/
theorem validateRelease_spec (hL : L.Ok) (hq : Quiet L c) (hx : x ∈ c.live)
    (hf : v = .fair → 1 ≤ fuel) :
    (validateRelease L x fuel).wp v t (fun r c' => r = .ok () ∧ c' = c) c := by
  rw [validateRelease, validateAllocation_live hL hq.pages hx, wp_bind, wp_ofExcept, andThen_ok]
  cases fuel with
  | zero =>
    cases v with
    | fair => exact absurd (hf rfl) (by decide)
    | any => exact rfl
  | succ fuel =>
    have hblock := (hq.pages.fits x hx).2
    have hple := hq.pages.pages_le
    have hcb := hL.count_bound
    have hi : currentInstalling = 2 ^ 64 - 1 := rfl
    rw [validateLoop, wp_bind]
    refine wp_withRead hq.unlocked ?_
    have hother : c.counts x.block ≠ claimed →
        ((readCount L x.block >>= fun count => if count = 0 ∨ count = claimed then
          Prog.throw (.corrupt "released allocation belongs to an inactive page")
          else pure ()) : AllocM Unit).wp v t (fun r c' => r = .ok () ∧ c' = c) c := by
      intro hc
      rw [wp_bind, wp_readCount hq.pages hL hblock, andThen_ok, if_neg (hq.pages.count_live hx hc),
        wp_pure]
      exact ⟨rfl, rfl⟩
    rw [validateOnce, wp_bind, wp_loadCurrentBlock, andThen_ok]
    cases hq.current with
    | closed hc hnone =>
      have hne1 : ¬c.currentBlock = currentInstalling := by omega
      have hne2 : ¬(c.currentBlock ≠ 0 ∧ c.currentBlock - 1 = x.block) := by omega
      rw [if_neg hne1, if_neg hne2, wp_pure]
      refine ⟨rfl, ?_⟩
      simp only [andThen_ok, hq.free_guard]
      exact hother (hnone _)
    | opened b used live ho =>
      have hb := hq.pages.claimed_lt b ho.marked
      have hcb1 := ho.block
      have hne1 : ¬c.currentBlock = currentInstalling := by omega
      rw [if_neg hne1]
      by_cases hxb : b = x.block
      · have hl16 : live < 2 ^ 16 := Nat.lt_of_le_of_lt ho.live_le (by decide)
        have hlive : live ≠ 0 := by
          have := liveIn_pos hx
          rw [ho.live_eq, hxb]
          omega
        have heq : c.currentBlock ≠ 0 ∧ c.currentBlock - 1 = x.block := by omega
        rw [if_pos heq, wp_bind, wp_loadCurrentWord, andThen_ok,
          currentState_pack hl16 ho.word, wp_bind, wp_ofExcept, andThen_ok,
          currentLive_pack hl16 ho.word, if_pos ⟨rfl, hlive⟩, wp_pure]
        refine ⟨rfl, ?_⟩
        simp only [andThen_ok, hq.free_guard]
        exact ⟨rfl, rfl⟩
      · have hne2 : ¬(c.currentBlock ≠ 0 ∧ c.currentBlock - 1 = x.block) := by omega
        rw [if_neg hne2, wp_pure]
        refine ⟨rfl, ?_⟩
        simp only [andThen_ok, hq.free_guard]
        refine hother fun hc => hxb ?_
        exact hq.pages.claimed_one b x.block ho.marked hc

/-- Exactly the allocation `x` is no longer live; the open page and its cursor stay. -/
structure Released (L : Layout) (x : Allocation) (c c' : Cells) : Prop where
  quiet : Quiet L c'
  live : c'.live = c.live.erase x
  current : c'.currentBlock = c.currentBlock
  used : currentUsed c'.currentWord = currentUsed c.currentWord
  published : c'.highWater = c.highWater

/-- The release of a live allocation on a sealed page, weak exchanges included. -/
theorem releaseSealed_spec (hL : L.Ok) (hq : Quiet L c) (hx : x ∈ c.live)
    (hc : c.counts x.block ≠ claimed) (hf : v = .fair → 1 ≤ fuel) :
    (releaseSealed L x fuel (c.counts x.block)).wp v t
      (fun r c' => r = .ok () ∧ Released L x c c') c := by
  have hblock := (hq.pages.fits x hx).2
  induction fuel with
  | zero =>
    cases v with
    | fair => exact absurd (hf rfl) (by decide)
    | any => exact rfl
  | succ fuel ih =>
    rw [releaseSealed, if_neg (hq.pages.count_live hx hc), wp_bind, casCountWeak, wp_choose]
    refine ⟨?_, ?_⟩
    · rw [if_neg (by simp), wp_atomic]
      refine ⟨.ok none, { c.setCount x.block (c.counts x.block - 1) with
        live := c.live.erase x }, ?_, ?_⟩
      · simp only [countRange_ok hq.pages hL hblock, if_pos]
      · simp only [andThen_ok]
        rw [wp_pure]
        refine ⟨rfl, ⟨hq.pages.release_sealed hx hc, ?_, hq.unlocked, hq.settled⟩, rfl, rfl, rfl,
          rfl⟩
        exact hq.release_sealed_current hx hc
    · intro hv
      rw [if_pos rfl, wp_bind, wp_readCount hq.pages hL hblock, andThen_ok, wp_pure]
      simp only [andThen_ok]
      exact ih fun h => absurd (hv.symm.trans h) (by decide)

/-- `release_count` of a live allocation takes exactly that allocation out. -/
theorem releaseCount_spec (hL : L.Ok) (hq : Quiet L c) (hx : x ∈ c.live)
    (hf : v = .fair → 1 ≤ fuel) :
    (releaseCount L x fuel).wp v t (fun r c' => r = .ok () ∧ Released L x c c') c := by
  rw [releaseCount, validateAllocation_live hL hq.pages hx, wp_bind, wp_ofExcept, andThen_ok]
  cases fuel with
  | zero =>
    cases v with
    | fair => exact absurd (hf rfl) (by decide)
    | any => exact rfl
  | succ fuel =>
    have hblock := (hq.pages.fits x hx).2
    have hple := hq.pages.pages_le
    have hcb := hL.count_bound
    have hi : currentInstalling = 2 ^ 64 - 1 := rfl
    rw [releaseLoop, wp_bind]
    refine wp_withRead hq.unlocked ?_
    have hother : c.counts x.block ≠ claimed →
        ((readCount L x.block >>= releaseSealed L x (fuel + 1)) : AllocM Unit).wp v t
          (fun r c' => r = .ok () ∧ Released L x c c') c := by
      intro hc
      rw [wp_bind, wp_readCount hq.pages hL hblock, andThen_ok]
      exact releaseSealed_spec hL hq hx hc fun _ => Nat.le_add_left _ _
    rw [releaseOnce, wp_bind, wp_loadCurrentBlock, andThen_ok]
    cases hq.current with
    | closed hc hnone =>
      have hne1 : ¬c.currentBlock = currentInstalling := by omega
      have hne2 : ¬(c.currentBlock ≠ 0 ∧ c.currentBlock - 1 = x.block) := by omega
      rw [if_neg hne1, if_neg hne2, wp_pure]
      refine ⟨rfl, ?_⟩
      simp only [andThen_ok, hq.free_guard]
      exact hother (hnone _)
    | opened b used live ho =>
      have hb := hq.pages.claimed_lt b ho.marked
      have hcb1 := ho.block
      have hne1 : ¬c.currentBlock = currentInstalling := by omega
      rw [if_neg hne1]
      by_cases hxb : b = x.block
      · have hl16 : live < 2 ^ 16 := Nat.lt_of_le_of_lt ho.live_le (by decide)
        have hlive : 1 ≤ live := by
          have := liveIn_pos hx
          rw [ho.live_eq, hxb]
          omega
        obtain ⟨word, hword⟩ := packCurrent_ok .opened (live - 1)
          (packCurrent_toNat hl16 ho.word).2
        have heq : c.currentBlock ≠ 0 ∧ c.currentBlock - 1 = x.block := by omega
        rw [if_pos heq, wp_bind, wp_loadCurrentWord, andThen_ok,
          currentState_pack hl16 ho.word, wp_bind, wp_ofExcept, andThen_ok, if_neg (by simp),
          currentLive_pack hl16 ho.word, checkedSub_of_le hlive, okOr_some, wp_bind, wp_ofExcept,
          andThen_ok, currentUsed_pack hl16 ho.word, hword, wp_bind, wp_ofExcept, andThen_ok,
          wp_bind, wp_casCurrentWord, if_pos rfl, andThen_ok, if_pos rfl, wp_pure]
        refine ⟨rfl, ?_⟩
        have hquiet := hq.release_open ho hx hxb.symm hword
        simp only [andThen_ok]
        rw [wp_pure]
        refine ⟨rfl, ?_, rfl, rfl, ?_, rfl⟩
        · rw [← hq.unlocked]
          exact hquiet
        · exact (currentUsed_pack (by omega) hword).trans (currentUsed_pack hl16 ho.word).symm
      · have hne2 : ¬(c.currentBlock ≠ 0 ∧ c.currentBlock - 1 = x.block) := by omega
        rw [if_neg hne2, wp_pure]
        refine ⟨rfl, ?_⟩
        simp only [andThen_ok, hq.free_guard]
        refine hother fun hc => hxb ?_
        exact hq.pages.claimed_one b x.block ho.marked hc

end Release

section Sealed
variable {p : Nat} {x : Allocation}

theorem Quiet.claimed_iff (hq : Quiet L c) : c.counts p = claimed ↔ c.currentBlock = p + 1 := by
  cases hq.current with
  | closed hc hnone =>
    constructor
    · intro h
      exact absurd h (hnone p)
    · intro h
      exact absurd (hc.symm.trans h) (Nat.succ_ne_zero p).symm
  | opened b used live ho =>
    constructor
    · intro h
      rw [ho.block, hq.pages.claimed_one b p ho.marked h]
    · intro h
      have hb : b = p := Nat.succ.inj (ho.block.symm.trans h)
      rw [← hb]
      exact ho.marked

/-- A page that is not open and still holds something: no request is served from it. -/
structure Sealed (c : Cells) (p : Nat) : Prop where
  unmarked : c.counts p ≠ claimed
  occupied : liveIn c.live p ≠ 0

theorem Sealed.count (hq : Quiet L c) (h : Sealed c p) : c.counts p = liveIn c.live p :=
  hq.pages.counted p h.unmarked

theorem Fresh.sealed {length alignment : Nat} {c' : Cells} (hq' : Quiet L c')
    (hx : Fresh L length alignment c c' x) (hp : Sealed c p) :
    x.block ≠ p ∧ Sealed c' p ∧ liveIn c'.live p = liveIn c.live p := by
  obtain ⟨c₁, used, held, word, hturn, -, -, hc'⟩ := hx.place
  have hne : x.block ≠ p := by
    rintro rfl
    rcases hturn.origin with rfl | ⟨-, hheld, -⟩
    · exact hp.unmarked hturn.page.marked
    · have hlive := hturn.page.live_eq
      rw [hturn.live_eq, hheld] at hlive
      exact hp.occupied hlive.symm
  have hlive : liveIn c'.live p = liveIn c.live p := by
    rw [hx.live, liveIn, List.countP_cons_of_neg (by simpa using hne), liveIn]
  refine ⟨hne, ⟨?_, ?_⟩, hlive⟩
  · intro hmark
    have hopen : c'.counts x.block = claimed := by
      rw [hc']
      exact hturn.page.marked
    exact hne (hq'.pages.claimed_one _ _ hopen hmark)
  · rw [hlive]
    exact hp.occupied

theorem Released.unmarked {c' : Cells} (hq : Quiet L c) (h : Released L x c c')
    (hp : c.counts p ≠ claimed) : c'.counts p ≠ claimed := by
  rw [Ne, h.quiet.claimed_iff, h.current, ← hq.claimed_iff]
  exact hp

end Sealed

section Load

/-- The sealed pages that hold between one and `maximumLive` allocations. -/
def pagesBelow (c : Cells) (maximumLive : Nat) : List Nat :=
  (List.range c.highWater).filter fun p =>
    c.counts p ≠ 0 ∧ c.counts p ≠ claimed ∧ c.counts p ≤ maximumLive

theorem filter_counts (counts : Nat → Nat) (n maximumLive : Nat) :
    ((((List.range n).map counts).zipIdx.filter fun p =>
      p.1 ≠ 0 ∧ p.1 ≠ claimed ∧ p.1 ≤ maximumLive).map (·.2)) =
    (List.range n).filter fun p => counts p ≠ 0 ∧ counts p ≠ claimed ∧ counts p ≤ maximumLive := by
  induction n with
  | zero => rfl
  | succ n ih =>
    rw [List.range_succ, List.map_append, List.zipIdx_append, List.filter_append, List.map_append,
      ih, List.filter_append]
    congr 1
    simp only [List.map_cons, List.map_nil, List.length_map, List.length_range, List.zipIdx_cons,
      List.zipIdx_nil, Nat.zero_add, List.filter_cons, List.filter_nil]
    split <;> rfl

theorem blocksBelowLoad_spec (hL : L.Ok) (hq : Quiet L c) (maximumLive : Nat)
    (hf : v = .fair → 1 ≤ fuel) :
    (blocksBelowLoad maximumLive fuel).wp v t
      (fun r c' => r = .ok (pagesBelow c maximumLive) ∧ c' = c) c := by
  refine wp_withRead hq.unlocked ?_
  rw [wp_bind]
  have hle : c.highWater ≤ c.pages := Nat.le_of_eq (Nat.mod_eq_of_lt hq.settled).symm
  refine nextBlockValue_spec (c := { c with guard := ⟨[t], none⟩ }) hq.settled hf ?_
  have hp := hq.pages.current ⟨[t], none⟩ c.currentBlock c.currentWord
  rw [andThen_ok, wp_bind]
  refine (countSnapshot_spec hL hp hle).mpr ?_
  rw [andThen_ok, wp_pure]
  refine ⟨rfl, ?_, hq.free_guard⟩
  rw [filter_counts]
  rfl

end Load

end FlorestaDb.Allocator
