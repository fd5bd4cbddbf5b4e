import FlorestaDb.Lib.Steps
import FlorestaDb.AllocatorArithmetic
import FlorestaDb.Opening

/-! Pages are reused before the files grow: every step of an allocation that raises the
high-water mark is taken when no published page counts nothing, and an allocation is
refused for lack of space only when every page is published and in use. -/
namespace FlorestaDb.Allocator
open Program Program.Prog

variable {L : Layout} {v : Env} {t : Tid} {c c' : Cells} {fuel : Nat}

section Still

/-- Programs that publish no page, wherever they are started. -/
def Still {α : Type} (p : AllocM α) : Prop := Within (fun c c' => c'.pages = c.pages) p

theorem pages_of_chain (h : Relation.ReflTransGen (fun c c' : Cells => c'.pages = c.pages) c c') :
    c'.pages = c.pages := by
  induction h with
  | refl => rfl
  | tail _ hstep ih => exact hstep.trans ih

theorem still_lockRead : Still lockRead := by
  apply within_atomic
  intro t c x hx
  split at hx <;> cases hx
  rfl

theorem still_lockWrite : Still lockWrite := by
  apply within_atomic
  intro t c x hx
  split at hx <;> cases hx
  rfl

theorem still_unlockRead : Still unlockRead := by
  apply within_atomic
  intro t c x hx
  cases hx
  rfl

theorem still_unlockWrite : Still unlockWrite := by
  apply within_atomic
  intro t c x hx
  cases hx
  rfl

theorem still_withRead {α : Type} {p : AllocM α} (h : Still p) : Still (withRead p) :=
  within_guarded still_lockRead still_unlockRead h

theorem still_withWrite {α : Type} {p : AllocM α} (h : Still p) : Still (withWrite p) :=
  within_guarded still_lockWrite still_unlockWrite h

theorem still_loadCurrentBlock : Still loadCurrentBlock := by
  apply within_atomic
  intro t c x hx
  cases hx
  rfl

theorem still_storeCurrentBlock (n : Nat) : Still (storeCurrentBlock n) := by
  apply within_atomic
  intro t c x hx
  cases hx
  rfl

theorem still_casCurrentBlock (e n : Nat) : Still (casCurrentBlock e n) := by
  apply within_atomic
  intro t c x hx
  split at hx <;> cases hx <;> rfl

theorem still_loadCurrentWord : Still loadCurrentWord := by
  apply within_atomic
  intro t c x hx
  cases hx
  rfl

theorem still_storeCurrentWord (n : UInt64) : Still (storeCurrentWord n) := by
  apply within_atomic
  intro t c x hx
  cases hx
  rfl

theorem still_casCurrentWord (e n : UInt64) (record : List Allocation → List Allocation) :
    Still (casCurrentWord e n record) := by
  apply within_atomic
  intro t c x hx
  split at hx <;> cases hx <;> rfl

theorem still_loadHighWater : Still loadHighWater := by
  apply within_atomic
  intro t c x hx
  cases hx
  rfl

theorem still_readCount (b : Nat) : Still (readCount L b) := by
  apply within_atomic
  intro t c x hx
  cases hx
  rfl

theorem still_casCount (b e n : Nat) (record : List Allocation → List Allocation) :
    Still (casCount L b e n record) := by
  apply within_atomic
  intro t c x hx
  split at hx
  · cases hx
    rfl
  · split at hx <;> cases hx <;> rfl

theorem still_storeCount (b n : Nat) : Still (storeCount L b n) := by
  apply within_atomic
  intro t c x hx
  split at hx <;> cases hx <;> rfl

theorem still_check {α : Type} (f : Cells → Except Error α) :
    Still (atomic fun _ c => some (f c, c)) := by
  apply within_atomic
  intro t c x hx
  cases hx
  rfl

theorem still_osCall : Still osCall := by
  intro t c b
  cases b <;> trivial

theorem still_growFiles (old new pages : Nat) : Still (growFiles L old new pages) := by
  have hstore : ∀ f : Cells → Cells, (∀ c, (f c).pages = c.pages) →
      Still (atomic fun _ c => some (.ok (), f c)) := by
    intro f hf
    apply within_atomic
    intro t c x hx
    cases hx
    exact hf c
  refine within_bind (within_done _) fun counts => within_bind ?_ fun _ =>
    within_bind (within_done _) fun data => within_bind ?_ fun _ =>
    within_bind (within_done _) fun offset => ?_
  · exact within_bind (within_done _) fun _ => within_bind (within_done _) fun _ =>
      within_bind still_osCall fun _ => hstore _ fun _ => rfl
  · exact within_bind (within_done _) fun _ => within_bind (within_done _) fun _ =>
      within_bind still_osCall fun _ => hstore _ fun _ => rfl
  · exact within_bind (still_check _) fun _ => still_osCall

theorem still_nextBlockValue (fuel : Nat) : Still (nextBlockValue fuel) := by
  induction fuel with
  | zero => exact fun _ _ => trivial
  | succ fuel ih =>
    exact within_bind still_loadHighWater fun _ => within_ite (within_done _) ih

theorem still_loadCounts (n i : Nat) : Still (loadCounts n i) := by
  induction n generalizing i with
  | zero => exact within_done _
  | succ n ih => exact within_bind (still_check _) fun _ => within_bind (ih _) fun _ => within_done _

theorem still_countSnapshot (n : Nat) : Still (countSnapshot n) :=
  within_bind (within_done _) fun _ => within_bind (still_check _) fun _ => still_loadCounts _ _

theorem still_nextOfRun (b : Nat) (continueRun : Bool) (fuel : Nat) :
    Still (nextOfRun L b continueRun fuel) := by
  refine within_ite ?_ (within_done _)
  exact within_bind (within_done _) fun _ => within_bind (still_nextBlockValue fuel) fun _ =>
    within_ite (within_bind (still_readCount _) fun _ => within_ite (within_done _) (within_done _))
      (within_done _)

theorem still_openNext (next : Option Nat) : Still (openNext L next) := by
  cases next with
  | none => exact within_bind (still_storeCurrentWord _) fun _ => still_storeCurrentBlock _
  | some n =>
    exact within_bind (still_storeCount _ _) fun _ => within_bind (within_done _) fun _ =>
      within_bind (still_storeCurrentWord _) fun _ => within_bind (within_done _) fun _ =>
      still_storeCurrentBlock _

theorem still_sealWord (encoded b : Nat) (next : Option Nat) (fuel : Nat) :
    Still (sealWord L encoded b next fuel) := by
  induction fuel with
  | zero => exact fun _ _ => trivial
  | succ fuel ih =>
    refine within_bind still_loadCurrentWord fun old => within_bind (within_done _) fun _ =>
      within_ite (within_bind (still_storeCurrentBlock _) fun _ => within_done _) ?_
    refine within_bind (within_done _) fun sealing =>
      within_bind (still_casCurrentWord _ _ _) fun _ => within_ite ?_ ih
    exact within_bind (still_casCount _ _ _ _) fun _ => within_ite (still_openNext next)
      (within_bind (still_storeCurrentBlock _) fun _ => within_done _)

theorem still_sealCurrentBlock (encoded : Nat) (continueRun : Bool) (fuel : Nat) :
    Still (sealCurrentBlock L encoded continueRun fuel) := by
  refine still_withWrite ?_
  exact within_bind (within_done _) fun _ => within_bind (still_nextOfRun _ _ _) fun _ =>
    within_bind (still_casCurrentBlock _ _) fun _ => within_ite (still_sealWord _ _ _ _)
      (within_done _)

theorem still_reserveOnce (length alignment stride requested : Nat) :
    Still (reserveOnce L length alignment stride requested) := by
  refine within_bind still_loadCurrentBlock fun _ => within_ite (within_done _)
    (within_ite (within_done _) ?_)
  refine within_bind (within_done _) fun _ => within_bind still_loadCurrentWord fun _ =>
    within_bind (within_done _) fun _ => within_ite (within_done _) ?_
  refine within_bind (within_done _) fun _ => within_bind (within_done _) fun _ =>
    within_ite (within_done _) ?_
  refine within_bind (within_done _) fun _ => within_bind (within_done _) fun _ =>
    within_ite (within_done _) ?_
  refine within_bind (within_done _) fun _ => within_bind (still_casCurrentWord _ _ _) fun _ =>
    within_ite ?_ (within_done _)
  exact within_bind (within_done _) fun _ => within_bind (within_done _) fun _ =>
    within_ite (within_done _) (within_ite (within_done _) (within_done _))

end Still

section Growth
variable {H bytes : Nat}

/-- The pages a growth for `bytes` adds at most. -/
def growthPages (L : Layout) (bytes : Nat) : Nat :=
  max 1 ((bytes + (L.blockSize - 1)) / L.blockSize)

/- What one step of a call that found `H` pages may do to the high-water mark: nothing, or
   publish pages for the first time, and then no published page counts nothing. -/
def Reuses (L : Layout) (H bytes : Nat) (c c' : Cells) : Prop :=
  c'.pages = c.pages ∨
    c.pages = H ∧ (∀ p < c.pages, c.counts p ≠ 0) ∧ H < c'.pages ∧
      c'.pages ≤ min L.blockCount (H + growthPages L bytes)

theorem Still.within {α : Type} {p : AllocM α} (h : Still p) : Within (Reuses L H bytes) p :=
  within_mono h fun _ _ heq => Or.inl heq

theorem Still.guar {α : Type} {p : AllocM α} (h : Still p) : p.guar (Reuses L H bytes) t c :=
  h.within t c

theorem casHighWater_guar {e n : Nat} (h : c.highWater = e → Reuses L H bytes c
    { c with highWater := n }) : (casHighWater e n).guar (Reuses L H bytes) t c := by
  apply guar_atomic
  intro x hx
  by_cases he : c.highWater = e
  · simp only [if_pos he] at hx
    cases hx
    exact h he
  · simp only [if_neg he] at hx
    cases hx
    exact Or.inl rfl

theorem grow_guar (hL : L.Ok) (hp : Pages L c) (hs : c.highWater < growingBit)
    (hnz : ∀ p < c.pages, c.counts p ≠ 0) :
    (grow L bytes fuel).guar (Reuses L c.highWater bytes) t c := by
  cases fuel with
  | zero => trivial
  | succ fuel =>
    have hpages : c.pages = c.highWater := Nat.mod_eq_of_lt hs
    have hcb := hL.count_bound
    have hu : u64Bound = 2 ^ 64 := rfl
    have hg : growingBit = 2 ^ 63 := rfl
    rw [grow]
    refine guar_seq still_loadHighWater.guar
      ((wp_loadHighWater (Q := fun r d => r = .ok c.highWater ∧ d = c)).mpr ⟨rfl, rfl⟩) ?_
    rintro _ c ⟨heq, rfl⟩
    cases heq
    rw [if_neg (by omega)]
    by_cases hfull : c.highWater ≥ L.blockCount
    · rw [if_pos hfull]
      trivial
    · rw [if_neg hfull]
      cases hadd : checkedAdd bytes (L.blockSize - 1) with
      | none => trivial
      | some sum =>
        obtain ⟨-, rfl⟩ := checkedAdd_some hadd
        change Prog.guar _ t (Prog.ofExcept (okOr (checkedAdd c.highWater
          (min (max ((bytes + (L.blockSize - 1)) / L.blockSize) 1) (L.blockCount - c.highWater)))
          _) >>= fun _ => _) c
        generalize hn : min (max ((bytes + (L.blockSize - 1)) / L.blockSize) 1)
          (L.blockCount - c.highWater) = n
        have hpos : 0 < n := by omega
        have hle : n ≤ growthPages L bytes := by
          rw [growthPages]
          omega
        rw [checkedAdd_of_lt (by omega)]
        change Prog.guar _ t (casHighWater c.highWater (c.highWater + growingBit) >>= fun _ => _) c
        -- taking the growing flag changes no page
        have hflag : Cells.pages { c with highWater := c.highWater + growingBit } = c.pages := by
          simp only [Cells.pages, Nat.add_mod_right]
        refine guar_seq (casHighWater_guar fun _ => Or.inl hflag)
          ((wp_casHighWater (Q := fun r d => r = .ok true ∧
            d = { c with highWater := c.highWater + growingBit })).mpr (by simp)) ?_
        rintro _ _ ⟨heq, rfl⟩
        cases heq
        rw [if_pos rfl]
        have hfiles : (growFiles L c.highWater (c.highWater + n) n).attempt.wp .any t
            (fun _ d => Extended L { c with highWater := c.highWater + growingBit } d)
            { c with highWater := c.highWater + growingBit } :=
          (wp_attempt _ _).mpr (wp_mono (growFiles_spec hL rfl (by omega) hp.lengths)
            fun _ _ h => h.1)
        refine guar_seq (guar_attempt.mpr (still_growFiles _ _ _).guar) hfiles ?_
        intro r d hext
        have hdhw : d.highWater = c.highWater + growingBit := by rw [hext.eq]
        have hdp : d.pages = c.highWater := by
          rw [Cells.pages, hdhw, Nat.add_mod_right, Nat.mod_eq_of_lt hs]
        refine guar_seq (casHighWater_guar ?_) ((wp_casHighWater (Q := fun _ _ => True)).mpr
          (by split <;> trivial)) ?_
        · intro hhw
          by_cases hok : r.isOk = true
          · rw [if_pos hok]
            have hnew : Cells.pages { d with highWater := c.highWater + n } = c.highWater + n :=
              Nat.mod_eq_of_lt (show c.highWater + n < growingBit by omega)
            refine Or.inr ⟨hdp, ?_, ?_, ?_⟩
            · rw [hdp, hext.eq, ← hpages]
              exact hnz
            · rw [hnew]
              omega
            · rw [hnew]
              omega
          · rw [if_neg hok]
            refine Or.inl ?_
            rw [hdp]
            exact Nat.mod_eq_of_lt hs
        · rintro b d' -
          cases b <;> trivial

/-- The counts that a pass of `claim_page` looks at. -/
theorem claimPage_scan (hL : L.Ok) (hp : Pages L c) (hs : c.highWater < growingBit)
    (h : ∀ d, d = c → Prog.guar (Reuses L H bytes) t
      (match longestZeroRun ((List.range c.highWater).map c.counts) with
        | some block => casCount L block 0 claimed id >>= fun done =>
            if done then pure block else claimPage L bytes fuel
        | none => grow L bytes (fuel + 1) >>= fun _ => claimPage L bytes fuel) d) :
    (claimPage L bytes (fuel + 1)).guar (Reuses L H bytes) t c := by
  have hpages : c.pages = c.highWater := Nat.mod_eq_of_lt hs
  have hnext : (nextBlockValue (fuel + 1)).wp .any t (fun r d => r = .ok c.highWater ∧ d = c) c :=
    nextBlockValue_spec hs (fun _ => Nat.le_add_left 1 fuel) ⟨rfl, rfl⟩
  have hcounts : (countSnapshot c.highWater).wp .any t
      (fun r d => r = .ok ((List.range c.highWater).map c.counts) ∧ d = c) c :=
    (countSnapshot_spec hL hp (by omega)).mpr ⟨rfl, rfl⟩
  refine guar_seq (still_nextBlockValue _).guar hnext ?_
  rintro _ c ⟨heq, rfl⟩
  cases heq
  refine guar_seq (still_countSnapshot _).guar hcounts ?_
  rintro _ c ⟨heq, rfl⟩
  cases heq
  exact h c rfl

theorem scan_unmarked (hnone : ∀ p, c.counts p ≠ claimed) (j : Nat) :
    ((List.range c.highWater).map c.counts).getD j 0 ≠ claimed := by
  by_cases hj : j < c.highWater
  · rw [getD_counts _ hj]
    exact hnone j
  · simp [List.getD, hj, claimed]

/-- A page that counts nothing is claimed; no page is published. -/
theorem claimPage_free_guar (hL : L.Ok) (hp : Pages L c) (hs : c.highWater < growingBit)
    (hnone : ∀ p, c.counts p ≠ claimed) (hfree : ∃ p < c.pages, c.counts p = 0) :
    (claimPage L bytes fuel).guar (Reuses L H bytes) t c := by
  cases fuel with
  | zero => trivial
  | succ fuel =>
    have hpages : c.pages = c.highWater := Nat.mod_eq_of_lt hs
    obtain ⟨p, hlt, hz⟩ := hfree
    refine claimPage_scan hL hp hs ?_
    rintro c rfl
    have hlt' : p < c.highWater := by omega
    have hlen : p < ((List.range c.highWater).map c.counts).length := by simpa using hlt'
    obtain ⟨b, hb⟩ := longestZeroRun_found hlen (by rwa [getD_counts _ hlt']) (scan_unmarked hnone)
    obtain ⟨hbl, hbz⟩ := longestZeroRun_zero hb
    have hbl' : b < c.highWater := by simpa using hbl
    rw [getD_counts _ hbl'] at hbz
    simp only [hb]
    refine guar_seq (still_casCount _ _ _ _).guar ((wp_casCount hp hL (by omega)
      (Q := fun r _ => r = .ok true)).mpr (by rw [if_pos hbz])) ?_
    intro done d hdone
    cases hdone
    rw [if_pos rfl]
    trivial

theorem claimPage_guar (hL : L.Ok) (hp : Pages L c) (hs : c.highWater < growingBit)
    (hnone : ∀ p, c.counts p ≠ claimed) (hb : bytes < 2 ^ 63) :
    (claimPage L bytes fuel).guar (Reuses L c.highWater bytes) t c := by
  by_cases hfree : ∃ p < c.pages, c.counts p = 0
  · exact claimPage_free_guar hL hp hs hnone hfree
  · cases fuel with
    | zero => trivial
    | succ fuel =>
      have hpages : c.pages = c.highWater := Nat.mod_eq_of_lt hs
      have hscan : longestZeroRun ((List.range c.highWater).map c.counts) = none := by
        cases hrun : longestZeroRun ((List.range c.highWater).map c.counts) with
        | none => rfl
        | some b =>
          obtain ⟨hbl, hbz⟩ := longestZeroRun_zero hrun
          have hbl' : b < c.highWater := by simpa using hbl
          rw [getD_counts _ hbl'] at hbz
          exact absurd ⟨b, by omega, hbz⟩ hfree
      refine claimPage_scan hL hp hs ?_
      rintro c rfl
      simp only [hscan]
      refine guar_seq (grow_guar hL hp hs fun p hp hz => hfree ⟨p, hp, hz⟩)
        (grow_spec hL hp hs hb nofun) ?_
      rintro _ d ⟨hgrown, ⟨-, hlt⟩ | ⟨e, he, -⟩⟩
      · have hcounts : d.counts = c.counts := by rw [hgrown.eq]
        have hdp : d.pages = d.highWater := Nat.mod_eq_of_lt hgrown.settled
        refine claimPage_free_guar hL hgrown.pages hgrown.settled ?_ ⟨c.highWater, by omega, ?_⟩
        · rw [hcounts]
          exact hnone
        · rw [hcounts]
          exact hp.counts_beyond (by omega)
      · cases he

end Growth

section Calls
variable {length alignment stride requested growthBytes H : Nat}

theorem guar_withWrite {α : Type} (hg : c.guard = RwLock.free) {body : AllocM α}
    (h : body.guar (Reuses L H growthBytes) t { c with guard := ⟨[], some t⟩ }) :
    (withWrite body).guar (Reuses L H growthBytes) t c := by
  have hlock : lockWrite.wp .any t (fun _ d => d = { c with guard := ⟨[], some t⟩ }) c := by
    rw [lockWrite, wp_atomic]
    refine ⟨.ok (), { c with guard := ⟨[], some t⟩ }, ?_, rfl⟩
    simp [hg, RwLock.free]
  refine guar_seq still_lockWrite.guar hlock ?_
  rintro _ _ rfl
  refine guar_then (guar_attempt.mpr h) fun r => ?_
  exact within_bind still_unlockWrite.within fun _ => within_done r

theorem installCurrent_guar (hL : L.Ok) (hq : Quiet L c) (hc : c.currentBlock = 0)
    (hb : growthBytes < 2 ^ 63) :
    (installCurrent L growthBytes fuel).guar (Reuses L c.highWater growthBytes) t c := by
  have hnone : ∀ p, c.counts p ≠ claimed := by
    cases hq.current with
    | closed _ h => exact h
    | opened b used live ho => exact absurd (hc.symm.trans ho.block) (Nat.succ_ne_zero b).symm
  refine guar_withWrite hq.unlocked ?_
  have hcas : (casCurrentBlock 0 currentInstalling).wp .any t (fun r d => r = .ok true ∧
      d = { c with guard := ⟨[], some t⟩, currentBlock := currentInstalling })
      { c with guard := ⟨[], some t⟩ } := by
    rw [wp_casCurrentBlock, if_pos hc]
    exact ⟨rfl, rfl⟩
  refine guar_seq (still_casCurrentBlock _ _).guar hcas ?_
  rintro _ _ ⟨heq, rfl⟩
  cases heq
  rw [if_pos rfl]
  refine guar_then (guar_attempt.mpr (claimPage_guar hL
    (hq.pages.current _ currentInstalling c.currentWord) hq.settled hnone hb)) fun r => ?_
  cases r with
  | ok block =>
    exact within_bind (within_done _) fun _ => within_bind (still_storeCurrentWord _).within fun _ =>
      within_bind (within_done _) fun _ => (still_storeCurrentBlock _).within
  | error e => exact within_bind (still_storeCurrentBlock _).within fun _ => within_done _

/-- One pass over a page with room ends the call. -/
theorem reserveLoop_open_guar (hL : L.Ok) (hq : Quiet L c) {b used live : Nat}
    (ho : OpenPage L c b used live) (hr : Request L length alignment stride requested)
    (hnf : ¬PageFull L used live length alignment) :
    (reserveLoop L length alignment stride requested growthBytes fuel).guar
      (Reuses L H growthBytes) t c := by
  cases fuel with
  | zero => trivial
  | succ fuel =>
    have hpass : (withRead (reserveOnce L length alignment stride requested)).wp .any t
        (fun r _ => ∃ batch, r = .ok (.reserved batch)) c := by
      refine wp_withRead hq.unlocked (wp_mono (reserveOnce_open hL (hq.pages.current _ _ _)
        (ho.guard _) hr) ?_)
      rintro r c' (⟨hfull, -⟩ | ⟨-, batch, rfl, hres⟩)
      · exact absurd hfull hnf
      · obtain ⟨word, -, rfl⟩ := hres.fresh
        exact ⟨rfl, batch, rfl⟩
    refine guar_seq (still_withRead (still_reserveOnce _ _ _ _)).guar hpass ?_
    rintro _ _ ⟨batch, heq⟩
    cases heq
    trivial

theorem reserveLoop_closed_guar (hL : L.Ok) (hq : Quiet L c) (hc : c.currentBlock = 0)
    (hr : Request L length alignment stride requested) (hb : growthBytes < 2 ^ 63) :
    (reserveLoop L length alignment stride requested growthBytes fuel).guar
      (Reuses L c.highWater growthBytes) t c := by
  cases fuel with
  | zero => trivial
  | succ fuel =>
    have hpass : (withRead (reserveOnce L length alignment stride requested)).wp .any t
        (fun r d => r = .ok .install ∧ d = c) c := by
      refine wp_withRead hq.unlocked ?_
      apply reserveOnce_closed
      · exact hc
      · exact ⟨rfl, rfl, by rw [← hq.unlocked]⟩
    refine guar_seq (still_withRead (still_reserveOnce _ _ _ _)).guar hpass ?_
    rintro _ c ⟨heq, rfl⟩
    cases heq
    refine guar_seq (installCurrent_guar hL hq hc hb)
      (installCurrent_spec hL hq hc hb nofun) ?_
    rintro _ d ⟨hqd, -, ⟨-, b, ho⟩ | ⟨e, he, -⟩⟩
    · exact reserveLoop_open_guar hL hqd ho hr (fresh_not_full hr)
    · cases he

theorem reserveLoop_guar (hL : L.Ok) (hq : Quiet L c)
    (hr : Request L length alignment stride requested) (hb : growthBytes < 2 ^ 63) :
    (reserveLoop L length alignment stride requested growthBytes fuel).guar
      (Reuses L c.highWater growthBytes) t c := by
  cases hq.current with
  | closed hc _ => exact reserveLoop_closed_guar hL hq hc hr hb
  | opened b used live ho =>
    by_cases hfull : PageFull L used live length alignment
    · cases fuel with
      | zero => trivial
      | succ fuel =>
        have hpass : (withRead (reserveOnce L length alignment stride requested)).wp .any t
            (fun r d => r = .ok (.full (b + 1)) ∧ d = c) c := by
          refine wp_withRead hq.unlocked (wp_mono (reserveOnce_open hL (hq.pages.current _ _ _)
            (ho.guard _) hr) ?_)
          rintro r c' (⟨-, rfl, rfl⟩ | ⟨hroom, -⟩)
          · refine ⟨rfl, rfl, ?_⟩
            rw [← hq.unlocked]
          · exact absurd hfull hroom
        refine guar_seq (still_withRead (still_reserveOnce _ _ _ _)).guar hpass ?_
        rintro _ c ⟨heq, rfl⟩
        cases heq
        refine guar_seq (still_sealCurrentBlock _ _ _).guar (wp_chain
          (sealCurrentBlock_spec hL hq ho true nofun) (still_sealCurrentBlock _ _ _ t c)) ?_
        rintro _ d ⟨⟨-, hqd, -, hempty, -⟩, hchain⟩
        cases hempty with
        | closed hc =>
          have hsame : d.highWater = c.highWater := by
            rw [← hqd.pages_eq, ← hq.pages_eq]
            exact pages_of_chain hchain
          rw [← hsame]
          exact reserveLoop_closed_guar hL hqd hc hr hb
        | fresh b' ho' => exact reserveLoop_open_guar hL hqd ho' hr (fresh_not_full hr)
    · exact reserveLoop_open_guar hL hq ho hr hfull

theorem allocateBatch_guar (hL : L.Ok) (hq : Quiet L c) (fuel length alignment maximumCount : Nat) :
    (allocateBatch L fuel length alignment maximumCount).guar (Reuses L c.highWater
      (alignedStart length alignment * min (min maximumCount (2 ^ 32 - 1)) maxLive)) t c := by
  by_cases hbad : length = 0 ∨ length > L.blockSize ∨ maximumCount = 0
  · rw [allocateBatch, if_pos hbad]
    trivial
  · by_cases hodd : alignment = 0 ∨ !isPowerOfTwo alignment ∨ alignment > L.blockSize
    · rw [allocateBatch, if_neg hbad, if_pos hodd]
      trivial
    · simp only [not_or, Bool.not_eq_true', Bool.not_eq_false, Nat.not_lt] at hbad hodd
      have hbs := hL.block_bound
      have hmax : maxLive = 65534 := rfl
      have hap : 0 < alignment := Nat.pos_of_ne_zero hodd.1
      obtain ⟨hr, -, hcall⟩ := allocateBatch_request hL (Nat.pos_of_ne_zero hbad.1) hbad.2.1
        hodd.2.1 hap hodd.2.2 (Nat.pos_of_ne_zero hbad.2.2)
      have hstride := (hr.stride_bounds hL).2.1
      have hmul : alignedStart length alignment * min (min maximumCount (2 ^ 32 - 1)) maxLive ≤
          2 ^ 32 * 65534 := Nat.mul_le_mul (by omega) (by omega)
      rw [hcall]
      exact reserveLoop_guar hL hq hr (by omega)

/-- At most one growth: the high-water mark ends where it was, or within one growth of it. -/
theorem pages_of_reuses {bytes : Nat} (h : Relation.ReflTransGen (Reuses L c.pages bytes) c c') :
    c'.pages = c.pages ∨ c.pages < c'.pages ∧
      c'.pages ≤ min L.blockCount (c.pages + growthPages L bytes) := by
  induction h with
  | refl => exact Or.inl rfl
  | tail _ hstep ih =>
    rcases hstep with heq | ⟨-, -, hlt, hle⟩
    · rw [heq]
      exact ih
    · exact Or.inr ⟨hlt, hle⟩

end Calls

section Runs

/- The states of an allocator between two calls. An allocation is released by its owner,
   once; an allocator is opened again only when the files pass the checks of `open`. -/
inductive Handled (L : Layout) : Cells → Prop where
  | created : Handled L Cells.created
  | allocateBatch {c c' : Cells} {t : Tid} {fuel length alignment maximumCount : Nat}
      {r : Except Error AllocationBatch} (h : Handled L c)
      (hr : (allocateBatch L fuel length alignment maximumCount).Returns t c r c') : Handled L c'
  | releaseCount {c c' : Cells} {t : Tid} {x : Allocation} {fuel : Nat} {r : Except Error Unit}
      (h : Handled L c) (hx : x ∈ c.live) (hr : (releaseCount L x fuel).Returns t c r c') :
      Handled L c'
  | sealCurrent {c c' : Cells} {t : Tid} {fuel : Nat} {r : Except Error Unit} (h : Handled L c)
      (hr : (sealCurrent L fuel).Returns t c r c') : Handled L c'
  | syncAll {c c' : Cells} {t : Tid} {m : Machine} {r : Except Error Unit} (h : Handled L c)
      (hr : (syncAllocator m L).Returns t c r c') : Handled L c'
  | reopen {c c' : Cells} (h : Handled L c)
      (hr : openAllocator L.capacity L.blockSize c = .ok (L, c')) : Handled L c'

theorem allocateBatch_quiet (hL : L.Ok) (hq : Quiet L c) (fuel length alignment maximumCount : Nat) :
    (allocateBatch L fuel length alignment maximumCount).wp .any t (fun _ c' => Quiet L c') c := by
  by_cases hodd : alignment = 0 ∨ !isPowerOfTwo alignment ∨ alignment > L.blockSize
  · rw [allocateBatch, if_pos hodd]
    by_cases hbad : length = 0 ∨ length > L.blockSize ∨ maximumCount = 0
    · rw [if_pos hbad]
      exact hq
    · rw [if_neg hbad]
      exact hq
  · simp only [not_or, Bool.not_eq_true', Bool.not_eq_false, Nat.not_lt] at hodd
    exact wp_mono (allocateBatch_spec hL hq hodd.2.1 (Nat.pos_of_ne_zero hodd.1) hodd.2.2
      fun hv => by cases hv)
      fun _ _ h => h.1

/-- Every page is sealed in a file that can be opened. -/
theorem openAllocator_quiet (hq : Quiet L c)
    (h : openAllocator L.capacity L.blockSize c = .ok (L, c')) : Quiet L c' := by
  obtain ⟨_, -, h⟩ := bind_ok h
  obtain ⟨⟨data, count, blocks⟩, -, h⟩ := bind_ok h
  obtain ⟨_, -, h⟩ := bind_ok h
  obtain ⟨_, -, h⟩ := bind_ok h
  obtain ⟨_, hheader, h⟩ := bind_ok h
  obtain ⟨hlayout, rfl⟩ := Prod.mk.inj (Except.ok.inj h)
  rw [hlayout] at hheader
  refine ⟨hq.pages.current _ _ _, .closed rfl ?_, rfl, hq.settled⟩
  intro p hmark
  have hlt := hq.pages.claimed_lt p hmark
  rw [hq.pages_eq] at hlt
  obtain ⟨highWater, hclosed, hheader⟩ := bind_ok hheader
  have hhw : highWater = c.highWater := by
    have hs := hq.settled
    rw [closedBlockValue, if_neg (by omega)] at hclosed
    exact (Except.ok.inj hclosed).symm
  subst hhw
  obtain ⟨-, hheader⟩ := guard_ok.mp hheader
  obtain ⟨_, -, hheader⟩ := bind_ok hheader
  obtain ⟨-, hheader⟩ := guard_ok.mp hheader
  obtain ⟨_, -, hheader⟩ := bind_ok hheader
  obtain ⟨-, hheader⟩ := guard_ok.mp hheader
  obtain ⟨_, -, hheader⟩ := bind_ok hheader
  obtain ⟨_, -, hheader⟩ := bind_ok hheader
  obtain ⟨hnone, -⟩ := guard_ok.mp hheader
  exact hnone ⟨p, List.mem_range.mpr hlt, hmark⟩

theorem Handled.quiet (hL : L.Ok) (h : Handled L c) : Quiet L c := by
  induction h with
  | created => exact quiet_created L
  | allocateBatch _ hr ih => exact post_of_returns (allocateBatch_quiet hL ih _ _ _ _) hr
  | releaseCount _ hx hr ih =>
    exact (post_of_returns (releaseCount_spec hL ih hx nofun) hr).2.quiet
  | sealCurrent _ hr ih => exact (post_of_returns (sealCurrent_spec hL ih nofun) hr).2.1
  | syncAll _ hr ih => exact (post_of_returns (syncAllocator_spec hL ih nofun) hr).1
  | reopen _ hr ih => exact openAllocator_quiet ih hr

/-- Every page is published and in use. -/
def Exhausted (L : Layout) (c : Cells) : Prop :=
  (∀ p < c.highWater, c.counts p ≠ 0) ∧ c.highWater = L.blockCount

theorem exhausted_of_live (hq : Quiet L c) (h : ∀ p < L.blockCount, liveIn c.live p ≠ 0) :
    Exhausted L c := by
  have hle := hq.pages.pages_le
  have hpages := hq.pages_eq
  refine ⟨?_, ?_⟩
  · intro p hp hz
    have hlive := hq.pages.counted p (by rw [hz]; decide)
    exact h p (by omega) (by rw [← hlive, hz])
  · by_contra hne
    have hlt : c.highWater < L.blockCount := by omega
    -- the first page that is not published counts nothing
    have hz := hq.pages.counts_beyond (show c.pages ≤ c.highWater from hpages.le)
    have hlive := hq.pages.counted c.highWater (by rw [hz]; decide)
    exact h c.highWater hlt (by rw [← hlive, hz])

/-- `allocate_batch` publishes pages only when every published page is in use, and reports
exhaustion only when no page is left. -/
theorem reuse_before_growth {capacity blockSize : Nat}
    (hlayout : validateLayout capacity blockSize = .ok ()) {c : Cells}
    (hc : Handled ⟨capacity, blockSize, capacity / blockSize⟩ c) (t : Tid)
    (length alignment maximumCount : Nat) :
    let L : Layout := ⟨capacity, blockSize, capacity / blockSize⟩
    let growth := growthPages L
      (alignedStart length alignment * min (min maximumCount (2 ^ 32 - 1)) maxLive)
    (∀ fuel c₁ c₂, (allocateBatch L fuel length alignment maximumCount).Steps t c c₁ c₂ →
      c₂.pages = c₁.pages ∨
        (∀ p < c₁.pages, c₁.counts p ≠ 0) ∧ c₁.pages < c₂.pages ∧
          c₂.pages ≤ min L.blockCount (c₁.pages + growth)) ∧
    (∀ fuel r c', (allocateBatch L fuel length alignment maximumCount).Returns t c r c' →
      c.highWater ≤ c'.highWater ∧ c'.highWater ≤ min L.blockCount (c.highWater + growth)) ∧
    (0 < length → length ≤ blockSize → isPowerOfTwo alignment = true → 0 < alignment →
      alignment ≤ blockSize → 0 < maximumCount →
      (∀ fuel, 3 ≤ fuel → ∃ r c',
        (allocateBatch L fuel length alignment maximumCount).run t c = some (r, c') ∧
        ((∃ batch, r = .ok batch) ∨ r = .error (.capacityExhausted "mapped file"))) ∧
      ∀ fuel what c', (allocateBatch L fuel length alignment maximumCount).Returns t c
          (.error (.capacityExhausted what)) c' →
        NoRoom L length alignment c ∧ Exhausted L c ∧ Exhausted L c') := by
  intro L growth
  have hL : L.Ok := Layout.ok_of_validate hlayout
  have hq : Quiet L c := hc.quiet hL
  refine ⟨?_, ?_, ?_⟩
  · intro fuel c₁ c₂ hstep
    rcases step_of_guar (allocateBatch_guar hL hq fuel length alignment maximumCount) hstep with
      hsame | ⟨hfound, hused, hlt, hle⟩
    · exact Or.inl hsame
    · rw [← hfound] at hlt hle
      exact Or.inr ⟨hused, hlt, hle⟩
  · intro fuel r c' hr
    have hchain := chain_of_guar (allocateBatch_guar hL hq fuel length alignment maximumCount) hr
    have hq' : Quiet L c' := post_of_returns (allocateBatch_quiet hL hq _ _ _ _) hr
    have hle := hq.pages.pages_le
    rw [← hq.pages_eq] at hchain ⊢
    rw [← hq'.pages_eq]
    rcases pages_of_reuses hchain with hsame | ⟨hlt, hbound⟩
    · omega
    · exact ⟨hlt.le, hbound⟩
  · intro hpos hlen hpow hap hal hcount
    refine ⟨?_, ?_⟩
    · intro fuel hfuel
      obtain ⟨r, c', hrun, -, hout⟩ := run_of_wp (allocateBatch_spec hL hq
        hpow hap hal fun _ => hfuel)
      refine ⟨r, c', hrun, ?_⟩
      rcases hout with ⟨batch, hok, -⟩ | ⟨e, herr, hrefused, -⟩
      · exact Or.inl ⟨batch, hok⟩
      · rcases hrefused.short hpos hlen hcount with ⟨rfl, -⟩ | ⟨hv, -⟩
        · exact Or.inr herr
        · cases hv
    · intro fuel what c' hr
      obtain ⟨hq', ⟨batch, hok, -⟩ | ⟨e, herr, hrefused, hlive, -⟩⟩ :=
        post_of_returns (allocateBatch_spec hL hq hpow hap hal nofun) hr
      · cases hok
      · cases herr
        rcases hrefused.short hpos hlen hcount with ⟨-, hall, hroom⟩ | ⟨-, hio⟩
        · refine ⟨hroom, exhausted_of_live hq hall, exhausted_of_live hq' ?_⟩
          rw [hlive]
          exact hall
        · cases hio

/-- A store of one page that one allocation fills. -/
def filledPage : Option (Except Error AllocationBatch × Cells) :=
  (allocateBatch ⟨65536, 65536, 1⟩ 3 65536 1 1).run 0 Cells.created

theorem reuse_before_growth_filled :
    ∃ r c, filledPage = some (r, c) ∧ Handled ⟨65536, 65536, 1⟩ c ∧
      ∃ c', (allocateBatch ⟨65536, 65536, 1⟩ 3 32 32 1).run 0 c =
          some (.error (.capacityExhausted "mapped file"), c') ∧
        Exhausted ⟨65536, 65536, 1⟩ c ∧ Exhausted ⟨65536, 65536, 1⟩ c' := by
  have hrun : (filledPage.bind fun x =>
      (allocateBatch ⟨65536, 65536, 1⟩ 3 32 32 1).run 0 x.2).map (·.1) =
        some (.error (.capacityExhausted "mapped file")) := by
    decide +kernel
  obtain ⟨⟨_, c'⟩, hrun, rfl⟩ := Option.map_eq_some_iff.mp hrun
  obtain ⟨⟨r, c⟩, hfilled, hrun⟩ := Option.bind_eq_some_iff.mp hrun
  have hc : Handled ⟨65536, 65536, 1⟩ c := .allocateBatch .created (returns_of_run hfilled)
  have hreuse := reuse_before_growth (show validateLayout 65536 65536 = .ok () by decide) hc 0
    32 32 1
  obtain ⟨-, hbefore, hafter⟩ := (hreuse.2.2 (by decide) (by decide) (by decide) (by decide)
    (by decide) (by decide)).2 3 _ c' (returns_of_run hrun)
  exact ⟨r, c, hfilled, hc, c', hrun, hbefore, hafter⟩

end Runs

end FlorestaDb.Allocator
