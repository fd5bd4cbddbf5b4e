import FlorestaDb.HintsgenAccounts

/-! The two waits of `hintsgen` against each other: an adder waits until the slowest remover is
less than `maxAdderLeadBlocks` behind it, a remover until the slowest adder has passed the next
range. -/
namespace FlorestaDb.Hintsgen

variable {job : Job} {s s' : State} {e : RemoveSide} {a r : Nat}

section Blocked

/-- The adder is in `wait_for_remover_window`, and its window is closed. -/
def State.AdderBlocked (job : Job) (s : State) (a : Nat) : Prop :=
  ∃ height stop, s.add.pcs a = .window height stop ∧ s.adderCanProcess job height = false

/-- The remover is in `wait_for_additions` and what it waits for is not there, or it holds no
range and the next one is not complete. -/
def State.RemoverBlocked (job : Job) (s : State) (r : Nat) : Prop :=
  (∃ required, s.remove.pcs r = .waiting required ∧ s.minimumAdder job < required) ∨
    ((s.remove.pcs r).held = none ∧ s.remove.next < job.endHeight ∧
      s.minimumAdder job < job.rangeEnd s.remove.next)

def State.Finished (job : Job) (s : State) : Prop :=
  (∀ a < job.adders, s.add.pcs a = .done) ∧ ∀ r < job.removers, s.remove.pcs r = .done

/-- Nobody who has not finished can do more than look again. -/
structure State.Deadlocked (job : Job) (s : State) : Prop where
  adders : ∀ a < job.adders, s.add.pcs a ≠ .done → s.AdderBlocked job a
  removers : ∀ r < job.removers, s.remove.pcs r ≠ .done → s.RemoverBlocked job r

/-- No worker has failed, and none has been told to abort. -/
structure State.Quiet (s : State) : Prop where
  adders : ∀ a, s.add.faults a = none
  removers : ∀ r, s.remove.faults r = none
  running : s.aborted = false

theorem adderStep_none (hq : s.Quiet) (h : adderStep job a s = none) :
    s.add.pcs a = .done ∨ s.AdderBlocked job a := by
  rw [adderStep] at h
  cases hpc : s.add.pcs a with
  | claim =>
    rw [hpc] at h
    dsimp only at h
    split at h <;> cases h
  | exchange start =>
    rw [hpc] at h
    dsimp only at h
    split at h <;> cases h
  | window height stop =>
    rw [hpc] at h
    dsimp only at h
    rw [if_neg (by rw [hq.running]; exact Bool.false_ne_true)] at h
    by_cases hcan : s.adderCanProcess job height = true
    · rw [if_pos hcan] at h
      cases h
    · exact Or.inr ⟨height, stop, hpc, Bool.eq_false_iff.mpr hcan⟩
  | claimed start stop =>
    rw [hpc] at h
    dsimp only at h
    split at h <;> cases h
  | read height stop =>
    rw [hpc] at h
    dsimp only at h
    split at h <;> cases h
  | count height stop =>
    rw [hpc] at h
    dsimp only at h
    split at h <;> cases h
  | credit height stop =>
    rw [hpc] at h
    dsimp only at h
    split at h <;> cases h
  | publishStart start stop =>
    rw [hpc] at h
    cases h
  | put height stop =>
    rw [hpc] at h
    cases h
  | publish height stop =>
    rw [hpc] at h
    cases h
  | finish =>
    rw [hpc] at h
    cases h
  | done => exact Or.inl rfl

theorem removerStep_none (hq : s.Quiet) (h : removerStep job r s = none) :
    s.remove.pcs r = .done ∨ s.RemoverBlocked job r := by
  rw [removerStep] at h
  cases hpc : s.remove.pcs r with
  | waiting required =>
    rw [hpc] at h
    dsimp only at h
    rw [if_neg (by rw [hq.running]; exact Bool.false_ne_true)] at h
    by_cases hmin : s.minimumAdder job ≥ required
    · rw [if_pos hmin] at h
      cases h
    · exact Or.inr (Or.inl ⟨required, hpc, Nat.not_le.mp hmin⟩)
  | done => exact Or.inl rfl
  | check =>
    rw [hpc] at h
    dsimp only at h
    split at h <;> cases h
  | scan i low =>
    rw [hpc] at h
    dsimp only at h
    split at h <;> cases h
  | claim limit =>
    rw [hpc] at h
    dsimp only at h
    split at h
    · cases h
    · split at h <;> cases h
  | exchange limit start =>
    rw [hpc] at h
    dsimp only at h
    split at h <;> cases h
  | pop start stop =>
    rw [hpc] at h
    dsimp only at h
    split at h <;> cases h
  | debit start stop =>
    rw [hpc] at h
    dsimp only at h
    split at h <;> cases h
  | isFinished =>
    rw [hpc] at h
    dsimp only at h
    split at h <;> cases h
  | compare required i low =>
    rw [hpc] at h
    dsimp only at h
    split at h
    · cases h
    · split at h <;> cases h
  | publishStart start stop | publishEnd start stop | nextHeight | publishNext next | rangeEnd
  | finish =>
    rw [hpc] at h
    cases h

/-- A state in which no worker can take a step is deadlocked. -/
theorem deadlocked_of_stuck (hq : s.Quiet) (h : ∀ w : Worker, w.step job s = none) :
    s.Deadlocked job := by
  refine ⟨?_, ?_⟩
  · intro a ha hdone
    have hstep := h (.adder a)
    rw [Worker.step, if_pos ⟨ha, hq.adders a⟩] at hstep
    exact (adderStep_none hq hstep).resolve_left hdone
  · intro r hr hdone
    have hstep := h (.remover r)
    rw [Worker.step, if_pos ⟨hr, hq.removers r⟩] at hstep
    exact (removerStep_none hq hstep).resolve_left hdone

end Blocked

section Waits

/-- What a remover waits for. -/
def RemoverPc.required : RemoverPc → Option Nat
  | .compare required _ _ | .waiting required => some required
  | _ => none

/-- The slot of a remover that is the only one: the cursor, or the range it took from there. -/
def RemoveSide.Alone (job : Job) (e : RemoveSide) : RemoverPc → Prop
  | .publishStart start stop | .pop start stop | .debit start stop | .publishEnd start stop =>
    e.slots 0 = start ∧ e.next = stop
  | .publishNext next => e.slots 0 = e.next ∧ next = e.next
  | .compare required _ _ | .waiting required =>
    e.slots 0 = e.next ∧ required = job.rangeEnd e.next
  | .finish | .done => e.slots 0 = e.next ∧ e.next = job.endHeight
  | _ => e.slots 0 = e.next

structure Waits (job : Job) (e : RemoveSide) : Prop where
  next_le : e.next ≤ job.endHeight
  required : ∀ r required, (e.pcs r).required = some required → required ≤ job.endHeight
  alone : job.removers = 1 → e.faults 0 = none → e.Alone job (e.pcs 0)

theorem waits_initial (job : Job) : Waits job .initial where
  next_le := Nat.zero_le _
  required := fun r required h => by cases h
  alone := fun _ _ => rfl

/-- The remover `r` goes to `pc`; its slot and the cursor may move. -/
theorem Waits.move (hw : Waits job e) {pc : RemoverPc} {e' : RemoveSide} (hr : r < job.removers)
    (hworking : e.faults r = none) (hpcs : e'.pcs = Function.update e.pcs r pc)
    (hnext : e'.next ≤ job.endHeight)
    (hrequired : ∀ required, pc.required = some required → required ≤ job.endHeight)
    (halone : r = 0 → e.Alone job (e.pcs r) → e'.Alone job pc) : Waits job e' where
  next_le := hnext
  required := by
    intro b required hb
    rw [hpcs] at hb
    by_cases heq : b = r
    · rw [heq, Function.update_self] at hb
      exact hrequired required hb
    · rw [Function.update_of_ne heq] at hb
      exact hw.required b required hb
  alone := by
    intro hone _
    have hzero : r = 0 := by omega
    subst hzero
    rw [hpcs, Function.update_self]
    exact halone rfl (hw.alone hone hworking)

theorem Waits.fails (hw : Waits job s.remove) (hr : r < job.removers) (f : Fault) :
    Waits job (s.removerFails r f).remove where
  next_le := hw.next_le
  required := hw.required
  alone := by
    intro hone hnone
    have hzero : r = 0 := by omega
    subst hzero
    rw [State.removerFails] at hnone
    simp only [Function.update_self] at hnone
    cases hnone

theorem Waits.goto (hw : Waits job s.remove) {pc : RemoverPc} (hr : r < job.removers)
    (hworking : s.remove.faults r = none)
    (hrequired : ∀ required, pc.required = some required → required ≤ job.endHeight)
    (halone : s.remove.Alone job (s.remove.pcs r) → s.remove.Alone job pc) :
    Waits job (s.removerTo r pc).remove := by
  refine hw.move hr hworking rfl hw.next_le hrequired fun _ h => ?_
  have hpc := halone h
  cases pc <;> exact hpc

theorem Waits.publish (hw : Waits job s.remove) {pc : RemoverPc} {completed : Nat}
    (hr : r < job.removers) (hworking : s.remove.faults r = none) (hrequired : pc.required = none)
    (halone : s.remove.Alone job (s.remove.pcs r) →
      ({ s.remove with slots := Function.update s.remove.slots 0 completed }).Alone job pc) :
    Waits job (s.publishRemover job r completed pc).remove := by
  rw [State.publishRemover]
  by_cases hcan : canPublish job (s.remove.slots r) completed = true
  · rw [if_pos hcan]
    refine hw.move hr hworking rfl hw.next_le ?_ fun hzero h => ?_
    · intro required h
      rw [hrequired] at h
      cases h
    · have hpc := halone h
      rw [hzero]
      cases pc <;> exact hpc
  · rw [if_neg hcan]
    exact hw.fails hr _

theorem removerStep_waits (hw : Waits job s.remove) (hr : r < job.removers)
    (hworking : s.remove.faults r = none) (hstep : removerStep job r s = some s') :
    Waits job s'.remove ∧ s'.add = s.add := by
  have hself : ∀ completed, Function.update s.remove.slots 0 completed 0 = completed :=
    fun completed => Function.update_self _ _ _
  have hpublished : ∀ completed pc, (s.publishRemover job r completed pc).add = s.add := by
    intro completed pc
    rw [State.publishRemover]
    split <;> rfl
  have hgo : ∀ pc : RemoverPc, pc.required = none →
      (s.remove.Alone job (s.remove.pcs r) → s.remove.Alone job pc) →
      Waits job (s.removerTo r pc).remove := by
    intro pc hnone halone
    refine hw.goto hr hworking ?_ halone
    intro required h
    rw [hnone] at h
    cases h
  rw [removerStep] at hstep
  cases hpc : s.remove.pcs r with
  | check =>
    rw [hpc] at hstep hgo
    dsimp only at hstep
    split at hstep
    · cases hstep
      exact ⟨hw.fails hr _, rfl⟩
    · cases hstep
      exact ⟨hgo _ rfl id, rfl⟩
  | scan i low =>
    rw [hpc] at hstep hgo
    dsimp only at hstep
    split at hstep
    · cases hstep
      exact ⟨hgo _ rfl id, rfl⟩
    · cases hstep
      exact ⟨hgo _ rfl id, rfl⟩
  | claim limit =>
    rw [hpc] at hstep hgo
    dsimp only at hstep
    split at hstep
    · cases hstep
      exact ⟨hgo _ rfl id, rfl⟩
    · split at hstep
      · cases hstep
        exact ⟨hgo _ rfl id, rfl⟩
      · cases hstep
        exact ⟨hgo _ rfl id, rfl⟩
  | exchange limit start =>
    rw [hpc] at hstep hgo
    dsimp only at hstep
    split at hstep
    · rename_i heq
      cases hstep
      refine ⟨?_, rfl⟩
      refine hw.move hr hworking rfl (Nat.min_le_right _ _) (fun required h => by cases h) ?_
      intro hzero halone
      rw [hpc] at halone
      have hslot : s.remove.slots 0 = s.remove.next := halone
      exact ⟨hslot.trans heq, rfl⟩
    · cases hstep
      exact ⟨hgo _ rfl id, rfl⟩
  | publishStart start stop =>
    rw [hpc] at hstep
    cases hstep
    refine ⟨hw.publish hr hworking rfl fun h => ?_, hpublished _ _⟩
    rw [hpc] at h
    exact ⟨hself start, h.2⟩
  | pop start stop =>
    rw [hpc] at hstep
    dsimp only at hstep
    split at hstep
    · cases hstep
      refine ⟨?_, rfl⟩
      refine hw.move hr hworking rfl hw.next_le (fun required h => by cases h) ?_
      intro _ halone
      rw [hpc] at halone
      exact halone
    · cases hstep
      exact ⟨hw.fails hr _, rfl⟩
  | debit start stop =>
    rw [hpc] at hstep
    dsimp only at hstep
    split at hstep
    · cases hstep
      refine ⟨?_, rfl⟩
      refine hw.move hr hworking rfl hw.next_le (fun required h => by cases h) ?_
      intro _ halone
      rw [hpc] at halone
      exact halone
    · cases hstep
      exact ⟨hw.fails hr _, rfl⟩
  | publishEnd start stop =>
    rw [hpc] at hstep
    cases hstep
    refine ⟨hw.publish hr hworking rfl fun h => ?_, hpublished _ _⟩
    rw [hpc] at h
    exact (hself stop).trans h.2.symm
  | isFinished =>
    rw [hpc] at hstep hgo
    dsimp only at hstep
    split at hstep
    · rename_i hfull
      cases hstep
      exact ⟨hgo _ rfl fun h => ⟨h, Nat.le_antisymm hw.next_le hfull⟩, rfl⟩
    · cases hstep
      exact ⟨hgo _ rfl id, rfl⟩
  | nextHeight =>
    rw [hpc] at hstep hgo
    cases hstep
    exact ⟨hgo _ rfl fun h => ⟨h, rfl⟩, rfl⟩
  | publishNext next =>
    rw [hpc] at hstep
    cases hstep
    refine ⟨hw.publish hr hworking rfl fun h => ?_, hpublished _ _⟩
    rw [hpc] at h
    exact (hself next).trans h.2
  | rangeEnd =>
    rw [hpc] at hstep
    cases hstep
    refine ⟨hw.goto hr hworking ?_ fun h => ?_, rfl⟩
    · intro required h
      cases h
      exact Nat.min_le_right _ _
    · rw [hpc] at h
      exact ⟨h, rfl⟩
  | compare required i low =>
    have hreq := hw.required r required (by rw [hpc]; rfl)
    rw [hpc] at hstep hgo
    dsimp only at hstep
    split at hstep
    · cases hstep
      refine ⟨hw.goto hr hworking (fun _ h => by cases h; exact hreq) fun h => ?_, rfl⟩
      rw [hpc] at h
      exact h
    · split at hstep
      · cases hstep
        refine ⟨hw.goto hr hworking (fun _ h => by cases h; exact hreq) fun h => ?_, rfl⟩
        rw [hpc] at h
        exact h
      · cases hstep
        exact ⟨hgo _ rfl fun h => h.1, rfl⟩
  | waiting required =>
    rw [hpc] at hstep hgo
    dsimp only at hstep
    split at hstep
    · cases hstep
      exact ⟨hw.fails hr _, rfl⟩
    · split at hstep
      · cases hstep
        exact ⟨hgo _ rfl fun h => h.1, rfl⟩
      · cases hstep
  | finish =>
    rw [hpc] at hstep
    cases hstep
    refine ⟨hw.publish hr hworking rfl fun h => ?_, hpublished _ _⟩
    rw [hpc] at h
    exact ⟨(hself job.endHeight).trans h.2.symm, h.2⟩
  | done =>
    rw [hpc] at hstep
    cases hstep

theorem Reachable.waits (hsize : 0 < job.size) (h : Reachable job s) :
    AddInv job s.add ∧ Waits job s.remove := by
  induction h with
  | initial => exact ⟨addInv_initial job, waits_initial job⟩
  | step h step ih =>
    obtain ⟨hi, hw⟩ := ih
    cases step with
    | adder a worker working step =>
      have hs := adderStep_spec hsize hi worker step
      exact ⟨hs.inv, by rw [hs.remove]; exact hw⟩
    | remover r worker working step =>
      obtain ⟨hw', hadd⟩ := removerStep_waits hw worker working step
      exact ⟨by rw [hadd]; exact hi, hw'⟩
    | adderError a worker working fallible => exact ⟨hi.fails _, hw⟩
    | removerError r worker working fallible => exact ⟨hi, hw.fails worker _⟩
    | adderAborts a worker failed => exact ⟨hi, hw⟩
    | removerAborts r worker failed => exact ⟨hi, hw⟩

end Waits

section Progress

/-- The windows that cannot close on each other: the whole chain is within the lead, or a
single remover takes ranges that are. -/
def Job.Roomy (job : Job) : Prop :=
  job.endHeight ≤ maxAdderLeadBlocks ∨ (job.size ≤ maxAdderLeadBlocks ∧ job.removers = 1)

/-- An adder that is not done stands below the end, at its slot. -/
theorem blocked_slot (hi : AddInv job s.add) {height stop : Nat}
    (hpc : s.add.pcs a = .window height stop) :
    s.add.slots a = height ∧ height < job.endHeight := by
  have hplace := hi.place a
  rw [hpc] at hplace
  exact ⟨hplace.1, (hi.working hplace.2).2⟩

theorem lead_of_blocked (hi : AddInv job s.add) (h : s.AdderBlocked job a) :
    s.minimumRemover job + maxAdderLeadBlocks ≤ s.add.slots a ∧ s.add.slots a < job.endHeight := by
  obtain ⟨height, stop, hpc, hcan⟩ := h
  obtain ⟨hslot, hlt⟩ := blocked_slot hi hpc
  rw [State.adderCanProcess, decide_eq_false_iff_not, Nat.not_lt] at hcan
  rw [hslot]
  exact ⟨hcan, hlt⟩

theorem not_deadlocked (hsize : 0 < job.size) (hroomy : job.Roomy) (h : Reachable job s)
    (hq : s.Quiet) (hleft : ¬s.Finished job) : ¬s.Deadlocked job := by
  obtain ⟨hi, hw⟩ := h.waits hsize
  intro hd
  have hdone : ∀ a, s.add.pcs a = .done → s.add.slots a = job.endHeight := by
    intro a ha
    have hplace := hi.place a
    rw [ha] at hplace
    exact hplace.2
  -- the removers wait for something the adders have not reached
  have hwant : ∀ r < job.removers, s.remove.pcs r ≠ .done → ∃ required ≤ job.endHeight,
      s.minimumAdder job < required ∧
        (job.removers = 1 → s.remove.slots r = s.remove.next ∧
          required = job.rangeEnd s.remove.next) := by
    intro r hr hnot
    rcases hd.removers r hr hnot with ⟨required, hpc, hlt⟩ | ⟨hheld, -, hlt⟩
    · refine ⟨required, hw.required r required (by rw [hpc]; rfl), hlt, fun hone => ?_⟩
      have hzero : r = 0 := by omega
      subst hzero
      have halone := hw.alone hone (hq.removers 0)
      rw [hpc] at halone
      exact halone
    · refine ⟨_, Nat.min_le_right _ _, hlt, fun hone => ⟨?_, rfl⟩⟩
      have hzero : r = 0 := by omega
      subst hzero
      have halone := hw.alone hone (hq.removers 0)
      cases hpc : s.remove.pcs 0 with
      | publishStart _ _ | pop _ _ | debit _ _ | publishEnd _ _ =>
        rw [hpc] at hheld
        cases hheld
      | publishNext _ | compare _ _ _ | waiting _ | finish | done =>
        rw [hpc] at halone
        exact halone.1
      | check | scan _ _ | claim _ | exchange _ _ | isFinished | nextHeight | rangeEnd =>
        rw [hpc] at halone
        exact halone
  rcases hroomy with hshort | ⟨hrange, hone⟩
  · -- no adder is ever blocked, so all of them are done
    have hall : ∀ a < job.adders, s.add.pcs a = .done := by
      intro a ha
      by_contra hnot
      obtain ⟨hlead, hlt⟩ := lead_of_blocked hi (hd.adders a ha hnot)
      omega
    have hrest : ∀ r < job.removers, s.remove.pcs r = .done := by
      intro r hr
      by_contra hnot
      obtain ⟨required, hle, hlt, -⟩ := hwant r hr hnot
      refine Nat.not_lt.mpr (le_minimumProgress.mpr ⟨hle, fun a ha => ?_⟩) hlt
      rw [hdone a (hall a ha)]
      exact hle
    exact hleft ⟨hall, hrest⟩
  · have hmin : s.minimumRemover job = min (s.remove.slots 0) job.endHeight := by
      rw [State.minimumRemover, minimumProgress, hone]
      exact Nat.min_comm _ _
    by_cases hr : s.remove.pcs 0 = .done
    · -- the remover is at the end, so no adder's window is closed
      have halone := hw.alone hone (hq.removers 0)
      rw [hr] at halone
      refine hleft ⟨?_, fun r hlt => by rw [show r = 0 by omega]; exact hr⟩
      intro a ha
      by_contra hnot
      obtain ⟨hlead, hlt⟩ := lead_of_blocked hi (hd.adders a ha hnot)
      rw [hmin, halone.1, halone.2] at hlead
      omega
    · obtain ⟨required, hle, hlt, hnext⟩ := hwant 0 (by omega) hr
      obtain ⟨hslot, hreq⟩ := hnext hone
      refine Nat.not_lt.mpr (le_minimumProgress.mpr ⟨hle, fun a ha => ?_⟩) hlt
      by_cases hnot : s.add.pcs a = .done
      · rw [hdone a hnot]
        exact hle
      · obtain ⟨hlead, -⟩ := lead_of_blocked hi (hd.adders a ha hnot)
        have hbound := hw.next_le
        rw [hmin, hslot] at hlead
        rw [hreq, Job.rangeEnd]
        omega

/-- In a roomy job some worker can always go on. -/
theorem windows_never_deadlock (hsize : 0 < job.size) (hroomy : job.Roomy)
    (h : Reachable job s) (hq : s.Quiet) (hleft : ¬s.Finished job) :
    ¬s.Deadlocked job ∧ ∃ (w : Worker) (s' : State), w.step job s = some s' := by
  have hnot := not_deadlocked hsize hroomy h hq hleft
  refine ⟨hnot, ?_⟩
  by_contra hnone
  refine hnot (deadlocked_of_stuck hq fun w => ?_)
  rw [Option.eq_none_iff_forall_ne_some]
  intro s' hs'
  exact hnone ⟨w, s', hs'⟩

/-- Two adders and one remover, five ranges of 1000 blocks with one output each. -/
def Job.spread : Job where
  adders := 2
  removers := 1
  size := 1000
  endHeight := 5000
  outputs := fun h => [(heightKey h, [])]
  spends := fun _ => []

/-- The remover looks and waits; both adders claim a range, and one of them adds a block. -/
def spreadSchedule : List Worker :=
  List.replicate 12 (.remover 0) ++ List.replicate 3 (.adder 0) ++ List.replicate 4 (.adder 1) ++
    List.replicate 7 (.adder 0)

/-- The remover waits for the first range, and the adders are in the first two. -/
theorem windows_never_deadlock_spread : ∃ s, Reachable Job.spread s ∧
    (s.remove.pcs 0 = .waiting 1000 ∧ s.add.pcs 0 = .window 1 1000 ∧ s.add.pcs 1 = .window 1000 2000) ∧
    s.minimumAdder Job.spread = 1 ∧ s.RemoverBlocked Job.spread 0 ∧ ¬s.Deadlocked Job.spread ∧
      ∃ (w : Worker) (s' : State), w.step Job.spread s = some s' := by
  have hroomy : Job.spread.Roomy := Or.inr ⟨by decide, rfl⟩
  cases hrun : follow Job.spread spreadSchedule .initial with
  | none => cases hrun
  | some s =>
    have hreach := Reachable.initial.follow hrun
    have hstate : (s.remove.pcs 0 = .waiting 1000 ∧ s.add.pcs 0 = .window 1 1000 ∧
        s.add.pcs 1 = .window 1000 2000) ∧ s.minimumAdder Job.spread = 1 ∧ s.Quiet := by
      cases hrun
      exact ⟨⟨rfl, rfl, rfl⟩, rfl, fun _ => rfl, fun _ => rfl, rfl⟩
    obtain ⟨hpcs, hmin, hquiet⟩ := hstate
    have hleft : ¬s.Finished Job.spread := by
      intro hdone
      have hpc := hdone.2 0 Nat.one_pos
      rw [hpcs.1] at hpc
      cases hpc
    have hblocked : s.RemoverBlocked Job.spread 0 := Or.inl ⟨1000, hpcs.1, by rw [hmin]; decide⟩
    exact ⟨s, hreach, hpcs, hmin, hblocked, windows_never_deadlock (by decide) hroomy hreach hquiet hleft⟩

end Progress

section Closed

/-- One adder, one remover and one range of 4097 blocks with one output each. -/
def Job.wide : Job where
  adders := 1
  removers := 1
  size := 4097
  endHeight := 4097
  outputs := fun h => [(heightKey h, [])]
  spends := fun _ => []

/-- The remover waits for the whole range, and the adder goes through it: it stands at `pc`
with its slot at `k`, the heights from `c` on are not counted yet, and `n` outputs are live. -/
structure Ahead (k c n : Nat) (pc : AdderPc) (s : State) : Prop where
  reachable : Reachable Job.wide s
  quiet : s.Quiet
  pc : s.add.pcs 0 = pc
  slot : s.add.slots 0 = k
  fresh : ∀ x, c ≤ x → s.add.counts x = none
  live : s.live = n
  parked : s.remove.pcs 0 = .waiting 4097 ∧ s.remove.slots 0 = 0

variable {k c n : Nat} {pc : AdderPc}

theorem wide_minimumRemover (h : s.remove.slots 0 = 0) : s.minimumRemover Job.wide = 0 := by
  change min 4097 (s.remove.slots 0) = 0
  rw [h]
  rfl

theorem Ahead.step {k' c' n' : Nat} {pc' : AdderPc} (h : Ahead k c n pc s)
    (hstep : adderStep Job.wide 0 s = some s') (hremove : s'.remove = s.remove)
    (haborted : s'.aborted = s.aborted) (hfaults : s'.add.faults = s.add.faults)
    (hpc : s'.add.pcs 0 = pc') (hslot : s'.add.slots 0 = k')
    (hfresh : ∀ x, c' ≤ x → s'.add.counts x = none) (hlive : s'.live = n') :
    Ahead k' c' n' pc' s' where
  reachable := h.reachable.step (.adder 0 Nat.one_pos (h.quiet.adders 0) hstep)
  quiet := by
    refine ⟨?_, ?_, haborted.trans h.quiet.running⟩
    · rw [hfaults]
      exact h.quiet.adders
    · rw [hremove]
      exact h.quiet.removers
  pc := hpc
  slot := hslot
  fresh := hfresh
  live := hlive
  parked := by
    rw [hremove]
    exact h.parked

theorem Ahead.running (h : Ahead k c n pc s) : ¬s.aborted = true := by
  rw [h.quiet.running]
  exact Bool.false_ne_true

theorem AddSide.goto_self (d : AddSide) (a : Nat) (pc : AdderPc) : (d.goto a pc).pcs a = pc :=
  Function.update_self _ _ _

theorem Ahead.window (h : Ahead k k n (.window k 4097) s) (hk : k < 4096) :
    ∃ s', Ahead k k n (.read k 4097) s' := by
  have hcan : s.adderCanProcess Job.wide k = true := by
    rw [State.adderCanProcess, wide_minimumRemover h.parked.2, decide_eq_true_eq,
      maxAdderLeadBlocks]
    omega
  have hstep : adderStep Job.wide 0 s = some (s.adderTo 0 (.read k 4097)) := by
    rw [adderStep, h.pc]
    dsimp only
    rw [if_neg h.running, if_pos hcan]
  exact ⟨_, h.step hstep rfl rfl rfl (s.add.goto_self _ _) h.slot h.fresh h.live⟩

theorem Ahead.read (h : Ahead k k n (.read k 4097) s) : ∃ s', Ahead k k n (.put k 4097) s' := by
  have hstep : adderStep Job.wide 0 s = some (s.adderTo 0 (.put k 4097)) := by
    rw [adderStep, h.pc]
    dsimp only
    rw [if_neg h.running]
  exact ⟨_, h.step hstep rfl rfl rfl (s.add.goto_self _ _) h.slot h.fresh h.live⟩

theorem Ahead.put (h : Ahead k k n (.put k 4097) s) : ∃ s', Ahead k k n (.count k 4097) s' := by
  have hstep : adderStep Job.wide 0 s = some { s with
      database := s.database.pushAll (Job.wide.outputs k)
      add := ({ s.add with inserted := Function.update s.add.inserted k true }).goto 0
        (.count k 4097) } := by
    rw [adderStep, h.pc]
  exact ⟨_, h.step hstep rfl rfl rfl (AddSide.goto_self _ _ _) h.slot h.fresh h.live⟩

theorem Ahead.count (h : Ahead k k n (.count k 4097) s) :
    ∃ s', Ahead k (k + 1) n (.credit k 4097) s' := by
  have hstep : adderStep Job.wide 0 s = some { s with
      add := ({ s.add with counts := Function.update s.add.counts k (some 1) }).goto 0
        (.credit k 4097) } := by
    rw [adderStep, h.pc]
    dsimp only
    rw [h.fresh k (Nat.le_refl k)]
    rfl
  refine ⟨_, h.step hstep rfl rfl rfl (AddSide.goto_self _ _ _) h.slot ?_ h.live⟩
  intro x hx
  change Function.update s.add.counts k _ x = none
  rw [Function.update_of_ne (by omega)]
  exact h.fresh x (by omega)

theorem Ahead.credit (h : Ahead k (k + 1) n (.credit k 4097) s) (hn : n < 4097) :
    ∃ s', Ahead k (k + 1) (n + 1) (.publish k 4097) s' := by
  have hfits : s.live + (Job.wide.outputs k).length < u64Bound := by
    rw [h.live]
    change n + 1 < u64Bound
    rw [u64Bound]
    omega
  have hstep : adderStep Job.wide 0 s = some { s with
      live := s.live + 1
      add := ({ s.add with credited := Function.update s.add.credited k true }).goto 0
        (.publish k 4097) } := by
    rw [adderStep, h.pc]
    dsimp only
    rw [if_pos hfits]
    rfl
  exact ⟨_, h.step hstep rfl rfl rfl (AddSide.goto_self _ _ _) h.slot h.fresh
    (congrArg (· + 1) h.live)⟩

theorem Ahead.publish (h : Ahead k (k + 1) n (.publish k 4097) s) (hk : k + 1 < 4097) :
    ∃ s', Ahead (k + 1) (k + 1) n (.window (k + 1) 4097) s' := by
  have hcan : canPublish Job.wide (s.add.slots 0) (k + 1) = true := by
    rw [h.slot, canPublish, Bool.and_eq_true, decide_eq_true_eq, decide_eq_true_eq]
    exact ⟨Nat.le_succ k, Nat.le_of_lt hk⟩
  have hstep : adderStep Job.wide 0 s = some { s with
      add := ({ s.add with slots := Function.update s.add.slots 0 (k + 1) }).goto 0
        (.window (k + 1) 4097) } := by
    rw [adderStep, h.pc]
    dsimp only
    rw [State.publishAdder, if_pos hcan, if_pos hk]
  have hslot : Function.update s.add.slots 0 (k + 1) 0 = k + 1 := Function.update_self _ _ _
  exact ⟨_, h.step hstep rfl rfl rfl (AddSide.goto_self _ _ _) hslot h.fresh h.live⟩

/-- The remover looks, finds nothing complete and waits; the adder claims the range. -/
theorem exists_ahead_zero : ∃ s, Ahead 0 0 0 (.window 0 4097) s := by
  let schedule := List.replicate 10 (Worker.remover 0) ++ List.replicate 4 (Worker.adder 0)
  cases hrun : follow Job.wide schedule .initial with
  | none => cases hrun
  | some s =>
    have hreach := Reachable.initial.follow hrun
    cases hrun
    exact ⟨_, hreach, ⟨fun _ => rfl, fun _ => rfl, rfl⟩, rfl, rfl, fun _ _ => rfl, rfl, rfl, rfl⟩

/-- The adder gets to the height 4096. -/
theorem exists_ahead (hk : k ≤ 4096) : ∃ s, Ahead k k k (.window k 4097) s := by
  induction k with
  | zero => exact exists_ahead_zero
  | succ k ih =>
    obtain ⟨s0, h0⟩ := ih (by omega)
    obtain ⟨s1, h1⟩ := h0.window (by omega)
    obtain ⟨s2, h2⟩ := h1.read
    obtain ⟨s3, h3⟩ := h2.put
    obtain ⟨s4, h4⟩ := h3.count
    obtain ⟨s5, h5⟩ := h4.credit (by omega)
    exact h5.publish (by omega)

/-- With ranges of 4097 blocks the adder waits for the remover at height 4096, and the remover
for the adder to finish the range. -/
theorem wide_windows_deadlock :
    ∃ s, Reachable Job.wide s ∧ s.Quiet ∧ ¬s.Finished Job.wide ∧ s.Deadlocked Job.wide ∧
      ∀ w : Worker, w.step Job.wide s = none := by
  obtain ⟨s, h⟩ := exists_ahead (Nat.le_refl 4096)
  have hcan : s.adderCanProcess Job.wide 4096 = false := by
    rw [State.adderCanProcess, wide_minimumRemover h.parked.2]
    rfl
  have hmin : s.minimumAdder Job.wide < 4097 := by
    change min 4097 (s.add.slots 0) < 4097
    rw [h.slot]
    decide
  have hstuck : ∀ w : Worker, w.step Job.wide s = none := by
    intro w
    cases w with
    | adder a =>
      rw [Worker.step]
      split
      · rename_i hwork
        have hzero : a = 0 := Nat.lt_one_iff.mp hwork.1
        rw [hzero, adderStep, h.pc]
        dsimp only
        rw [if_neg h.running, if_neg (by rw [hcan]; exact Bool.false_ne_true)]
      · rfl
    | remover r =>
      rw [Worker.step]
      split
      · rename_i hwork
        have hzero : r = 0 := Nat.lt_one_iff.mp hwork.1
        rw [hzero, removerStep, h.parked.1]
        dsimp only
        rw [if_neg h.running, if_neg (Nat.not_le.mpr hmin)]
      · rfl
  refine ⟨s, h.reachable, h.quiet, ?_, deadlocked_of_stuck h.quiet hstuck, hstuck⟩
  intro hdone
  have hpc := hdone.1 0 Nat.one_pos
  rw [h.pc] at hpc
  cases hpc

end Closed

end FlorestaDb.Hintsgen
