import FlorestaDb.AllocatorScan
import FlorestaDb.Lib.Runs

/-! What the zero-run scan finds: the longest run of free pages that does not start behind a
claimed page, and the earliest of them. -/
namespace FlorestaDb.Allocator
open Runs

section Scan
variable {snapshot : List Nat} {n : Nat} {s : Scan}

/-- The pages without live allocations. -/
def FreeAt (snapshot : List Nat) (i : Nat) : Prop := snapshot.getD i 0 = 0

/-- A run that starts behind a claimed page is left to the thread that claimed it. -/
def Admitted (snapshot : List Nat) (start : Nat) : Prop :=
  start = 0 ∨ snapshot.getD (start - 1) 0 ≠ claimed

/-- What the scan knows after `n` entries: the run in progress, and the best one so far. -/
structure Scanned (snapshot : List Nat) (n : Nat) (s : Scan) : Prop where
  tail : IsTail (FreeAt snapshot) n s.runStart s.runLength
  claimable : 0 < s.runLength → (s.runClaimable = true ↔ Admitted snapshot s.runStart)
  none : s.bestLength = 0 →
    ∀ start length, IsRun (FreeAt snapshot) n start length → ¬Admitted snapshot start
  best : 0 < s.bestLength →
    IsBest (FreeAt snapshot) (Admitted snapshot) n s.bestStart s.bestLength

theorem scanned_nil (snapshot : List Nat) : Scanned snapshot 0 ⟨0, 0, 0, 0, true⟩ where
  tail := .none rfl (Or.inl rfl)
  claimable := fun h => absurd h (Nat.lt_irrefl 0)
  none := by
    intro _ start length hrun
    have hpos := hrun.pos
    have hle := hrun.le
    omega
  best := fun h => absurd h (Nat.lt_irrefl 0)

/-- An entry that is not zero ends the run. -/
theorem Scanned.skip (h : Scanned snapshot n s) (hn : ¬FreeAt snapshot n) :
    Scanned snapshot (n + 1) { s with runLength := 0 } where
  tail := .none rfl (Or.inr hn)
  claimable := fun hpos => absurd hpos (Nat.lt_irrefl 0)
  none := fun hzero start length hrun => h.none hzero start length ((isRun_succ_of_not hn).mp hrun)
  best := by
    intro hpos
    obtain ⟨hrun, hadmitted, hbest⟩ := h.best hpos
    refine ⟨(isRun_succ_of_not hn).mpr hrun, hadmitted, ?_⟩
    intro start length hrun'
    exact hbest start length ((isRun_succ_of_not hn).mp hrun')

/-- A zero makes the run longer, and the run may become the best one. -/
theorem Scanned.extend (h : Scanned snapshot n s) (hn : FreeAt snapshot n) :
    Scanned snapshot (n + 1) (s.entry snapshot n true) := by
  obtain ⟨hrun, hend⟩ := h.tail.extend hn
  have hclaim : (if s.runLength = 0 then
      (decide (n = 0) || snapshot.getD (n - 1) 0 != claimed) else s.runClaimable) = true ↔
      Admitted snapshot (if s.runLength = 0 then n else s.runStart) := by
    by_cases hzero : s.runLength = 0
    · rw [if_pos hzero, if_pos hzero]
      simp [Admitted]
    · rw [if_neg hzero, if_neg hzero]
      exact h.claimable (Nat.pos_of_ne_zero hzero)
  simp only [Scan.entry, if_pos]
  generalize (if s.runLength = 0 then n else s.runStart) = start at hrun hend hclaim ⊢
  generalize (if s.runLength = 0 then _ else s.runClaimable) = claimable at hclaim ⊢
  by_cases hbetter : (claimable && decide (s.runLength + 1 > s.bestLength)) = true
  · rw [if_pos hbetter]
    rw [Bool.and_eq_true, decide_eq_true_eq] at hbetter
    have hadmitted := hclaim.mp hbetter.1
    refine ⟨.run hrun hend, fun _ => hclaim, fun hzero => ?_, fun _ => ?_⟩
    · exact absurd hzero (Nat.succ_ne_zero _)
    · refine isBest_of_last hrun hend hadmitted ?_
      intro start' length' hrun' hadmitted'
      by_cases hzero : s.bestLength = 0
      · exact absurd hadmitted' (h.none hzero start' length' hrun')
      · have hbest := (h.best (Nat.pos_of_ne_zero hzero)).best start' length' hrun' hadmitted'
        change length' < s.runLength + 1
        omega
  · rw [if_neg hbetter]
    have hle : Admitted snapshot start → s.runLength + 1 ≤ s.bestLength := by
      intro hadmitted
      by_contra hlonger
      exact hbetter (by simp [hclaim.mpr hadmitted]; omega)
    refine ⟨.run hrun hend, fun _ => hclaim, fun hzero => ?_, fun hpos => ?_⟩
    · intro start' length' hrun' hadmitted'
      by_cases hend' : start' + length' = n + 1
      · obtain ⟨rfl, -⟩ := hrun.unique hrun' (hend.trans hend'.symm)
        have hle := hle hadmitted'
        rw [show s.bestLength = 0 from hzero] at hle
        exact absurd hle (Nat.not_succ_le_zero _)
      · exact h.none hzero start' length' (hrun'.of_succ hn hend').2 hadmitted'
    · exact (h.best hpos).keep hrun hend hle

theorem scanUpTo_scanned (snapshot : List Nat) (n : Nat) :
    Scanned snapshot n (scanUpTo snapshot n) := by
  induction n with
  | zero => exact scanned_nil snapshot
  | succ n ih =>
    rw [scanUpTo_succ]
    by_cases hn : snapshot.getD n 0 = 0
    · rw [show (snapshot.getD n 0 == 0) = true from beq_iff_eq.mpr hn]
      exact ih.extend hn
    · rw [show (snapshot.getD n 0 == 0) = false from beq_eq_false_iff_ne.mpr hn]
      exact ih.skip hn

/-- The scan finds the longest admitted run of free pages, the earliest one on ties. -/
theorem longestZeroRun_spec (snapshot : List Nat) :
    (longestZeroRun snapshot = none ↔ ∀ start length,
      IsRun (FreeAt snapshot) snapshot.length start length → ¬Admitted snapshot start) ∧
    ∀ start, longestZeroRun snapshot = some start ↔ ∃ length,
      IsBest (FreeAt snapshot) (Admitted snapshot) snapshot.length start length := by
  have hscan := scanUpTo_scanned snapshot snapshot.length
  rw [longestZeroRun_eq]
  generalize scanUpTo snapshot snapshot.length = s at hscan
  by_cases hzero : s.bestLength = 0
  · have hnone := hscan.none hzero
    rw [if_pos hzero]
    refine ⟨iff_of_true rfl hnone, ?_⟩
    intro start
    constructor
    · intro h
      cases h
    · intro h
      obtain ⟨length, hbest⟩ := h
      exact absurd hbest.admitted (hnone start length hbest.run)
  · have hbest := hscan.best (Nat.pos_of_ne_zero hzero)
    rw [if_neg hzero]
    constructor
    · constructor
      · intro h
        cases h
      · intro h
        exact absurd hbest.admitted (h _ _ hbest.run)
    · intro start
      constructor
      · intro h
        obtain rfl := Option.some.inj h
        exact ⟨_, hbest⟩
      · intro h
        obtain ⟨length, hbest'⟩ := h
        rw [hbest.unique hbest']

end Scan

end FlorestaDb.Allocator
