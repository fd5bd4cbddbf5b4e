import FlorestaDb.AllocatorPages

/-! The zero-run scan, read entry by entry: the chunked loop with its lane mask and
the tail loop are one fold over the counts. -/
namespace FlorestaDb.Allocator

theorem zeroMask_testBit (values : List Nat) (k mask j : Nat) :
    ((values.zipIdx k).foldl
      (fun mask p => if p.1 = 0 then mask ||| 1 <<< p.2 else mask) mask).testBit j =
      (mask.testBit j || (decide (k ≤ j) && values.getD (j - k) 1 == 0)) := by
  induction values generalizing k mask with
  | nil => simp
  | cons v values ih =>
    rw [List.zipIdx_cons, List.foldl_cons, ih]
    rcases Nat.lt_trichotomy j k with hlt | heq | hgt
    · have h1 : ¬k ≤ j := by omega
      have h2 : ¬k + 1 ≤ j := by omega
      by_cases hv : v = 0
      · have h3 : (1 <<< k).testBit j = false := by
          rw [Nat.one_shiftLeft, Nat.testBit_two_pow]
          simp
          omega
        simp [h1, h2, hv, h3]
      · simp [h1, h2, hv]
    · subst heq
      have h2 : ¬j + 1 ≤ j := by omega
      by_cases hv : v = 0
      · simp [h2, hv, Nat.one_shiftLeft]
      · simp [h2, hv]
    · have h1 : k ≤ j := by omega
      have h2 : k + 1 ≤ j := by omega
      obtain ⟨d, hd⟩ : ∃ d, j - k = d + 1 := ⟨j - k - 1, by omega⟩
      have hd' : j - (k + 1) = d := by omega
      have h3 : (1 <<< k).testBit j = false := by
        rw [Nat.one_shiftLeft, Nat.testBit_two_pow]
        simp
        omega
      by_cases hv : v = 0
      · simp [h1, h2, hv, h3, hd, hd']
      · simp [h1, h2, hv, hd, hd']

theorem zeroMask16_testBit (values : List Nat) (lane : Nat) :
    (zeroMask16 values).testBit lane = (values.getD lane 1 == 0) := by
  simpa [zeroMask16] using zeroMask_testBit values 0 0 lane

/-- The scan of the first `n` entries, one after another. -/
def scanUpTo (snapshot : List Nat) (n : Nat) : Scan :=
  (List.range n).foldl (fun s i => s.entry snapshot i (snapshot.getD i 0 == 0)) ⟨0, 0, 0, 0, true⟩

theorem scanUpTo_succ (snapshot : List Nat) (n : Nat) :
    scanUpTo snapshot (n + 1) =
      (scanUpTo snapshot n).entry snapshot n (snapshot.getD n 0 == 0) := by
  simp [scanUpTo, List.range_succ]

theorem scanLanes_upTo (snapshot : List Nat) (index : Nat) (h : index + 16 ≤ snapshot.length) :
    scanLanes snapshot (zeroMask16 ((snapshot.drop index).take 16)) index
      (scanUpTo snapshot index) = scanUpTo snapshot (index + 16) := by
  have key : ∀ n ≤ 16, (List.range n).foldl (fun s lane => Scan.entry snapshot s (index + lane)
      ((zeroMask16 ((snapshot.drop index).take 16)).testBit lane)) (scanUpTo snapshot index) =
      scanUpTo snapshot (index + n) := by
    intro n hn
    induction n with
    | zero => rfl
    | succ n ih =>
      have hlane : ((snapshot.drop index).take 16).getD n 1 = snapshot.getD (index + n) 0 := by
        have hlt : index + n < snapshot.length := by omega
        rw [List.getD_eq_getElem?_getD, List.getD_eq_getElem?_getD,
          List.getElem?_take_of_lt (by omega), List.getElem?_drop,
          List.getElem?_eq_getElem hlt]
        rfl
      rw [List.range_succ, List.foldl_append, ih (by omega)]
      simp only [List.foldl_cons, List.foldl_nil, zeroMask16_testBit, hlane]
      exact (scanUpTo_succ snapshot (index + n)).symm
  exact key 16 (by omega)

theorem scanChunks_upTo (snapshot : List Nat) (fuel index : Nat) :
    ∃ index', scanChunks snapshot snapshot.length fuel index (scanUpTo snapshot index) =
      (index', scanUpTo snapshot index') ∧ index ≤ index' ∧
      (index ≤ snapshot.length → index' ≤ snapshot.length) := by
  induction fuel generalizing index with
  | zero => exact ⟨index, rfl, Nat.le_refl _, id⟩
  | succ fuel ih =>
    simp only [scanChunks]
    split
    · rename_i h
      obtain ⟨i', h1, h2, h3⟩ := ih (index + 16)
      rw [scanLanes_upTo snapshot index h]
      exact ⟨i', h1, by omega, fun _ => h3 (by omega)⟩
    · exact ⟨index, rfl, Nat.le_refl _, id⟩

theorem scanTail_upTo (snapshot : List Nat) (fuel index : Nat) (hi : index ≤ snapshot.length)
    (hf : snapshot.length ≤ index + fuel) :
    scanTail snapshot snapshot.length fuel index (scanUpTo snapshot index) =
      scanUpTo snapshot snapshot.length := by
  induction fuel generalizing index with
  | zero =>
    have : index = snapshot.length := by omega
    rw [this]
    rfl
  | succ fuel ih =>
    simp only [scanTail]
    split
    · rename_i h
      rw [← scanUpTo_succ]
      exact ih (index + 1) (by omega) (by omega)
    · have : index = snapshot.length := by omega
      rw [this]

/-- Both loops together scan every count once. -/
theorem longestZeroRun_eq (snapshot : List Nat) :
    longestZeroRun snapshot =
      if (scanUpTo snapshot snapshot.length).bestLength = 0 then none
      else some (scanUpTo snapshot snapshot.length).bestStart := by
  obtain ⟨index, h1, -, h3⟩ := scanChunks_upTo snapshot snapshot.length 0
  have h0 : scanUpTo snapshot 0 = ⟨0, 0, 0, 0, true⟩ := rfl
  rw [h0] at h1
  simp only [longestZeroRun, h1]
  rw [scanTail_upTo snapshot snapshot.length index (h3 (Nat.zero_le _)) (by omega)]

/-- What the scan knows after `n` entries: both runs consist of zeros. -/
structure ScanOk (snapshot : List Nat) (n : Nat) (s : Scan) : Prop where
  best_le : 0 < s.bestLength → s.bestStart + s.bestLength ≤ n
  best_zero : ∀ i, s.bestStart ≤ i → i < s.bestStart + s.bestLength → snapshot.getD i 0 = 0
  run_end : 0 < s.runLength → s.runStart + s.runLength = n
  run_zero : ∀ i, s.runStart ≤ i → i < s.runStart + s.runLength → snapshot.getD i 0 = 0

theorem scanUpTo_ok (snapshot : List Nat) (n : Nat) : ScanOk snapshot n (scanUpTo snapshot n) := by
  induction n with
  | zero => exact ⟨by simp [scanUpTo], by simp [scanUpTo], by simp [scanUpTo], by simp [scanUpTo]⟩
  | succ n ih =>
    rw [scanUpTo_succ]
    generalize scanUpTo snapshot n = s at ih ⊢
    by_cases hz : snapshot.getD n 0 = 0
    · have hrun : ∀ i, (if s.runLength = 0 then n else s.runStart) ≤ i →
          i < (if s.runLength = 0 then n else s.runStart) + (s.runLength + 1) →
          snapshot.getD i 0 = 0 := by
        intro i h1 h2
        by_cases hin : i = n
        · rw [hin]
          exact hz
        · by_cases hr : s.runLength = 0
          · simp only [hr, if_true] at h1 h2
            omega
          · rw [if_neg hr] at h1 h2
            have := ih.run_end (by omega)
            exact ih.run_zero i h1 (by omega)
      have hend : (if s.runLength = 0 then n else s.runStart) + (s.runLength + 1) = n + 1 := by
        by_cases hr : s.runLength = 0
        · simp [hr]
        · have := ih.run_end (by omega)
          rw [if_neg hr]
          omega
      simp only [Scan.entry, hz, beq_self_eq_true, if_true]
      generalize (if s.runLength = 0 then n else s.runStart) = runStart at hrun hend ⊢
      generalize (if s.runLength = 0 then _ else s.runClaimable) = runClaimable
      split
      · exact ⟨fun _ => Nat.le_of_eq hend, hrun, fun _ => hend, hrun⟩
      · exact ⟨fun h => Nat.le_succ_of_le (ih.best_le h), ih.best_zero, fun _ => hend, hrun⟩
    · have hb : (snapshot.getD n 0 == 0) = false := by simpa using hz
      simp only [Scan.entry, hb, Bool.false_eq_true, if_false]
      refine ⟨fun h => Nat.le_succ_of_le (ih.best_le h), ih.best_zero, by simp, ?_⟩
      intro i h1 h2
      exact absurd h2 (Nat.not_lt.mpr h1)

theorem longestZeroRun_zero {snapshot : List Nat} {b : Nat}
    (h : longestZeroRun snapshot = some b) :
    b < snapshot.length ∧ snapshot.getD b 0 = 0 := by
  rw [longestZeroRun_eq] at h
  have hok := scanUpTo_ok snapshot snapshot.length
  split at h
  · cases h
  · rename_i hne
    cases h
    have := hok.best_le (by omega)
    exact ⟨by omega, hok.best_zero _ (Nat.le_refl _) (by omega)⟩

/-- Without a claimed page every zero run is claimable, so a zero count is found. -/
theorem longestZeroRun_found {snapshot : List Nat} {i : Nat} (hi : i < snapshot.length)
    (hz : snapshot.getD i 0 = 0) (hnone : ∀ j, snapshot.getD j 0 ≠ claimed) :
    ∃ b, longestZeroRun snapshot = some b := by
  have key : ∀ n, (0 < (scanUpTo snapshot n).runLength →
      (scanUpTo snapshot n).runClaimable = true) ∧
      (scanUpTo snapshot n).runLength ≤ (scanUpTo snapshot n).bestLength ∧
      ∀ j < n, snapshot.getD j 0 = 0 → 0 < (scanUpTo snapshot n).bestLength := by
    intro n
    induction n with
    | zero => exact ⟨by simp [scanUpTo], by simp [scanUpTo], by simp⟩
    | succ n ih =>
      rw [scanUpTo_succ]
      obtain ⟨h1, h2, h3⟩ := ih
      generalize scanUpTo snapshot n = s at h1 h2 h3 ⊢
      by_cases hzn : snapshot.getD n 0 = 0
      · have hclaim : (if s.runLength = 0 then
            (decide (n = 0) || snapshot.getD (n - 1) 0 != claimed) else s.runClaimable) = true := by
          by_cases hr : s.runLength = 0
          · have hne : (snapshot.getD (n - 1) 0 != claimed) = true := by
              simpa using hnone (n - 1)
            rw [if_pos hr, hne, Bool.or_true]
          · rw [if_neg hr]
            exact h1 (by omega)
        simp only [Scan.entry, hzn, beq_self_eq_true, if_true, hclaim, Bool.true_and,
          decide_eq_true_eq]
        split
        · exact ⟨fun _ => rfl, Nat.le_refl _, fun _ _ _ => Nat.succ_pos _⟩
        · rename_i hle
          exact ⟨fun _ => rfl, by simp only; omega, fun _ _ _ => by simp only; omega⟩
      · have hb : (snapshot.getD n 0 == 0) = false := by simpa using hzn
        simp only [Scan.entry, hb, Bool.false_eq_true, if_false]
        refine ⟨by simp, Nat.zero_le _, ?_⟩
        intro j hj hjz
        refine h3 j ?_ hjz
        rcases Nat.lt_succ_iff_lt_or_eq.mp hj with hlt | heq
        · exact hlt
        · exact absurd (heq ▸ hjz) hzn
  have hpos := (key snapshot.length).2.2 i hi hz
  rw [longestZeroRun_eq, if_neg (by omega)]
  exact ⟨_, rfl⟩

end FlorestaDb.Allocator
