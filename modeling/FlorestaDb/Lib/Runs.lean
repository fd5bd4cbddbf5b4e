import Mathlib.Tactic.Common

/-! Maximal runs of a property among the first places of a sequence, and the longest of those
whose start is admitted, as the sequence grows by one place. -/
namespace FlorestaDb.Runs

variable {P ok : Nat → Prop} {n s l s' l' : Nat}

/-- `l` places from `s` on have the property, and no longer stretch around them has it. -/
structure IsRun (P : Nat → Prop) (n s l : Nat) : Prop where
  pos : 0 < l
  le : s + l ≤ n
  inside : ∀ i, s ≤ i → i < s + l → P i
  left : s = 0 ∨ ¬P (s - 1)
  right : s + l = n ∨ ¬P (s + l)

/-- The run that reaches the last place, or that there is none. -/
inductive IsTail (P : Nat → Prop) (n s l : Nat) : Prop where
  | none (empty : l = 0) (last : n = 0 ∨ ¬P (n - 1))
  | run (run : IsRun P n s l) (last : s + l = n)

/-- No run with an admitted start is longer, and none as long is earlier. -/
structure IsBest (P ok : Nat → Prop) (n s l : Nat) : Prop where
  run : IsRun P n s l
  admitted : ok s
  best : ∀ s' l', IsRun P n s' l' → ok s' → l' < l ∨ l' = l ∧ s ≤ s'

theorem IsRun.congr {Q : Nat → Prop} (h : IsRun P n s l) (heq : ∀ i < n, P i ↔ Q i) :
    IsRun Q n s l where
  pos := h.pos
  le := h.le
  inside := by
    intro i h1 h2
    have hle := h.le
    exact (heq i (by omega)).mp (h.inside i h1 h2)
  left := by
    have hpos := h.pos
    have hle := h.le
    cases h.left with
    | inl hzero => exact Or.inl hzero
    | inr hnot => exact Or.inr fun hq => hnot ((heq _ (by omega)).mpr hq)
  right := by
    have hle := h.le
    by_cases hend : s + l = n
    · exact Or.inl hend
    · exact Or.inr fun hq => h.right.resolve_left hend ((heq _ (by omega)).mpr hq)

theorem isRun_congr {Q : Nat → Prop} (heq : ∀ i < n, P i ↔ Q i) : IsRun P n s l ↔ IsRun Q n s l :=
  ⟨fun h => h.congr heq, fun h => h.congr fun i hi => (heq i hi).symm⟩

/-- Two runs that end at the same place are the same. -/
theorem IsRun.unique (h : IsRun P n s l) (h' : IsRun P n s' l') (hend : s + l = s' + l') :
    s = s' ∧ l = l' := by
  -- the start of one run cannot lie inside the other
  have hnot : ∀ {a b c d : Nat}, IsRun P n a b → IsRun P n c d → a + b = c + d → ¬a < c := by
    intro a b c d hab hcd heq hlt
    have hpos := hcd.pos
    have hin := hab.inside (c - 1) (by omega) (by omega)
    cases hcd.left with
    | inl hzero => omega
    | inr hout => exact hout hin
  have h1 := hnot h h' hend
  have h2 := hnot h' h hend.symm
  omega

/-- A run that ended in front of a place without the property is a run still. -/
theorem isRun_succ_of_not (hn : ¬P n) : IsRun P (n + 1) s l ↔ IsRun P n s l := by
  constructor
  · intro h
    have hpos := h.pos
    have hle := h.le
    have hlt : s + l ≠ n + 1 := by
      intro heq
      exact hn (h.inside n (by omega) (by omega))
    refine ⟨hpos, by omega, h.inside, h.left, ?_⟩
    by_cases hend : s + l = n
    · exact Or.inl hend
    · exact Or.inr (h.right.resolve_left (by omega))
  · intro h
    have hle := h.le
    refine ⟨h.pos, by omega, h.inside, h.left, Or.inr ?_⟩
    by_cases hend : s + l = n
    · rw [hend]
      exact hn
    · exact h.right.resolve_left hend

/-- A run that ended earlier is not changed by one place more. -/
theorem isRun_succ_of_lt (hlt : s + l < n) : IsRun P (n + 1) s l ↔ IsRun P n s l := by
  constructor
  · intro h
    exact ⟨h.pos, by omega, h.inside, h.left, Or.inr (h.right.resolve_left (by omega))⟩
  · intro h
    exact ⟨h.pos, by omega, h.inside, h.left, Or.inr (h.right.resolve_left (by omega))⟩

/-- Where the last place has the property, a run reaches it or ended earlier. -/
theorem IsRun.of_succ (h : IsRun P (n + 1) s l) (hn : P n) (hend : s + l ≠ n + 1) :
    s + l < n ∧ IsRun P n s l := by
  have hle := h.le
  have hlt : s + l < n := by
    cases h.right with
    | inl heq => exact absurd heq hend
    | inr hout =>
      have hne : s + l ≠ n := fun heq => hout (heq ▸ hn)
      omega
  exact ⟨hlt, (isRun_succ_of_lt hlt).mp h⟩

theorem IsRun.extend (h : IsRun P n s l) (hend : s + l = n) (hn : P n) : IsRun P (n + 1) s (l + 1) where
  pos := Nat.succ_pos l
  le := by omega
  inside := by
    intro i h1 h2
    by_cases hi : i = n
    · rw [hi]
      exact hn
    · exact h.inside i h1 (by omega)
  left := h.left
  right := Or.inl (by omega)

/-- The last run goes on, or a new one starts. -/
theorem IsTail.extend (h : IsTail P n s l) (hn : P n) :
    IsRun P (n + 1) (if l = 0 then n else s) (l + 1) ∧
      (if l = 0 then n else s) + (l + 1) = n + 1 := by
  cases h with
  | none hempty hlast =>
    subst hempty
    rw [if_pos rfl]
    refine ⟨⟨Nat.one_pos, Nat.le_refl _, ?_, hlast, Or.inl rfl⟩, rfl⟩
    intro i h1 h2
    rw [show i = n by omega]
    exact hn
  | run hrun hlast =>
    have hpos := hrun.pos
    rw [if_neg (by omega)]
    exact ⟨hrun.extend hlast hn, by omega⟩

/-- The run that reaches the last place becomes the best one. -/
theorem isBest_of_last (hrun : IsRun P (n + 1) s l) (hend : s + l = n + 1) (hok : ok s)
    (hold : ∀ s' l', IsRun P n s' l' → ok s' → l' < l) : IsBest P ok (n + 1) s l := by
  have hpos := hrun.pos
  have hn : P n := hrun.inside n (by omega) (by omega)
  refine ⟨hrun, hok, ?_⟩
  intro s' l' h' hok'
  by_cases hend' : s' + l' = n + 1
  · obtain ⟨rfl, rfl⟩ := hrun.unique h' (hend.trans hend'.symm)
    exact Or.inr ⟨rfl, Nat.le_refl _⟩
  · exact Or.inl (hold s' l' (h'.of_succ hn hend').2 hok')

/-- The best run stays the best one beside the run that reaches the last place. -/
theorem IsBest.keep (h : IsBest P ok n s l) (hrun : IsRun P (n + 1) s' l') (hend : s' + l' = n + 1)
    (hle : ok s' → l' ≤ l) : IsBest P ok (n + 1) s l := by
  have hpos := hrun.pos
  have hn : P n := hrun.inside n (by omega) (by omega)
  have hlt : s + l < n := by
    have hbound := h.run.le
    by_contra hnot
    obtain ⟨rfl, rfl⟩ := (h.run.extend (by omega) hn).unique hrun (by omega)
    have := hle h.admitted
    omega
  refine ⟨(isRun_succ_of_lt hlt).mpr h.run, h.admitted, ?_⟩
  intro a b hab hok
  by_cases hend' : a + b = n + 1
  · obtain ⟨rfl, rfl⟩ := hrun.unique hab (hend.trans hend'.symm)
    have := hle hok
    by_cases hbl : l' < l
    · exact Or.inl hbl
    · exact Or.inr ⟨by omega, by omega⟩
  · exact h.best a b (hab.of_succ hn hend').2 hok

theorem IsBest.congr {Q ok' : Nat → Prop} (h : IsBest P ok n s l) (heq : ∀ i < n, P i ↔ Q i)
    (hok : ∀ i < n, ok i ↔ ok' i) : IsBest Q ok' n s l where
  run := h.run.congr heq
  admitted := by
    have hpos := h.run.pos
    have hle := h.run.le
    exact (hok s (by omega)).mp h.admitted
  best := by
    intro s' l' hrun hadmitted
    have hpos := hrun.pos
    have hle := hrun.le
    exact h.best s' l' ((isRun_congr heq).mpr hrun) ((hok s' (by omega)).mpr hadmitted)

theorem isBest_congr {Q ok' : Nat → Prop} (heq : ∀ i < n, P i ↔ Q i)
    (hok : ∀ i < n, ok i ↔ ok' i) : IsBest P ok n s l ↔ IsBest Q ok' n s l :=
  ⟨fun h => h.congr heq hok,
    fun h => h.congr (fun i hi => (heq i hi).symm) fun i hi => (hok i hi).symm⟩

/-- The best run is determined. -/
theorem IsBest.unique (h : IsBest P ok n s l) (h' : IsBest P ok n s' l') : s = s' := by
  have h1 := h.best s' l' h'.run h'.admitted
  have h2 := h'.best s l h.run h.admitted
  omega

end FlorestaDb.Runs
