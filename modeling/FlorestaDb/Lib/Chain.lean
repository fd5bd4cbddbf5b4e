import Mathlib.Data.List.Nodup
import Mathlib.Logic.Function.Basic

/-! Null-terminated chains over a successor function. The list of visited places is
explicit, so that an update of one place is an edit of the list. -/
namespace FlorestaDb.Chain

/-- From `o` the successor function visits exactly `l` and arrives at `stop`. -/
def IsSegment (next : Nat → Nat) (stop : Nat) : Nat → List Nat → Prop
  | o, [] => o = stop
  | o, x :: l => o = x ∧ x ≠ 0 ∧ IsSegment next stop (next x) l

def IsChain (next : Nat → Nat) (o : Nat) (l : List Nat) : Prop := IsSegment next 0 o l

variable {next next' : Nat → Nat} {o stop x y p : Nat} {l r : List Nat}

theorem isSegment_append :
    IsSegment next stop o (l ++ r) ↔ ∃ m, IsSegment next m o l ∧ IsSegment next stop m r := by
  induction l generalizing o with
  | nil => simp [IsSegment]
  | cons a l ih => simp only [List.cons_append, IsSegment, ih, exists_and_left, and_assoc]

theorem IsSegment.congr (h : IsSegment next stop o l) (heq : ∀ z ∈ l, next' z = next z) :
    IsSegment next' stop o l := by
  induction l generalizing o with
  | nil => exact h
  | cons a l ih =>
    obtain ⟨rfl, hne, h⟩ := h
    refine ⟨rfl, hne, ?_⟩
    rw [heq o List.mem_cons_self]
    exact ih h fun z hz => heq z (List.mem_cons_of_mem o hz)

theorem IsChain.congr (h : IsChain next o l) (heq : ∀ z ∈ l, next' z = next z) :
    IsChain next' o l :=
  IsSegment.congr h heq

theorem IsSegment.ne_zero (h : IsSegment next stop o l) : ∀ z ∈ l, z ≠ 0 := by
  induction l generalizing o with
  | nil => simp
  | cons a l ih =>
    obtain ⟨rfl, hne, h⟩ := h
    intro z hz
    rcases List.mem_cons.mp hz with rfl | hz
    · exact hne
    · exact ih h z hz

theorem IsChain.unique (h : IsChain next o l) (h' : IsChain next o r) : l = r := by
  induction l generalizing o r with
  | nil =>
    cases r with
    | nil => rfl
    | cons b r =>
      obtain ⟨rfl, hne, -⟩ := h'
      exact absurd h hne
  | cons a l ih =>
    obtain ⟨rfl, hne, h⟩ := h
    cases r with
    | nil => exact absurd h' hne
    | cons b r =>
      obtain ⟨rfl, -, h'⟩ := h'
      rw [ih h h']

/-- A place of the chain starts the rest of the chain. -/
theorem IsChain.split (h : IsChain next o (l ++ x :: r)) :
    IsSegment next x o l ∧ x ≠ 0 ∧ IsChain next (next x) r := by
  obtain ⟨m, h1, rfl, hne, h2⟩ := isSegment_append.mp h
  exact ⟨h1, hne, h2⟩

/-- A finite chain cannot come back to a place it has left. -/
theorem IsChain.nodup (h : IsChain next o l) : l.Nodup := by
  induction l generalizing o with
  | nil => exact List.nodup_nil
  | cons a l ih =>
    have hfull : IsChain next a (a :: l) := by
      obtain ⟨rfl, hne, h'⟩ := h
      exact ⟨rfl, hne, h'⟩
    obtain ⟨rfl, hne, h'⟩ := h
    refine List.nodup_cons.mpr ⟨?_, ih h'⟩
    intro hmem
    obtain ⟨l₁, l₂, rfl⟩ := List.append_of_mem hmem
    obtain ⟨-, -, hrest⟩ := IsChain.split h'
    have hagain : IsChain next o (o :: l₂) := ⟨rfl, hne, hrest⟩
    have hlen := congrArg List.length (hfull.unique hagain)
    simp at hlen
    omega

/-- A chain starts at its first place. -/
theorem IsChain.head_eq (h : IsChain next o l) : o = l.headD 0 := by
  cases l with
  | nil => exact h
  | cons a l => exact h.1

theorem isChain_append : IsChain next o (l ++ r) ↔
    IsSegment next (r.headD 0) o l ∧ IsChain next (r.headD 0) r := by
  constructor
  · intro h
    obtain ⟨m, h1, h2⟩ := isSegment_append.mp h
    have hm : m = r.headD 0 := IsChain.head_eq h2
    subst hm
    exact ⟨h1, h2⟩
  · rintro ⟨h1, h2⟩
    exact isSegment_append.mpr ⟨_, h1, h2⟩

/-- Redirecting the place `p`: after it the chain visits `w` instead of `mid`. -/
theorem IsChain.redirect {mid w : List Nat} (h : IsChain next o (l ++ p :: (mid ++ r)))
    (hw : IsSegment next (r.headD 0) y w) (hp : p ∉ w) :
    IsChain (Function.update next p y) o (l ++ p :: (w ++ r)) := by
  have hnd := h.nodup
  obtain ⟨h1, hne, h2⟩ := h.split
  have hr := (isChain_append.mp h2).2
  have hpl : p ∉ l := fun hm => (List.nodup_append.mp hnd).2.2 p hm p List.mem_cons_self rfl
  have hpr : p ∉ r := by
    have := (List.nodup_append.mp hnd).2.1
    exact fun hm => (List.nodup_cons.mp this).1 (List.mem_append_right mid hm)
  have hsame : ∀ z ∈ l ++ (w ++ r), Function.update next p y z = next z := by
    intro z hz
    refine Function.update_of_ne ?_ _ _
    rintro rfl
    simp only [List.mem_append] at hz
    rcases hz with hz | hz | hz
    · exact hpl hz
    · exact hp hz
    · exact hpr hz
  refine isSegment_append.mpr ⟨p, h1.congr fun z hz => hsame z (by simp [hz]), rfl, hne, ?_⟩
  rw [Function.update_self]
  exact isSegment_append.mpr ⟨r.headD 0, hw.congr fun z hz => hsame z (by simp [hz]),
    hr.congr fun z hz => hsame z (by simp [hz])⟩

end FlorestaDb.Chain
