import Mathlib.Order.Basic
import Mathlib.Order.Monotone.Defs
import Mathlib.Order.Nat

/-! Next-fit packing: items go behind one another into the open page, each at a rounded
start, and a page that has no room for an item is closed for good. No other way to cut the
same sequence into pages needs fewer of them. -/
namespace FlorestaDb.NextFit

variable {round : Nat → Nat} {size limit : Nat}

/-- The cursor after the items `l`, from the cursor `used`. -/
def filled (round : Nat → Nat) (used : Nat) (l : List Nat) : Nat :=
  l.foldl (fun used x => round used + x) used

/-- The items go into one empty page of `size` that takes at most `limit` of them. -/
structure Fits (round : Nat → Nat) (size limit : Nat) (l : List Nat) : Prop where
  filled_le : filled round 0 l ≤ size
  length_le : l.length ≤ limit

theorem filled_cons (used x : Nat) (l : List Nat) :
    filled round used (x :: l) = filled round (round used + x) l := rfl

theorem filled_append (used : Nat) (l r : List Nat) :
    filled round used (l ++ r) = filled round (filled round used l) r := List.foldl_append

theorem filled_mono (hmono : Monotone round) (l : List Nat) {used used' : Nat} (h : used ≤ used') :
    filled round used l ≤ filled round used' l := by
  induction l generalizing used used' with
  | nil => exact h
  | cons x l ih =>
    rw [filled_cons, filled_cons]
    apply ih
    have := hmono h
    omega

theorem le_filled (hle : ∀ used, used ≤ round used) (used : Nat) (l : List Nat) :
    used ≤ filled round used l := by
  induction l generalizing used with
  | nil => exact Nat.le_refl used
  | cons x l ih =>
    rw [filled_cons]
    have h1 := hle used
    have h2 := ih (round used + x)
    omega

/-- Any stretch of items that fit into a page fits into a page of its own. -/
theorem Fits.stretch (hmono : Monotone round) (hle : ∀ used, used ≤ round used) {l mid r : List Nat}
    (h : Fits round size limit (l ++ mid ++ r)) : Fits round size limit mid where
  filled_le := by
    have h1 := h.filled_le
    rw [filled_append, filled_append] at h1
    have h2 := le_filled hle (filled round (filled round 0 l) mid) r
    have h3 := filled_mono hmono mid (Nat.zero_le (filled round 0 l))
    omega
  length_le := by
    have h1 := h.length_le
    simp only [List.length_append] at h1
    omega

/-- Each of the pages was closed because the item after it did not fit; after the last page
that item is `x`. -/
def Greedy (round : Nat → Nat) (size limit : Nat) : List (List Nat) → Nat → Prop
  | [], _ => True
  | page :: pages, x =>
    ¬Fits round size limit (page ++ [pages.flatten.headD x]) ∧ Greedy round size limit pages x

theorem Greedy.append {pages : List (List Nat)} {y : Nat} {page : List Nat} {x : Nat}
    (h : Greedy round size limit pages y) (hclosed : ¬Fits round size limit (y :: page ++ [x])) :
    Greedy round size limit (pages ++ [y :: page]) x := by
  induction pages with
  | nil => exact ⟨hclosed, trivial⟩
  | cons q pages ih =>
    obtain ⟨h1, h2⟩ := h
    rw [List.cons_append]
    refine ⟨?_, ih h2⟩
    have hhead : (pages ++ [y :: page]).flatten.headD x = pages.flatten.headD y := by
      rw [List.flatten_append]
      cases pages.flatten with
      | nil => rfl
      | cons a l => rfl
    rw [hhead]
    exact h1

/-- Whoever has to place the items of the closed pages and `x` besides needs one page more. -/
theorem Greedy.length_lt (hmono : Monotone round) (hle : ∀ used, used ≤ round used)
    {pages others : List (List Nat)} {x : Nat} {before rest : List Nat}
    (h : Greedy round size limit pages x) (hfits : ∀ p ∈ others, Fits round size limit p)
    (heq : others.flatten = before ++ (pages.flatten ++ x :: rest)) :
    pages.length < others.length := by
  induction pages generalizing others before with
  | nil =>
    cases others with
    | nil => simp at heq
    | cons p others => simp
  | cons page pages ih =>
    obtain ⟨hclosed, hrest⟩ := h
    cases others with
    | nil => simp at heq
    | cons p others =>
      -- the first of the other pages cannot reach past the page that was closed
      have hnext : ∃ tail, pages.flatten ++ x :: rest = pages.flatten.headD x :: tail := by
        cases pages.flatten with
        | nil => exact ⟨rest, rfl⟩
        | cons a l => exact ⟨l ++ x :: rest, rfl⟩
      obtain ⟨tail, htail⟩ := hnext
      have hflat : p ++ others.flatten =
          (before ++ page) ++ (pages.flatten ++ x :: rest) := by
        rw [List.flatten_cons, List.flatten_cons] at heq
        rw [heq]
        simp [List.append_assoc]
      rcases List.append_eq_append_iff.mp hflat with ⟨left, hp, hothers⟩ | ⟨left, hp, hothers⟩
      · rw [List.length_cons, List.length_cons]
        exact Nat.succ_lt_succ (ih hrest (fun q hq => hfits q (List.mem_cons_of_mem p hq)) hothers)
      · cases left with
        | nil =>
          have hall : others.flatten = [] ++ (pages.flatten ++ x :: rest) := hothers.symm
          rw [List.length_cons, List.length_cons]
          exact Nat.succ_lt_succ (ih hrest (fun q hq => hfits q (List.mem_cons_of_mem p hq)) hall)
        | cons a left =>
          rw [htail] at hothers
          obtain ⟨rfl, -⟩ := List.cons.inj hothers
          have hfit := hfits p List.mem_cons_self
          rw [hp] at hfit
          have hsplit : before ++ page ++ pages.flatten.headD x :: left =
              before ++ (page ++ [pages.flatten.headD x]) ++ left := by
            simp [List.append_assoc]
          rw [hsplit] at hfit
          exact absurd (hfit.stretch hmono hle) hclosed

end FlorestaDb.NextFit
