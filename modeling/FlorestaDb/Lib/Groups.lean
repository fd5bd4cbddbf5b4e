import Mathlib.Data.List.SplitBy
import Mathlib.Data.List.Forall2

/-! Batches that are sorted by a class and their position, and the runs of one class that
a sorted batch falls into. -/
namespace FlorestaDb.Groups

variable {α β : Type}

/-- A class keeps its input order when sorting never inverts two of its elements. -/
theorem filter_mergeSort {l : List α} {le : α → α → Bool} {p : α → Bool} {position : α → Nat}
    (htrans : ∀ a b c, le a b = true → le b c = true → le a c = true)
    (htotal : ∀ a b, (le a b || le b a) = true)
    (hle : ∀ a b, p a = true → p b = true → le a b = true → position a ≤ position b)
    (hl : l.Pairwise fun a b => position a < position b) :
    (l.mergeSort le).filter p = l.filter p := by
  have hinj : ∀ a ∈ l, ∀ b ∈ l, position a = position b → a = b := by
    induction l with
    | nil => simp
    | cons x l ih =>
      obtain ⟨hx, hl⟩ := List.pairwise_cons.mp hl
      intro a ha b hb heq
      rcases List.mem_cons.mp ha with rfl | ha' <;> rcases List.mem_cons.mp hb with rfl | hb'
      · rfl
      · exact absurd heq (Nat.ne_of_lt (hx b hb'))
      · exact absurd heq.symm (Nat.ne_of_lt (hx a ha'))
      · exact ih hl a ha' b hb' heq
  have hanti : ∀ a b, a ∈ (l.mergeSort le).filter p → b ∈ l.filter p →
      position a ≤ position b → position b ≤ position a → a = b := by
    intro a b ha hb h1 h2
    have ha' : a ∈ l := by simpa using (List.mem_filter.mp ha).1
    exact hinj a ha' b (List.mem_filter.mp hb).1 (Nat.le_antisymm h1 h2)
  have hsorted : ((l.mergeSort le).filter p).Pairwise fun a b => position a ≤ position b := by
    refine ((List.pairwise_mergeSort htrans htotal l).filter p).imp_of_mem ?_
    intro a b ha hb hab
    exact hle a b (List.mem_filter.mp ha).2 (List.mem_filter.mp hb).2 hab
  have hinput : (l.filter p).Pairwise fun a b => position a ≤ position b :=
    (hl.filter p).imp fun h => Nat.le_of_lt h
  exact ((l.mergeSort_perm le).filter p).eq_of_pairwise hanti hsorted hinput

/-- A run of one class: every element has the class of the first. -/
theorem class_of_run {f : α → β} [DecidableEq β] {x : α} {l : List α}
    (h : List.IsChain (fun a b => decide (f a = f b) = true) (x :: l)) : ∀ y ∈ l, f y = f x := by
  induction l generalizing x with
  | nil => simp
  | cons z l ih =>
    obtain ⟨hxz, hl⟩ := List.isChain_cons_cons.mp h
    have hxz' : f x = f z := by simpa using hxz
    intro y hy
    rcases List.mem_cons.mp hy with rfl | hy
    · exact hxz'.symm
    · exact (ih hl y hy).trans hxz'.symm

/-- In a sorted batch the runs of a class cut by its order have different classes. -/
theorem class_ne_of_runs {f : α → β} [DecidableEq β] {R : α → α → Prop} {g : List α}
    {gs : List (List α)} (hne : ∀ g' ∈ g :: gs, g' ≠ [])
    (hrun : List.IsChain (fun a b => decide (f a = f b) = true) g)
    (hcut : List.IsChain (fun a b => ∃ ha hb,
      decide (f (a.getLast ha) = f (b.head hb)) = false) (g :: gs))
    (hsorted : (g :: gs).flatten.Pairwise R)
    (hconvex : ∀ a b c, R a b → R b c → f a = f c → f b = f a) :
    ∀ a ∈ g, ∀ c ∈ gs.flatten, f a ≠ f c := by
  intro a ha c hc heq
  cases gs with
  | nil => simp at hc
  | cons g' gs =>
    obtain ⟨⟨hg, hg', hcut⟩, -⟩ := List.isChain_cons_cons.mp hcut
    have hcut' : f (g.getLast hg) ≠ f (g'.head hg') := by simpa using hcut
    have hlast : f a = f (g.getLast hg) := by
      cases g with
      | nil => cases ha
      | cons x l =>
        have hx := class_of_run hrun
        have hall : ∀ y ∈ x :: l, f y = f x := by
          intro y hy
          rcases List.mem_cons.mp hy with rfl | hy
          · rfl
          · exact hx y hy
        exact (hall a ha).trans (hall _ (List.getLast_mem hg)).symm
    obtain ⟨-, hrest, hcross⟩ := List.pairwise_append.mp (List.flatten_cons ▸ hsorted)
    have hlast_mem := List.getLast_mem hg
    have h1 := hcross _ hlast_mem (g'.head hg')
      (by rw [List.flatten_cons]; exact List.mem_append_left _ (List.head_mem hg'))
    rw [List.flatten_cons] at hrest hc
    have hsplit : g' ++ gs.flatten = g'.head hg' :: (g'.tail ++ gs.flatten) := by
      rw [← List.cons_append, List.cons_head_tail]
    rw [hsplit] at hrest hc
    rcases List.mem_cons.mp hc with rfl | hc
    · exact hcut' (hlast.symm.trans heq)
    · have h2 := (List.pairwise_cons.mp hrest).1 c hc
      exact hcut' (hconvex _ _ _ h1 h2 (hlast.symm.trans heq)).symm

theorem go_flatten (n : Nat) (xs : List α) (acc : Array α) (chunks : Array (List α)) :
    (List.toChunks.go n xs acc chunks).flatten = chunks.toList.flatten ++ acc.toList ++ xs := by
  induction xs generalizing acc chunks with
  | nil => simp [List.toChunks.go]
  | cons x xs ih =>
    rw [List.toChunks.go]
    split
    · rw [ih]
      simp
    · rw [ih]
      simp

/-- Cutting a list into chunks loses nothing. -/
theorem toChunks_flatten (n : Nat) (xs : List α) : (xs.toChunks n).flatten = xs := by
  cases xs with
  | nil => cases n <;> rfl
  | cons x xs =>
    cases n with
    | zero => simp [List.toChunks]
    | succ n =>
      rw [List.toChunks, go_flatten]
      · simp
      · simp

end FlorestaDb.Groups
