import Mathlib.Data.List.Sort
import Mathlib.Tactic.Common

/-! Merging sorted sources through a queue that holds the next value of each. -/
namespace FlorestaDb.Merge

variable {α : Type} {queue : List (α × Nat)} {sources : List (List α)}

section Pending

/-- The values still to come. -/
def pending (queue : List (α × Nat)) (sources : List (List α)) : List α :=
  queue.map Prod.fst ++ sources.flatten

theorem pending_length :
    (pending queue sources).length = queue.length + sources.flatten.length := by
  rw [pending, List.length_append, List.length_map]

theorem flatten_set_perm {i : Nat} {x : α} {rest : List α} (h : sources[i]? = some (x :: rest)) :
    (x :: (sources.set i rest).flatten).Perm sources.flatten := by
  induction sources generalizing i with
  | nil => simp at h
  | cons source sources ih =>
    cases i with
    | zero =>
      obtain rfl : source = x :: rest := by simpa using h
      exact .refl _
    | succ i =>
      have htail := ih (i := i) (by simpa using h)
      exact List.perm_middle.symm.trans (htail.append_left source)

theorem getElem?_of_getD {i : Nat} {x : α} {rest : List α} (h : sources.getD i [] = x :: rest) :
    sources[i]? = some (x :: rest) := by
  rw [List.getD_eq_getElem?_getD] at h
  cases hs : sources[i]? with
  | none => simp [hs] at h
  | some source =>
    rw [hs, Option.getD_some] at h
    rw [h]

end Pending

variable [LE α]

/-- The order of the queue: by value, then by source. -/
def Before (a b : α × Nat) : Prop := a.1 ≤ b.1 ∧ (a.1 = b.1 → a.2 ≤ b.2)

/- The queue is in order, and what is left in a source comes behind an entry of that source. -/
structure Led (queue : List (α × Nat)) (sources : List (List α)) : Prop where
  ordered : queue.Pairwise Before
  sorted : ∀ source ∈ sources, source.Pairwise (· ≤ ·)
  led : ∀ i source, sources[i]? = some source → ∀ x ∈ source, ∃ value, (value, i) ∈ queue ∧ value ≤ x

theorem Led.drained (h : Led [] sources) : sources.flatten = [] := by
  rw [List.eq_nil_iff_forall_not_mem]
  intro x hx
  obtain ⟨source, hsource, hx⟩ := List.mem_flatten.mp hx
  obtain ⟨j, hj⟩ := List.mem_iff_getElem?.mp hsource
  obtain ⟨first, hfirst, -⟩ := h.led j source hj x hx
  cases hfirst

/-- The source of the popped entry is empty. -/
theorem Led.pop {value : α} {i : Nat} (h : Led ((value, i) :: queue) sources)
    (hempty : sources.getD i [] = []) : Led queue sources := by
  refine ⟨(List.pairwise_cons.mp h.ordered).2, h.sorted, ?_⟩
  intro j source hj x hx
  obtain ⟨first, hfirst, hle⟩ := h.led j source hj x hx
  cases List.mem_cons.mp hfirst with
  | inl heq =>
    obtain ⟨-, rfl⟩ := Prod.mk.inj heq
    rw [List.getD_eq_getElem?_getD, hj, Option.getD_some] at hempty
    rw [hempty] at hx
    cases hx
  | inr hmem => exact ⟨first, hmem, hle⟩

/-- The head of the queue is the least of what is still to come. -/
theorem Led.least [Std.IsLinearOrder α] {value : α} {i : Nat}
    (h : Led ((value, i) :: queue) sources) : ∀ x ∈ pending queue sources, value ≤ x := by
  have hqueue : ∀ a ∈ queue, value ≤ a.1 := by
    intro a ha
    exact ((List.pairwise_cons.mp h.ordered).1 a ha).1
  intro x hx
  cases List.mem_append.mp hx with
  | inl hx =>
    obtain ⟨a, ha, rfl⟩ := List.mem_map.mp hx
    exact hqueue a ha
  | inr hx =>
    obtain ⟨source, hsource, hx⟩ := List.mem_flatten.mp hx
    obtain ⟨j, hj⟩ := List.mem_iff_getElem?.mp hsource
    obtain ⟨first, hfirst, hle⟩ := h.led j source hj x hx
    cases List.mem_cons.mp hfirst with
    | inl heq =>
      obtain ⟨rfl, rfl⟩ := Prod.mk.inj heq
      exact hle
    | inr hmem => exact Std.IsPreorder.le_trans _ _ _ (hqueue _ hmem) hle

section Queue
variable [DecidableEq α] [DecidableLE α]

instance : DecidableRel (Before : α × Nat → α × Nat → Prop) :=
  fun a b => inferInstanceAs (Decidable (a.1 ≤ b.1 ∧ (a.1 = b.1 → a.2 ≤ b.2)))

def push (a : α × Nat) (queue : List (α × Nat)) : List (α × Nat) := queue.orderedInsert Before a

/-- Take the least value off the queue and refill the queue from its source. -/
def merge : Nat → List (α × Nat) → List (List α) → List α
  | 0, _, _ => []
  | _ + 1, [], _ => []
  | n + 1, (value, i) :: queue, sources =>
    value :: match sources.getD i [] with
      | [] => merge n queue sources
      | next :: rest => merge n (push (next, i) queue) (sources.set i rest)

def enqueue (source : List α) (i : Nat) (queue : List (α × Nat)) : List (α × Nat) :=
  match source with
  | [] => queue
  | value :: _ => push (value, i) queue

/-- The first value of each source, from the source `i` on. -/
def seed : Nat → List (List α) → List (α × Nat) → List (α × Nat)
  | _, [], queue => queue
  | i, source :: sources, queue => seed (i + 1) sources (enqueue source i queue)

theorem pending_push (a : α × Nat) (queue : List (α × Nat)) (sources : List (List α)) :
    (pending (push a queue) sources).Perm (a.1 :: pending queue sources) :=
  ((List.perm_orderedInsert Before a queue).map Prod.fst).append_right _

theorem pending_refill {next : α} {rest : List α} {i : Nat}
    (hsource : sources[i]? = some (next :: rest)) :
    (pending (push (next, i) queue) (sources.set i rest)).Perm (pending queue sources) := by
  refine (pending_push _ _ _).trans ?_
  refine List.perm_middle.symm.trans ?_
  exact (flatten_set_perm hsource).append_left _

theorem seed_pending (i : Nat) (sources : List (List α)) (queue : List (α × Nat)) :
    (pending (seed i sources queue) (sources.map List.tail)).Perm (pending queue sources) := by
  induction sources generalizing i queue with
  | nil => exact .refl _
  | cons source sources ih =>
    cases source with
    | nil => exact ih (i + 1) queue
    | cons value rest =>
      have htail := (ih (i + 1) (push (value, i) queue)).trans (pending_push (value, i) queue sources)
      rw [List.perm_iff_count] at htail ⊢
      intro x
      have hx := htail x
      simp only [pending, seed, enqueue, List.map_cons, List.tail_cons, List.flatten_cons, List.count_append,
        List.count_cons] at hx ⊢
      omega

theorem mem_enqueue {source : List α} {i : Nat} {a : α × Nat} :
    a ∈ enqueue source i queue ↔ a ∈ queue ∨ a.2 = i ∧ source.head? = some a.1 := by
  cases source with
  | nil => simp [enqueue]
  | cons value rest =>
    rw [enqueue, push, List.mem_orderedInsert, Prod.ext_iff, List.head?_cons, Option.some_inj]
    grind

/-- The queue holds what it held, and the head of each source under its number. -/
theorem mem_seed {i : Nat} {a : α × Nat} :
    a ∈ seed i sources queue ↔ a ∈ queue ∨
      ∃ k source, sources[k]? = some source ∧ a.2 = i + k ∧ source.head? = some a.1 := by
  induction sources generalizing i queue with
  | nil => simp [seed]
  | cons source sources ih =>
    rw [seed, ih, mem_enqueue, or_assoc]
    refine or_congr_right ?_
    constructor
    · intro h
      cases h with
      | inl h => exact ⟨0, source, rfl, h⟩
      | inr h =>
        obtain ⟨k, other, hk, ha, hhead⟩ := h
        exact ⟨k + 1, other, hk, by omega, hhead⟩
    · rintro ⟨k, other, hk, ha, hhead⟩
      cases k with
      | zero =>
        obtain rfl : source = other := by simpa using hk
        exact Or.inl ⟨ha, hhead⟩
      | succ k => exact Or.inr ⟨k, other, hk, by omega, hhead⟩

theorem seed_lt {a : α × Nat} (ha : a ∈ seed 0 sources []) : a.2 < sources.length := by
  rw [mem_seed] at ha
  cases ha with
  | inl h => cases h
  | inr h =>
    obtain ⟨k, source, hk, ha, -⟩ := h
    have hlt := (List.getElem?_eq_some_iff.mp hk).1
    omega

variable [Std.IsLinearOrder α]

instance : Std.Total (Before : α × Nat → α × Nat → Prop) := by
  refine ⟨?_⟩
  intro a b
  simp only [Before]
  grind

instance : IsTrans (α × Nat) Before := by
  refine ⟨?_⟩
  intro a b c hab hbc
  simp only [Before] at hab hbc ⊢
  grind

theorem seed_ordered (i : Nat) (sources : List (List α)) (h : queue.Pairwise Before) :
    (seed i sources queue).Pairwise Before := by
  induction sources generalizing i queue with
  | nil => exact h
  | cons source sources ih =>
    cases source with
    | nil => exact ih (i + 1) h
    | cons value rest => exact ih (i + 1) (h.orderedInsert _ _)

/-- A queue seeded with the heads of sorted sources leads their tails. -/
theorem led_seed (h : ∀ source ∈ sources, source.Pairwise (· ≤ ·)) :
    Led (seed 0 sources []) (sources.map List.tail) := by
  refine ⟨seed_ordered 0 sources .nil, ?_, ?_⟩
  · intro source hmem
    obtain ⟨whole, hwhole, rfl⟩ := List.mem_map.mp hmem
    exact (h whole hwhole).tail
  · intro j source hj x hx
    rw [List.getElem?_map, Option.map_eq_some_iff] at hj
    obtain ⟨whole, hwhole, rfl⟩ := hj
    cases whole with
    | nil => cases hx
    | cons value rest =>
      have hsorted := h _ (List.mem_of_getElem? hwhole)
      refine ⟨value, ?_, (List.pairwise_cons.mp hsorted).1 x hx⟩
      exact mem_seed.mpr (Or.inr ⟨j, _, hwhole, (Nat.zero_add j).symm, rfl⟩)

/-- The source of the popped entry has another value. -/
theorem Led.refill {value next : α} {rest : List α} {i : Nat}
    (h : Led ((value, i) :: queue) sources) (hsource : sources[i]? = some (next :: rest)) :
    Led (push (next, i) queue) (sources.set i rest) := by
  have hi : i < sources.length := (List.getElem?_eq_some_iff.mp hsource).1
  have hsorted := h.sorted _ (List.mem_of_getElem? hsource)
  refine ⟨(List.pairwise_cons.mp h.ordered).2.orderedInsert _ _, ?_, ?_⟩
  · intro source hmem
    cases List.mem_or_eq_of_mem_set hmem with
    | inl hmem => exact h.sorted source hmem
    | inr heq =>
      rw [heq]
      exact (List.pairwise_cons.mp hsorted).2
  · intro j source hj x hx
    by_cases hij : i = j
    · subst hij
      rw [List.getElem?_set_self hi] at hj
      obtain rfl := Option.some.inj hj
      exact ⟨next, (List.mem_orderedInsert _).mpr (Or.inl rfl),
        (List.pairwise_cons.mp hsorted).1 x hx⟩
    · rw [List.getElem?_set_ne hij] at hj
      obtain ⟨first, hfirst, hle⟩ := h.led j source hj x hx
      cases List.mem_cons.mp hfirst with
      | inl heq =>
        obtain ⟨-, rfl⟩ := Prod.mk.inj heq
        exact absurd rfl hij
      | inr hmem => exact ⟨first, (List.mem_orderedInsert _).mpr (Or.inr hmem), hle⟩

/-- The induction is on the number of values to come: each round writes the least of them. -/
theorem merge_spec {n : Nat} (h : Led queue sources) (hn : (pending queue sources).length ≤ n) :
    (merge n queue sources).Pairwise (· ≤ ·) ∧
      (merge n queue sources).Perm (pending queue sources) := by
  induction n generalizing queue sources with
  | zero =>
    have hnil := List.length_eq_zero_iff.mp (Nat.le_zero.mp hn)
    rw [hnil]
    exact ⟨.nil, .refl _⟩
  | succ n ih =>
    cases queue with
    | nil =>
      rw [pending, h.drained]
      exact ⟨.nil, .refl _⟩
    | cons entry queue =>
      obtain ⟨value, i⟩ := entry
      have hlength : (pending queue sources).length ≤ n := by
        rw [pending_length] at hn ⊢
        rw [List.length_cons] at hn
        omega
      rw [merge]
      cases hsource : sources.getD i [] with
      | nil =>
        obtain ⟨hsorted, hperm⟩ := ih (h.pop hsource) hlength
        refine ⟨List.pairwise_cons.mpr ⟨?_, hsorted⟩, hperm.cons value⟩
        intro x hx
        exact h.least x (hperm.mem_iff.mp hx)
      | cons next rest =>
        have hget := getElem?_of_getD hsource
        have hrefill : (pending (push (next, i) queue) (sources.set i rest)).Perm
            (pending queue sources) := pending_refill hget
        obtain ⟨hsorted, hperm⟩ := ih (h.refill hget) (hrefill.length_eq ▸ hlength)
        have hall := hperm.trans hrefill
        refine ⟨List.pairwise_cons.mpr ⟨?_, hsorted⟩, hall.cons value⟩
        intro x hx
        exact h.least x (hall.mem_iff.mp hx)

end Queue

end FlorestaDb.Merge
