import Mathlib.Data.List.Basic
import Mathlib.Logic.Function.Basic

/-! Tables of buckets that hold keyed entries, newest first. A key may occur more than
once: its entries, in order, are the stack of the key. -/
namespace FlorestaDb.Buckets

variable {K V : Type} [DecidableEq K]

/-- The values of `k` in a list of entries, newest first. -/
def values (l : List (K × V)) (k : K) : List V := (l.filter (·.1 = k)).map (·.2)

@[simp] theorem values_nil (k : K) : values ([] : List (K × V)) k = [] := rfl

theorem values_cons (e : K × V) (l : List (K × V)) (k : K) :
    values (e :: l) k = if e.1 = k then e.2 :: values l k else values l k := by
  by_cases h : e.1 = k <;> simp [values, h]

theorem values_append (l r : List (K × V)) (k : K) :
    values (l ++ r) k = values l k ++ values r k := by
  simp [values]

theorem values_reverse (l : List (K × V)) (k : K) : values l.reverse k = (values l k).reverse := by
  simp [values]

theorem values_eq_nil {l : List (K × V)} {k : K} (h : ∀ e ∈ l, e.1 ≠ k) : values l k = [] := by
  simpa [values, List.filter_eq_nil_iff] using h

/-- Erasing the first entry of `k` takes the newest value off its stack. -/
theorem values_eraseP (l : List (K × V)) (k k' : K) :
    values (l.eraseP (·.1 = k)) k' = if k' = k then (values l k).tail else values l k' := by
  induction l with
  | nil => by_cases h : k' = k <;> simp [h]
  | cons e l ih =>
    by_cases he : e.1 = k
    · rw [List.eraseP_cons_of_pos (by simpa using he), values_cons, if_pos he, List.tail_cons]
      by_cases hk : k' = k
      · rw [if_pos hk, hk]
      · have hek : ¬e.1 = k' := fun h => hk (h.symm.trans he)
        rw [if_neg hk, values_cons, if_neg hek]
    · rw [List.eraseP_cons_of_neg (by simpa using he), values_cons, ih]
      by_cases hk : k' = k
      · subst hk
        rw [if_pos rfl, if_neg he, if_pos rfl, values_cons, if_neg he]
      · rw [if_neg hk, if_neg hk, values_cons]

theorem find_values (l : List (K × V)) (k : K) :
    (l.find? (·.1 = k)).map (·.2) = (values l k).head? := by
  induction l with
  | nil => rfl
  | cons e l ih =>
    by_cases he : e.1 = k
    · rw [List.find?_cons_of_pos (by simpa using he), values_cons, if_pos he]
      rfl
    · rw [List.find?_cons_of_neg (by simpa using he), values_cons, if_neg he]
      exact ih

variable (bucket : K → Nat)

def push (T : Nat → List (K × V)) (k : K) (v : V) : Nat → List (K × V) :=
  Function.update T (bucket k) ((k, v) :: T (bucket k))

def drop (T : Nat → List (K × V)) (k : K) : Nat → List (K × V) :=
  Function.update T (bucket k) ((T (bucket k)).eraseP (·.1 = k))

def stack (T : Nat → List (K × V)) (k : K) : List V := values (T (bucket k)) k

variable {bucket} {T : Nat → List (K × V)} {k k' : K} {v : V}

theorem stack_push :
    stack bucket (push bucket T k v) k' =
      if k' = k then v :: stack bucket T k else stack bucket T k' := by
  rw [stack, push]
  by_cases hb : bucket k' = bucket k
  · rw [hb, Function.update_self, values_cons]
    by_cases hk : k' = k
    · subst hk
      rw [if_pos rfl, if_pos rfl]
      rfl
    · rw [if_neg (fun h => hk h.symm), if_neg hk, stack, hb]
  · have hk : ¬k' = k := fun h => hb (congrArg bucket h)
    rw [Function.update_of_ne hb, if_neg hk]
    rfl

theorem stack_drop :
    stack bucket (drop bucket T k) k' =
      if k' = k then (stack bucket T k).tail else stack bucket T k' := by
  rw [stack, drop]
  by_cases hb : bucket k' = bucket k
  · rw [hb, Function.update_self, values_eraseP, stack, stack, hb]
  · have hk : ¬k' = k := fun h => hb (congrArg bucket h)
    rw [Function.update_of_ne hb, if_neg hk]
    rfl

/-- Entries pushed one after the other, the first of `l` first. -/
def pushAll (bucket : K → Nat) (T : Nat → List (K × V)) (l : List (K × V)) : Nat → List (K × V) :=
  l.foldl (fun T e => push bucket T e.1 e.2) T

omit [DecidableEq K] in
theorem pushAll_singleton (e : K × V) : pushAll bucket T [e] = push bucket T e.1 e.2 := rfl

omit [DecidableEq K] in
theorem pushAll_append (l r : List (K × V)) :
    pushAll bucket T (l ++ r) = pushAll bucket (pushAll bucket T l) r := List.foldl_append

omit [DecidableEq K] in
theorem pushAll_apply (l : List (K × V)) (b : Nat) :
    pushAll bucket T l b = (l.filter fun e => bucket e.1 = b).reverse ++ T b := by
  induction l generalizing T with
  | nil => rfl
  | cons e l ih =>
    have hstep : pushAll bucket T (e :: l) = pushAll bucket (push bucket T e.1 e.2) l := rfl
    rw [hstep, ih, push]
    by_cases hb : bucket e.1 = b
    · subst hb
      simp
    · have hne : b ≠ bucket e.1 := fun h => hb h.symm
      simp [hb, hne]

omit [DecidableEq K] in
/-- Entries of one bucket come in together. -/
theorem pushAll_bucket {l : List (K × V)} {b : Nat} (h : ∀ e ∈ l, bucket e.1 = b) :
    pushAll bucket T l = Function.update T b (l.reverse ++ T b) := by
  funext b'
  rw [pushAll_apply]
  by_cases hb : b' = b
  · subst hb
    rw [Function.update_self, List.filter_eq_self.mpr (by simpa using h)]
  · have hnone : (l.filter fun e => bucket e.1 = b') = [] := by
      refine List.filter_eq_nil_iff.mpr fun e he => ?_
      simpa [h e he] using fun heq => hb heq.symm
    rw [Function.update_of_ne hb, hnone]
    rfl

omit [DecidableEq K] in
/-- Only the order inside each bucket matters. -/
theorem pushAll_congr {l r : List (K × V)}
    (h : ∀ b, (l.filter fun e => bucket e.1 = b) = r.filter fun e => bucket e.1 = b) :
    pushAll bucket T l = pushAll bucket T r := by
  funext b
  rw [pushAll_apply, pushAll_apply, h]

/-- Keys dropped one after the other. -/
def dropAll (bucket : K → Nat) (T : Nat → List (K × V)) (keys : List K) : Nat → List (K × V) :=
  keys.foldl (drop bucket) T

theorem dropAll_concat (keys : List K) (k : K) :
    dropAll bucket T (keys ++ [k]) = drop bucket (dropAll bucket T keys) k := by
  rw [dropAll, List.foldl_append]
  rfl

/-- Each of the keys has lost its newest value. -/
theorem stack_dropAll {keys : List K} (h : keys.Nodup) :
    stack bucket (dropAll bucket T keys) k =
      if k ∈ keys then (stack bucket T k).tail else stack bucket T k := by
  induction keys generalizing T with
  | nil => rfl
  | cons key keys ih =>
    obtain ⟨hkey, hkeys⟩ := List.nodup_cons.mp h
    have hstep : dropAll bucket T (key :: keys) = dropAll bucket (drop bucket T key) keys := rfl
    rw [hstep, ih hkeys, stack_drop]
    by_cases hk : k = key
    · subst hk
      rw [if_neg hkey, if_pos rfl, if_pos List.mem_cons_self]
    · rw [if_neg hk]
      by_cases hmem : k ∈ keys
      · rw [if_pos hmem, if_pos (List.mem_cons_of_mem _ hmem)]
      · have hnot : k ∉ key :: keys := by
          simp [hk, hmem]
        rw [if_neg hmem, if_neg hnot]

/-- Dropping a key that is not there changes nothing. -/
theorem drop_of_absent (h : ∀ e ∈ T (bucket k), e.1 ≠ k) : drop bucket T k = T := by
  rw [drop, List.eraseP_of_forall_not (by simpa using h), Function.update_eq_self]

/-- The newest entry of every key. -/
def firsts : List (K × V) → List (K × V)
  | [] => []
  | e :: l => e :: (firsts l).filter (·.1 ≠ e.1)

/-- An older entry counts if its key has no newer one. -/
theorem firsts_concat (l : List (K × V)) (e : K × V) :
    firsts (l ++ [e]) = if ∃ x ∈ l, x.1 = e.1 then firsts l else firsts l ++ [e] := by
  induction l with
  | nil => simp [firsts]
  | cons a l ih =>
    rw [List.cons_append, firsts, ih, firsts]
    by_cases hl : ∃ x ∈ l, x.1 = e.1
    · have hal : ∃ x ∈ a :: l, x.1 = e.1 := by
        obtain ⟨x, hx, hkey⟩ := hl
        exact ⟨x, List.mem_cons_of_mem a hx, hkey⟩
      rw [if_pos hl, if_pos hal]
    · rw [if_neg hl, List.filter_append]
      by_cases ha : a.1 = e.1
      · have hal : ∃ x ∈ a :: l, x.1 = e.1 := ⟨a, List.mem_cons_self, ha⟩
        rw [if_pos hal]
        simp [ha]
      · have hal : ¬∃ x ∈ a :: l, x.1 = e.1 := by
          simp only [List.mem_cons, exists_eq_or_imp, not_or]
          exact ⟨ha, hl⟩
        have hea : ¬e.1 = a.1 := fun h => ha h.symm
        rw [if_neg hal]
        simp [hea]

theorem mem_firsts_key {l : List (K × V)} : (∃ x ∈ firsts l, x.1 = k) ↔ ∃ x ∈ l, x.1 = k := by
  induction l with
  | nil => simp [firsts]
  | cons e l ih =>
    simp only [firsts, List.mem_cons, exists_eq_or_imp, ← ih, List.mem_filter, decide_eq_true_eq]
    by_cases he : e.1 = k
    · simp [he]
    · simp only [he, false_or]
      constructor
      · intro h
        obtain ⟨x, hx, hkey⟩ := h
        exact ⟨x, hx.1, hkey⟩
      · intro h
        obtain ⟨x, hx, hkey⟩ := h
        exact ⟨x, ⟨hx, fun heq => he (heq.symm.trans hkey)⟩, hkey⟩

theorem firsts_distinct (l : List (K × V)) : (firsts l).Pairwise fun x y => x.1 ≠ y.1 := by
  induction l with
  | nil => exact List.Pairwise.nil
  | cons e l ih =>
    rw [firsts, List.pairwise_cons]
    refine ⟨?_, ih.filter _⟩
    intro x hx heq
    exact of_decide_eq_true (List.mem_filter.mp hx).2 heq.symm

theorem firsts_length_le (l : List (K × V)) : (firsts l).length ≤ l.length := by
  induction l with
  | nil => exact Nat.le_refl _
  | cons e l ih =>
    have hfilter := List.length_filter_le (fun x => x.1 ≠ e.1) (firsts l)
    rw [firsts, List.length_cons, List.length_cons]
    omega

/-- Of each stack the newest value is left. -/
theorem values_firsts (l : List (K × V)) (k : K) : values (firsts l) k = (values l k).take 1 := by
  induction l with
  | nil => rfl
  | cons e l ih =>
    rw [firsts, values_cons, values_cons]
    by_cases he : e.1 = k
    · have hnone : values ((firsts l).filter (·.1 ≠ e.1)) k = [] := by
        apply values_eq_nil
        intro x hx heq
        exact of_decide_eq_true (List.mem_filter.mp hx).2 (heq.trans he.symm)
      rw [if_pos he, if_pos he, hnone]
      rfl
    · have hsame : values ((firsts l).filter (·.1 ≠ e.1)) k = values (firsts l) k := by
        rw [values, values, List.filter_filter]
        congr 1
        apply List.filter_congr
        intro x _
        by_cases hx : x.1 = k
        · have hne : ¬k = e.1 := fun h => he h.symm
          simp [hx, hne]
        · simp [hx]
      rw [if_neg he, if_neg he, hsame, ih]

end FlorestaDb.Buckets
