import FlorestaDb.Lib.Program
import Mathlib.Logic.Function.Basic

/-! Calls of many threads, interleaved step by step. Each thread knows an invariant and what the
others may do to the world as it sees it, and keeps to what the others know. -/
namespace FlorestaDb.Program

variable {W S ε α β C : Type}

/-- Programs act on a part of the world; the rest is bookkeeping that follows from the part. -/
structure View (W S : Type) where
  get : W → S
  put : S → W → W

/-- What holds between any two steps, what every single step does, and what a thread sees of the
steps of the others. -/
structure Discipline (W : Type) where
  Inv : W → Prop
  Step : W → W → Prop
  Rel : Tid → W → W → Prop
  still : ∀ w, Step w w
  refl : ∀ t w, Rel t w w
  trans : ∀ t {w w₁ w₂}, Rel t w w₁ → Rel t w₁ w₂ → Rel t w w₂

/-- A step of the thread `t` that the others can live with. -/
def Discipline.Allows (D : Discipline W) (t : Tid) (w w' : W) : Prop :=
  D.Inv w' ∧ D.Step w w' ∧ ∀ u, u ≠ t → D.Rel u w w'

namespace Prog

/- Started in `w` the call keeps to the discipline, whatever the others do within it; if it
   returns, `Q` holds of its result and of the world after its last step. -/
def Safe (D : Discipline W) (V : View W S) (t : Tid) :
    Prog S ε α → (Except ε α → W → Prop) → W → Prop
  | .done r, Q, w => Q r w
  | .spin, _, _ => True
  | .choose k, Q, w => ∀ b, (k b).Safe D V t Q w
  | .act f k, Q, w => ∀ w₁, D.Rel t w w₁ → D.Inv w₁ → ∀ x, f t (V.get w₁) = some x →
      D.Allows t w₁ (V.put x.2 w₁) ∧ (k x.1).Safe D V t Q (V.put x.2 w₁)

section Rules
variable {D : Discipline W} {V : View W S} {t : Tid} {w : W} {Q Q' : Except ε α → W → Prop}

/-- What is left to show after a part that may have failed. -/
def next (f : α → Prog S ε β) (D : Discipline W) (V : View W S) (t : Tid)
    (Q : Except ε β → W → Prop) : Except ε α → W → Prop
  | .ok a, w => (f a).Safe D V t Q w
  | .error e, w => Q (.error e) w

@[simp] theorem next_error (f : α → Prog S ε β) (Q : Except ε β → W → Prop) (e : ε) :
    next f D V t Q (.error e) w = Q (.error e) w := rfl

theorem safe_bind (p : Prog S ε α) (f : α → Prog S ε β) (Q : Except ε β → W → Prop) :
    (p >>= f).Safe D V t Q w ↔ p.Safe D V t (next f D V t Q) w := by
  change (p.bind f).Safe D V t Q w ↔ _
  induction p generalizing w with
  | done r => cases r <;> rfl
  | spin => rfl
  | choose k ih => simp only [bind, Safe, ih]
  | act g k ih => simp only [bind, Safe, ih]

theorem safe_attempt (p : Prog S ε α) (Q : Except ε (Except ε α) → W → Prop) :
    p.attempt.Safe D V t Q w ↔ p.Safe D V t (fun r w' => Q (.ok r) w') w := by
  induction p generalizing w with
  | done r => rfl
  | spin => rfl
  | choose k ih => simp only [attempt, Safe, ih]
  | act g k ih => simp only [attempt, Safe, ih]

theorem safe_mono {p : Prog S ε α} (h : p.Safe D V t Q w) (hq : ∀ r w', Q r w' → Q' r w') :
    p.Safe D V t Q' w := by
  induction p generalizing w with
  | done r => exact hq r w h
  | spin => trivial
  | choose k ih => exact fun b => ih b (h b)
  | act f k ih => exact fun w₁ hrel hinv x hf => ⟨(h w₁ hrel hinv x hf).1, ih x.1 (h w₁ hrel hinv x hf).2⟩

end Rules

end Prog

section Pools

/-- The calls that threads make: what each runs, and what its begin and its end do to the
bookkeeping. -/
structure Calls (W S ε α C : Type) where
  body : C → Prog S ε α
  Enter : Tid → C → W → W → Prop
  Leave : Tid → C → Except ε α → W → W → Prop

/-- A world and what each thread still has to do of its call. -/
structure Pool (W S ε α C : Type) where
  world : W
  threads : Tid → Option (C × Prog S ε α)

/-- One step of one thread. -/
inductive Pool.Step (calls : Calls W S ε α C) (V : View W S) (p : Pool W S ε α C) :
    Pool W S ε α C → Prop where
  | enter (t : Tid) (c : C) (w' : W) (idle : p.threads t = none) (enter : calls.Enter t c p.world w') :
      Step calls V p ⟨w', Function.update p.threads t (some (c, calls.body c))⟩
  | choose (t : Tid) (c : C) (k : Bool → Prog S ε α) (b : Bool)
      (running : p.threads t = some (c, .choose k)) :
      Step calls V p ⟨p.world, Function.update p.threads t (some (c, k b))⟩
  | act (t : Tid) (c : C) (β : Type) (f : Tid → S → Option (Except ε β × S))
      (k : Except ε β → Prog S ε α) (x : Except ε β × S)
      (running : p.threads t = some (c, .act f k)) (step : f t (V.get p.world) = some x) :
      Step calls V p ⟨V.put x.2 p.world, Function.update p.threads t (some (c, k x.1))⟩
  | leave (t : Tid) (c : C) (r : Except ε α) (w' : W) (running : p.threads t = some (c, .done r))
      (leave : calls.Leave t c r p.world w') : Step calls V p ⟨w', Function.update p.threads t none⟩

/-- Any interleaving of any calls, from the world `w₀` in which no call is running. -/
inductive Pool.Reachable (calls : Calls W S ε α C) (V : View W S) (w₀ : W) :
    Pool W S ε α C → Prop where
  | initial : Reachable calls V w₀ ⟨w₀, fun _ => none⟩
  | step {p p' : Pool W S ε α C} (h : Reachable calls V w₀ p) (step : p.Step calls V p') :
      Reachable calls V w₀ p'

/-- The thread `t` takes its next step if it has one; `b` is what the environment decides. -/
def Pool.advance (V : View W S) (b : Bool) (p : Pool W S ε α C) (t : Tid) : Pool W S ε α C :=
  match p.threads t with
  | some (c, .choose k) => ⟨p.world, Function.update p.threads t (some (c, k b))⟩
  | some (c, .act f k) =>
    match f t (V.get p.world) with
    | some x => ⟨V.put x.2 p.world, Function.update p.threads t (some (c, k x.1))⟩
    | none => p
  | _ => p

/-- A schedule names the threads in the order of their steps. -/
def Pool.follow (V : View W S) (b : Bool) (schedule : List Tid) (p : Pool W S ε α C) :
    Pool W S ε α C := schedule.foldl (Pool.advance V b) p

theorem Pool.Reachable.advance {calls : Calls W S ε α C} {V : View W S} {w₀ : W} {b : Bool}
    {p : Pool W S ε α C} (h : Reachable calls V w₀ p) (t : Tid) :
    Reachable calls V w₀ (p.advance V b t) := by
  unfold Pool.advance
  split
  · rename_i c k hrun
    exact .step h (.choose t c k b hrun)
  · rename_i c β f k hrun
    split
    · rename_i x hf
      exact .step h (.act t c β f k x hrun hf)
    · exact h
  · exact h

theorem Pool.Reachable.follow {calls : Calls W S ε α C} {V : View W S} {w₀ : W} {b : Bool}
    {p : Pool W S ε α C} (h : Reachable calls V w₀ p) (schedule : List Tid) :
    Reachable calls V w₀ (p.follow V b schedule) := by
  induction schedule generalizing p with
  | nil => exact h
  | cons t schedule ih => exact ih (h.advance t)

/- What is to be shown of the calls: `Rest` holds of a thread that runs none of them, and `Post`
   of a call that has returned. -/
structure Discipline.Keeps (D : Discipline W) (V : View W S) (calls : Calls W S ε α C)
    (Rest : Tid → W → Prop) (Post : Tid → C → Except ε α → W → Prop) : Prop where
  rest : ∀ t {w w₁}, D.Rel t w w₁ → Rest t w → Rest t w₁
  enter : ∀ t c {w w'}, D.Inv w → Rest t w → calls.Enter t c w w' →
    D.Allows t w w' ∧ (calls.body c).Safe D V t (Post t c) w'
  leave : ∀ t c r {w₀ w w'}, D.Inv w → D.Rel t w₀ w → Post t c r w₀ → calls.Leave t c r w w' →
    D.Allows t w w' ∧ Rest t w'

/-- What is known of a thread. -/
def Discipline.Knows (D : Discipline W) (V : View W S) (Rest : Tid → W → Prop)
    (Post : Tid → C → Except ε α → W → Prop) (w : W) (t : Tid) : Option (C × Prog S ε α) → Prop
  | none => Rest t w
  | some (c, q) => ∃ w₀, D.Rel t w₀ w ∧ q.Safe D V t (Post t c) w₀

variable {D : Discipline W} {V : View W S} {calls : Calls W S ε α C} {Rest : Tid → W → Prop}
  {Post : Tid → C → Except ε α → W → Prop}

theorem Discipline.Knows.move {w w' : W} {t : Tid} {thread : Option (C × Prog S ε α)}
    (hk : D.Keeps V calls Rest Post) (h : D.Knows V Rest Post w t thread) (hrel : D.Rel t w w') :
    D.Knows V Rest Post w' t thread := by
  cases thread with
  | none => exact hk.rest t hrel h
  | some thread =>
    obtain ⟨w₀, hw₀, hsafe⟩ := h
    exact ⟨w₀, D.trans t hw₀ hrel, hsafe⟩

/-- A step of one thread, as all of them see it. -/
theorem Discipline.Keeps.update (hk : D.Keeps V calls Rest Post) {w w' : W} {t : Tid}
    {threads : Tid → Option (C × Prog S ε α)} {thread : Option (C × Prog S ε α)}
    (h : ∀ u, D.Knows V Rest Post w u (threads u)) (hallows : D.Allows t w w')
    (ht : D.Knows V Rest Post w' t thread) :
    D.Inv w' ∧ D.Step w w' ∧ ∀ u, D.Knows V Rest Post w' u (Function.update threads t thread u) := by
  refine ⟨hallows.1, hallows.2.1, ?_⟩
  intro u
  by_cases hu : u = t
  · rw [hu, Function.update_self]
    exact ht
  · rw [Function.update_of_ne hu]
    exact (h u).move hk (hallows.2.2 u hu)

theorem Pool.Step.keeps {p p' : Pool W S ε α C} (hk : D.Keeps V calls Rest Post) (hinv : D.Inv p.world)
    (h : ∀ u, D.Knows V Rest Post p.world u (p.threads u)) (hstep : p.Step calls V p') :
    D.Inv p'.world ∧ D.Step p.world p'.world ∧ ∀ u, D.Knows V Rest Post p'.world u (p'.threads u) := by
  cases hstep with
  | enter t c w' idle enter =>
    have hrest := h t
    rw [idle] at hrest
    obtain ⟨hallows, hsafe⟩ := hk.enter t c hinv hrest enter
    exact hk.update h hallows ⟨w', D.refl t w', hsafe⟩
  | choose t c k b running =>
    have hknown := h t
    rw [running] at hknown
    obtain ⟨w₀, hw₀, hsafe⟩ := hknown
    exact hk.update h ⟨hinv, D.still _, fun u _ => D.refl u _⟩ ⟨w₀, hw₀, hsafe b⟩
  | act t c β f k x running step =>
    have hknown := h t
    rw [running] at hknown
    obtain ⟨w₀, hw₀, hsafe⟩ := hknown
    obtain ⟨hallows, hrest⟩ := hsafe p.world hw₀ hinv x step
    exact hk.update h hallows ⟨_, D.refl t _, hrest⟩
  | leave t c r w' running leave =>
    have hknown := h t
    rw [running] at hknown
    obtain ⟨w₀, hw₀, hpost⟩ := hknown
    obtain ⟨hallows, hrest⟩ := hk.leave t c r hinv hw₀ hpost leave
    exact hk.update h hallows hrest

/-- Whatever the threads call and however their steps interleave. -/
theorem Pool.Reachable.keeps {w₀ : W} {p : Pool W S ε α C} (hk : D.Keeps V calls Rest Post)
    (hinv : D.Inv w₀) (hrest : ∀ t, Rest t w₀) (h : Reachable calls V w₀ p) :
    D.Inv p.world ∧ ∀ t, D.Knows V Rest Post p.world t (p.threads t) := by
  induction h with
  | initial => exact ⟨hinv, hrest⟩
  | step _ hstep ih =>
    obtain ⟨hinv, -, hknown⟩ := hstep.keeps hk ih.1 ih.2
    exact ⟨hinv, hknown⟩

end Pools

end FlorestaDb.Program
