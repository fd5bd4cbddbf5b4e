import Mathlib.Tactic.Common

/-! Programs as finite trees of atomic steps over a shared state. One program has
several meanings: a sequential run, the prefixes a crash can cut off, and the
interleavings of many threads. Nothing here knows what the state is. -/
namespace FlorestaDb.Program

abbrev Tid := Nat

/- `act` is one atomic step of the running thread; a step that returns `none` is
   blocked (a lock that is not free). `choose` is decided by the environment, and
   `spin` stands for a retry loop that has used up its fuel. -/
inductive Prog (S ε : Type) (α : Type) : Type 1 where
  | done (r : Except ε α)
  | spin
  | choose (k : Bool → Prog S ε α)
  | act {β : Type} (f : Tid → S → Option (Except ε β × S)) (k : Except ε β → Prog S ε α)

variable {S W ε α β : Type}

namespace Prog

def bind (p : Prog S ε α) (f : α → Prog S ε β) : Prog S ε β :=
  match p with
  | .done (.ok a) => f a
  | .done (.error e) => .done (.error e)
  | .spin => .spin
  | .choose k => .choose fun b => (k b).bind f
  | .act g k => .act g fun r => (k r).bind f

instance : Monad (Prog S ε) where
  pure a := .done (.ok a)
  bind := bind

def throw (e : ε) : Prog S ε α := .done (.error e)

def ofExcept (r : Except ε α) : Prog S ε α := .done r

/-- The result of `p` as a value: an error of `p` no longer ends the program. -/
def attempt : Prog S ε α → Prog S ε (Except ε α)
  | .done r => .done (.ok r)
  | .spin => .spin
  | .choose k => .choose fun b => (k b).attempt
  | .act g k => .act g fun r => (k r).attempt

/-- One atomic step, its error (if any) propagated. -/
def atomic (f : Tid → S → Option (Except ε β × S)) : Prog S ε β := .act f .done

/-- The body between two steps that both always run: a scope guard. -/
def guarded (enter leave : Prog S ε Unit) (body : Prog S ε α) : Prog S ε α := do
  enter
  let r ← body.attempt
  leave
  ofExcept r

/-- Run a program on one component of a larger state. -/
def focus (get : W → S) (set : S → W → W) : Prog S ε α → Prog W ε α
  | .done r => .done r
  | .spin => .spin
  | .choose k => .choose fun b => (k b).focus get set
  | .act f k => .act (fun t w => (f t (get w)).map fun x => (x.1, set x.2 w))
      fun r => (k r).focus get set

/-- The sequential run of one thread; the environment's choices all come out `false`. -/
def run (t : Tid) : Prog S ε α → S → Option (Except ε α × S)
  | .done r, s => some (r, s)
  | .spin, _ => none
  | .choose k, s => (k false).run t s
  | .act f k, s =>
    match f t s with
    | none => none
    | some x => (k x.1).run t x.2

/-- The run in which the environment's choices are those listed, and `false` afterwards. -/
def runWith (t : Tid) : Prog S ε α → List Bool → S → Option (Except ε α × S)
  | .done r, _, s => some (r, s)
  | .spin, _, _ => none
  | .choose k, choices, s => (k (choices.headD false)).runWith t choices.tail s
  | .act f k, choices, s =>
    match f t s with
    | none => none
    | some x => (k x.1).runWith t choices x.2

/- What the environment of a sequential call may do. `fair`: no choice goes against the
   call and fuel has to suffice. `any`: its choices are arbitrary, and a call that has
   used up its fuel has not returned. -/
inductive Env where
  | fair
  | any
  deriving DecidableEq

/-- The postcondition `Q` holds whenever the call returns; a `fair` call does return. -/
def wp (v : Env) (t : Tid) : Prog S ε α → (Except ε α → S → Prop) → S → Prop
  | .done r, Q, s => Q r s
  | .spin, _, _ => v = .any
  | .choose k, Q, s => (k false).wp v t Q s ∧ (v = .any → (k true).wp v t Q s)
  | .act f k, Q, s =>
    match f t s with
    | none => False
    | some x => (k x.1).wp v t Q x.2

/-- The call returns `r` in the state `s'`, for some choices of the environment. -/
def Returns (t : Tid) : Prog S ε α → S → Except ε α → S → Prop
  | .done r, s, r', s' => r' = r ∧ s' = s
  | .spin, _, _, _ => False
  | .choose k, s, r', s' => ∃ b, (k b).Returns t s r' s'
  | .act f k, s, r', s' => ∃ x, f t s = some x ∧ (k x.1).Returns t x.2 r' s'

variable {v : Env} {t : Tid} {s : S} {Q : Except ε α → S → Prop}

@[simp] theorem run_pure (a : α) : (pure a : Prog S ε α).run t s = some (.ok a, s) := rfl

@[simp] theorem run_throw (e : ε) : (throw e : Prog S ε α).run t s = some (.error e, s) := rfl

@[simp] theorem run_ofExcept (r : Except ε α) :
    (ofExcept r : Prog S ε α).run t s = some (r, s) := rfl

theorem run_bind (p : Prog S ε α) (f : α → Prog S ε β) (s : S) :
    (p >>= f).run t s =
      match p.run t s with
      | none => none
      | some (.ok a, s') => (f a).run t s'
      | some (.error e, s') => some (.error e, s') := by
  change (p.bind f).run t s = _
  induction p generalizing s with
  | done r => cases r <;> rfl
  | spin => rfl
  | choose k ih => exact ih false s
  | act g k ih =>
    simp only [bind, run]
    cases g t s with
    | none => rfl
    | some x => exact ih x.1 x.2

theorem wp_pure (a : α) : (pure a : Prog S ε α).wp v t Q s ↔ Q (.ok a) s := Iff.rfl

theorem wp_throw (e : ε) : (throw e : Prog S ε α).wp v t Q s ↔ Q (.error e) s := Iff.rfl

theorem wp_ofExcept (r : Except ε α) : (ofExcept r : Prog S ε α).wp v t Q s ↔ Q r s := Iff.rfl

theorem wp_atomic (f : Tid → S → Option (Except ε α × S)) :
    (atomic f).wp v t Q s ↔ ∃ r s', f t s = some (r, s') ∧ Q r s' := by
  simp only [atomic, wp]
  cases f t s with
  | none => simp
  | some x =>
    obtain ⟨r, s'⟩ := x
    simp

theorem wp_choose (k : Bool → Prog S ε α) :
    (choose k).wp v t Q s ↔ (k false).wp v t Q s ∧ (v = .any → (k true).wp v t Q s) := Iff.rfl

/-- What is left to show after a step that may have failed. -/
def andThen (f : α → Prog S ε β) (v : Env) (t : Tid) (Q : Except ε β → S → Prop) :
    Except ε α → S → Prop
  | .ok a, s => (f a).wp v t Q s
  | .error e, s => Q (.error e) s

@[simp] theorem andThen_ok (f : α → Prog S ε β) (Q : Except ε β → S → Prop) (a : α) :
    andThen f v t Q (.ok a) s = (f a).wp v t Q s := rfl

@[simp] theorem andThen_error (f : α → Prog S ε β) (Q : Except ε β → S → Prop) (e : ε) :
    andThen f v t Q (.error e) s = Q (.error e) s := rfl

theorem wp_bind (p : Prog S ε α) (f : α → Prog S ε β) (Q : Except ε β → S → Prop) :
    (p >>= f).wp v t Q s ↔ p.wp v t (andThen f v t Q) s := by
  change (p.bind f).wp v t Q s ↔ _
  induction p generalizing s with
  | done r => cases r <;> rfl
  | spin => rfl
  | choose k ih => simp only [bind, wp, ih]
  | act g k ih =>
    simp only [bind, wp]
    cases g t s with
    | none => rfl
    | some x => exact ih x.1

theorem wp_attempt (p : Prog S ε α) (Q : Except ε (Except ε α) → S → Prop) :
    p.attempt.wp v t Q s ↔ p.wp v t (fun r s' => Q (.ok r) s') s := by
  induction p generalizing s with
  | done r => rfl
  | spin => rfl
  | choose k ih => simp only [attempt, wp, ih]
  | act g k ih =>
    simp only [attempt, wp]
    cases g t s with
    | none => rfl
    | some x => exact ih x.1

theorem wp_mono {p : Prog S ε α} {Q' : Except ε α → S → Prop} (h : p.wp v t Q s)
    (hq : ∀ r s', Q r s' → Q' r s') : p.wp v t Q' s := by
  induction p generalizing s with
  | done r => exact hq r s h
  | spin => exact h
  | choose k ih => exact ⟨ih false h.1, fun hv => ih true (h.2 hv)⟩
  | act g k ih =>
    simp only [wp] at h ⊢
    cases hg : g t s with
    | none => simp [hg] at h
    | some x =>
      simp only [hg] at h ⊢
      exact ih x.1 h

/-- Sequencing through a specification of the first part. -/
theorem wp_seq {p : Prog S ε α} {f : α → Prog S ε β} {Q' : Except ε β → S → Prop}
    (h : p.wp v t Q s) (hq : ∀ r s', Q r s' → andThen f v t Q' r s') : (p >>= f).wp v t Q' s :=
  (wp_bind p f Q').mpr (wp_mono h hq)

theorem wp_focus (get : W → S) (set : S → W → W) (hgs : ∀ s w, get (set s w) = s)
    (hss : ∀ s s' w, set s' (set s w) = set s' w) (hsg : ∀ w, set (get w) w = w)
    (p : Prog S ε α) (Q : Except ε α → W → Prop) (w : W) :
    (p.focus get set).wp v t Q w ↔ p.wp v t (fun r s' => Q r (set s' w)) (get w) := by
  induction p generalizing w with
  | done r => simp only [focus, wp, hsg]
  | spin => rfl
  | choose k ih => simp only [focus, wp, ih]
  | act f k ih =>
    simp only [focus, wp]
    cases hf : f t (get w) with
    | none => rfl
    | some x => simp [ih x.1 (set x.2 w), hgs, hss]

theorem wp_guarded (enter leave : Prog S ε Unit) (body : Prog S ε α) :
    (guarded enter leave body).wp v t Q s ↔
      enter.wp v t
        (andThen (fun _ => body.attempt >>= fun r => leave >>= fun _ => ofExcept r) v t Q) s := by
  simp only [guarded, wp_bind]

/-- A fair call returns, and its run is the one it returns from. -/
theorem run_of_wp {p : Prog S ε α} (h : p.wp .fair t Q s) :
    ∃ r s', p.run t s = some (r, s') ∧ Q r s' := by
  induction p generalizing s with
  | done r => exact ⟨r, s, rfl, h⟩
  | spin => cases h
  | choose k ih => exact ih false h.1
  | act g k ih =>
    simp only [wp, run] at h ⊢
    cases hg : g t s with
    | none => simp [hg] at h
    | some x =>
      simp only [hg] at h ⊢
      exact ih x.1 h

theorem post_of_returns {p : Prog S ε α} (h : p.wp .any t Q s) {r : Except ε α} {s' : S}
    (hr : p.Returns t s r s') : Q r s' := by
  induction p generalizing s with
  | done r =>
    obtain ⟨rfl, rfl⟩ := hr
    exact h
  | spin => cases hr
  | choose k ih =>
    obtain ⟨b, hr⟩ := hr
    cases b with
    | false => exact ih false h.1 hr
    | true => exact ih true (h.2 rfl) hr
  | act g k ih =>
    obtain ⟨x, hg, hr⟩ := hr
    simp only [wp, hg] at h
    exact ih x.1 h hr

theorem returns_of_run {p : Prog S ε α} {r : Except ε α} {s' : S}
    (h : p.run t s = some (r, s')) : p.Returns t s r s' := by
  induction p generalizing s with
  | done r =>
    simp only [run, Option.some.injEq, Prod.mk.injEq] at h
    exact ⟨h.1.symm, h.2.symm⟩
  | spin => cases h
  | choose k ih => exact ⟨false, ih false h⟩
  | act g k ih =>
    simp only [run] at h
    cases hg : g t s with
    | none => simp [hg] at h
    | some x =>
      simp only [hg] at h
      exact ⟨x, hg, ih x.1 h⟩

theorem returns_of_runWith {p : Prog S ε α} {choices : List Bool} {r : Except ε α} {s' : S}
    (h : p.runWith t choices s = some (r, s')) : p.Returns t s r s' := by
  induction p generalizing s choices with
  | done r =>
    simp only [runWith, Option.some.injEq, Prod.mk.injEq] at h
    exact ⟨h.1.symm, h.2.symm⟩
  | spin => cases h
  | choose k ih => exact ⟨_, ih _ h⟩
  | act g k ih =>
    simp only [runWith] at h
    cases hg : g t s with
    | none => simp [hg] at h
    | some x =>
      simp only [hg] at h
      exact ⟨x, hg, ih x.1 h⟩

/-- A result that is only passed on. -/
theorem returns_bind_pure {p : Prog S ε α} {g : α → β} {r : Except ε β} {s' : S} :
    (p >>= fun x => pure (g x)).Returns t s r s' ↔ ∃ r', p.Returns t s r' s' ∧ r = r'.map g := by
  induction p generalizing s with
  | done r' =>
    constructor
    · intro h
      cases r' with
      | ok a => exact ⟨.ok a, ⟨rfl, h.2⟩, h.1⟩
      | error e => exact ⟨.error e, ⟨rfl, h.2⟩, h.1⟩
    · intro h
      obtain ⟨r', ⟨rfl, rfl⟩, rfl⟩ := h
      cases r' with
      | ok a => exact ⟨rfl, rfl⟩
      | error e => exact ⟨rfl, rfl⟩
  | spin =>
    constructor
    · intro h
      cases h
    · intro h
      obtain ⟨r', h, -⟩ := h
      cases h
  | choose k ih =>
    constructor
    · intro h
      obtain ⟨b, h⟩ := h
      obtain ⟨r', h', hr⟩ := (ih b).mp h
      exact ⟨r', ⟨b, h'⟩, hr⟩
    · intro h
      obtain ⟨r', ⟨b, h'⟩, hr⟩ := h
      exact ⟨b, (ih b).mpr ⟨r', h', hr⟩⟩
  | act f k ih =>
    constructor
    · intro h
      obtain ⟨x, hx, h⟩ := h
      obtain ⟨r', h', hr⟩ := (ih x.1).mp h
      exact ⟨r', ⟨x, hx, h'⟩, hr⟩
    · intro h
      obtain ⟨r', ⟨x, hx, h'⟩, hr⟩ := h
      exact ⟨x, hx, (ih x.1).mpr ⟨r', h', hr⟩⟩

/-- A call that returns from no choices of the environment has no run. -/
theorem run_none_of_wp {p : Prog S ε α} (h : p.wp .any t (fun _ _ => False) s) :
    p.run t s = none := by
  cases hrun : p.run t s with
  | none => rfl
  | some x => exact (post_of_returns h (returns_of_run hrun)).elim

end Prog
end FlorestaDb.Program
