import FlorestaDb.Lib.Program
import Mathlib.Logic.Relation

/-! The single steps of a sequential call: a relation that every step of the call respects,
whatever the environment decides. -/
namespace FlorestaDb.Program.Prog

variable {S ε α β : Type} {G G' : S → S → Prop} {t : Tid} {s : S}

/-- The call, started in `s`, can take a step from `s₁` to `s₂`. -/
def Steps (t : Tid) : Prog S ε α → S → S → S → Prop
  | .done _, _, _, _ => False
  | .spin, _, _, _ => False
  | .choose k, s, s₁, s₂ => ∃ b, (k b).Steps t s s₁ s₂
  | .act f k, s, s₁, s₂ => ∃ x, f t s = some x ∧ (s₁ = s ∧ s₂ = x.2 ∨ (k x.1).Steps t x.2 s₁ s₂)

/-- Every step of the call respects `G`. -/
def guar (G : S → S → Prop) (t : Tid) : Prog S ε α → S → Prop
  | .done _, _ => True
  | .spin, _ => True
  | .choose k, s => ∀ b, (k b).guar G t s
  | .act f k, s => ∀ x, f t s = some x → G s x.2 ∧ (k x.1).guar G t x.2

theorem step_of_guar {p : Prog S ε α} (h : p.guar G t s) {s₁ s₂ : S} (hs : p.Steps t s s₁ s₂) :
    G s₁ s₂ := by
  induction p generalizing s with
  | done r => cases hs
  | spin => cases hs
  | choose k ih =>
    obtain ⟨b, hs⟩ := hs
    exact ih b (h b) hs
  | act f k ih =>
    obtain ⟨x, hf, ⟨rfl, rfl⟩ | hs⟩ := hs
    · exact (h x hf).1
    · exact ih x.1 (h x hf).2 hs

/-- From the call to its return the state moves by `G`. -/
theorem chain_of_guar {p : Prog S ε α} (h : p.guar G t s) {r : Except ε α} {s' : S}
    (hr : p.Returns t s r s') : Relation.ReflTransGen G s s' := by
  induction p generalizing s with
  | done r =>
    obtain ⟨-, rfl⟩ := hr
    exact .refl
  | spin => cases hr
  | choose k ih =>
    obtain ⟨b, hr⟩ := hr
    exact ih b (h b) hr
  | act f k ih =>
    obtain ⟨x, hf, hr⟩ := hr
    exact .head (h x hf).1 (ih x.1 (h x hf).2 hr)

/-- A specification together with the chain of steps. -/
theorem wp_chain {v : Env} {p : Prog S ε α} {Q : Except ε α → S → Prop} (h : p.wp v t Q s)
    (hg : p.guar G t s) :
    p.wp v t (fun r s' => Q r s' ∧ Relation.ReflTransGen G s s') s := by
  induction p generalizing s with
  | done r => exact ⟨h, .refl⟩
  | spin => exact h
  | choose k ih => exact ⟨ih false h.1 (hg false), fun hv => ih true (h.2 hv) (hg true)⟩
  | act f k ih =>
    simp only [wp] at h ⊢
    cases hf : f t s with
    | none => simp [hf] at h
    | some x =>
      simp only [hf] at h ⊢
      exact wp_mono (ih x.1 h (hg x hf).2) fun r s' hq => ⟨hq.1, .head (hg x hf).1 hq.2⟩

theorem guar_atomic {f : Tid → S → Option (Except ε α × S)}
    (h : ∀ x, f t s = some x → G s x.2) : (atomic f).guar G t s :=
  fun x hx => ⟨h x hx, trivial⟩

theorem guar_attempt {p : Prog S ε α} : p.attempt.guar G t s ↔ p.guar G t s := by
  induction p generalizing s with
  | done r => rfl
  | spin => rfl
  | choose k ih => simp only [attempt, guar, ih]
  | act f k ih => simp only [attempt, guar, ih]

/-- Sequencing through a specification of the first part. -/
theorem guar_seq {p : Prog S ε α} {f : α → Prog S ε β} {Q : Except ε α → S → Prop}
    (h : p.guar G t s) (hq : p.wp .any t Q s) (hf : ∀ a s', Q (.ok a) s' → (f a).guar G t s') :
    (p >>= f).guar G t s := by
  change (p.bind f).guar G t s
  induction p generalizing s with
  | done r =>
    cases r with
    | ok a => exact hf a s hq
    | error e => trivial
  | spin => trivial
  | choose k ih =>
    intro b
    cases b with
    | false => exact ih false (h false) hq.1
    | true => exact ih true (h true) (hq.2 rfl)
  | act g k ih =>
    intro x hx
    simp only [wp, hx] at hq
    exact ⟨(h x hx).1, ih x.1 (h x hx).2 hq⟩

theorem guar_mono {p : Prog S ε α} (h : p.guar G t s) (hG : ∀ s s', G s s' → G' s s') :
    p.guar G' t s := by
  induction p generalizing s with
  | done r => trivial
  | spin => trivial
  | choose k ih => exact fun b => ih b (h b)
  | act f k ih => exact fun x hx => ⟨hG _ _ (h x hx).1, ih x.1 (h x hx).2⟩

section Within

/-- The program respects `G` from every state. -/
def Within (G : S → S → Prop) (p : Prog S ε α) : Prop := ∀ t s, p.guar G t s

theorem within_done (r : Except ε α) : Within G (.done r : Prog S ε α) := fun _ _ => trivial

/-- Sequencing with a program that needs no specification of the first part. -/
theorem guar_then {p : Prog S ε α} {f : α → Prog S ε β} (h : p.guar G t s)
    (hf : ∀ a, Within G (f a)) : (p >>= f).guar G t s := by
  change (p.bind f).guar G t s
  induction p generalizing s with
  | done r =>
    cases r with
    | ok a => exact hf a t s
    | error e => trivial
  | spin => trivial
  | choose k ih => exact fun b => ih b (h b)
  | act g k ih => exact fun x hx => ⟨(h x hx).1, ih x.1 (h x hx).2⟩

theorem within_bind {p : Prog S ε α} {f : α → Prog S ε β} (hp : Within G p)
    (hf : ∀ a, Within G (f a)) : Within G (p >>= f) :=
  fun t s => guar_then (hp t s) hf

theorem within_check {x : Except ε α} {f : α → Prog S ε β}
    (h : ∀ a, x = .ok a → Within G (f a)) : Within G (ofExcept x >>= f) := by
  cases x with
  | ok a => exact h a rfl
  | error e => exact within_done _

theorem within_mono {p : Prog S ε α} (h : Within G p) (hG : ∀ s s', G s s' → G' s s') :
    Within G' p := fun t s => guar_mono (h t s) hG

theorem within_atomic {f : Tid → S → Option (Except ε α × S)}
    (h : ∀ t s x, f t s = some x → G s x.2) : Within G (atomic f) :=
  fun t s => guar_atomic (h t s)

theorem within_attempt {p : Prog S ε α} (h : Within G p) : Within G p.attempt :=
  fun t s => guar_attempt.mpr (h t s)

theorem within_ite {c : Prop} [Decidable c] {p q : Prog S ε α} (hp : Within G p)
    (hq : Within G q) : Within G (if c then p else q) := by
  by_cases hc : c
  · rw [if_pos hc]
    exact hp
  · rw [if_neg hc]
    exact hq

theorem within_guarded {enter leave : Prog S ε Unit} {body : Prog S ε α} (he : Within G enter)
    (hl : Within G leave) (hb : Within G body) : Within G (guarded enter leave body) :=
  within_bind he fun _ => within_bind (within_attempt hb) fun r =>
    within_bind hl fun _ => within_done r

theorem within_any (hG : ∀ s s', G s s') (p : Prog S ε α) : Within G p := by
  intro t s
  induction p generalizing s with
  | done r => trivial
  | spin => trivial
  | choose k ih => exact fun b => ih b s
  | act f k ih => exact fun x _ => ⟨hG s x.2, ih x.1 x.2⟩

theorem within_pure (a : α) : Within G (pure a : Prog S ε α) := within_done _

theorem within_choose {k : Bool → Prog S ε α} (h : ∀ b, Within G (k b)) : Within G (.choose k) :=
  fun t s b => h b t s

/-- A program on a component respects what its steps on the component respect. -/
theorem within_focus {W : Type} {F : W → W → Prop} {get : W → S} {set : S → W → W}
    (hgs : ∀ s w, get (set s w) = s) {p : Prog S ε α} (h : Within G p)
    (hF : ∀ w s, G (get w) s → F w (set s w)) : Within F (p.focus get set) := by
  intro t w
  have hguar := h t (get w)
  clear h
  induction p generalizing w with
  | done r => trivial
  | spin => trivial
  | choose k ih => exact fun b => ih b w (hguar b)
  | act f k ih =>
    intro x hx
    obtain ⟨y, hy, rfl⟩ := Option.map_eq_some_iff.mp hx
    obtain ⟨hstep, hrest⟩ := hguar y hy
    rw [← hgs y.2 w] at hrest
    exact ⟨hF w y.2 hstep, ih y.1 _ hrest⟩

end Within

end FlorestaDb.Program.Prog
