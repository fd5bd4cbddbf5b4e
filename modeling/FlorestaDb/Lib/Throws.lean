import FlorestaDb.Lib.Interference

/-! The errors that a call can end in, whatever the state is and whatever the others do. -/
namespace FlorestaDb.Program.Prog

variable {S W ε α β : Type} {E : ε → Prop} {p : Prog S ε α}

/-- Every error that the call ends in satisfies `E`. -/
def Throws (E : ε → Prop) : Prog S ε α → Prop
  | .done r => ∀ e, r = .error e → E e
  | .spin => True
  | .choose k => ∀ b, (k b).Throws E
  | .act f k => ∀ t s x, f t s = some x → (k x.1).Throws E

theorem Throws.mono {E' : ε → Prop} (h : p.Throws E) (hE : ∀ e, E e → E' e) : p.Throws E' := by
  induction p with
  | done r => exact fun e he => hE e (h e he)
  | spin => trivial
  | choose k ih => exact fun b => ih b (h b)
  | act f k ih => exact fun t s x hx => ih x.1 (h t s x hx)

theorem throws_pure (a : α) : (pure a : Prog S ε α).Throws E := by
  intro e h
  cases h

theorem throws_throw {e : ε} (h : E e) : (throw e : Prog S ε α).Throws E := by
  intro e' heq
  cases heq
  exact h

theorem throws_atomic {f : Tid → S → Option (Except ε α × S)}
    (h : ∀ t s e s', f t s = some (.error e, s') → E e) : (atomic f).Throws E := by
  intro t s x hx e he
  apply h t s e x.2
  rw [hx, ← he]

theorem throws_bind {f : α → Prog S ε β} (hp : p.Throws E) (hf : ∀ a, (f a).Throws E) :
    (p >>= f).Throws E := by
  change (p.bind f).Throws E
  induction p with
  | done r =>
    cases r with
    | ok a => exact hf a
    | error e =>
      intro e' heq
      cases heq
      exact hp e rfl
  | spin => trivial
  | choose k ih => exact fun b => ih b (hp b)
  | act g k ih => exact fun t s x hx => ih x.1 (hp t s x hx)

theorem throws_focus {get : W → S} {set : S → W → W} (h : p.Throws E) :
    (p.focus get set).Throws E := by
  induction p with
  | done r => exact h
  | spin => trivial
  | choose k ih => exact fun b => ih b (h b)
  | act f k ih =>
    intro t w x hx
    obtain ⟨y, hy, rfl⟩ := Option.map_eq_some_iff.mp hx
    exact ih y.1 (h t (get w) y hy)

/-- Among others the call ends in these errors only. -/
theorem wlp_throws {R : S → S → Prop} {t : Tid} {s : S} (h : p.Throws E) :
    p.wlp R t (fun r _ => ∀ e, r = .error e → E e) s := by
  induction p generalizing s with
  | done r => exact h
  | spin => trivial
  | choose k ih => exact fun b => ih b (h b)
  | act f k ih => exact fun s₁ _ x hx => ih x.1 (h t s₁ x hx)

section Ends
variable {R : S → S → Prop} {t : Tid} {s : S} {P : α → S → Prop} {P' : β → S → Prop}
  {f : α → Prog S ε β}

/-- What a result may be: a value for which `P` holds, or an error in `E`. -/
def Ending (E : ε → Prop) (P : α → S → Prop) : Except ε α → S → Prop
  | .ok a, s => P a s
  | .error e, _ => E e

/-- If the call returns, it succeeds with `P` or ends in an error in `E`. -/
def Ends (R : S → S → Prop) (t : Tid) (E : ε → Prop) (p : Prog S ε α) (P : α → S → Prop) (s : S) :
    Prop := p.wlp R t (Ending E P) s

theorem ends_pure {a : α} (h : P a s) : (pure a : Prog S ε α).Ends R t E P s := h

theorem ends_throw {e : ε} (h : E e) : (throw e : Prog S ε α).Ends R t E P s := h

theorem ends_seq {Q : Except ε α → S → Prop} (h : p.wlp R t Q s) (herr : ∀ e s', Q (.error e) s' → E e)
    (hok : ∀ a s', Q (.ok a) s' → (f a).Ends R t E P' s') : (p >>= f).Ends R t E P' s := by
  apply (wlp_bind p f _).mpr
  refine wlp_mono h ?_
  intro r s' hq
  cases r with
  | ok a => exact hok a s' hq
  | error e => exact herr e s' hq

theorem Ends.seq (h : p.Ends R t E P s) (hf : ∀ a s', P a s' → (f a).Ends R t E P' s') :
    (p >>= f).Ends R t E P' s :=
  ends_seq h (fun _ _ he => he) hf

theorem ends_attempt {Q : Except ε α → S → Prop} {g : Except ε α → Prog S ε β} (h : p.wlp R t Q s)
    (hg : ∀ r s', Q r s' → (g r).Ends R t E P' s') : (p.attempt >>= g).Ends R t E P' s := by
  refine ends_seq ((wlp_attempt p fun r s' => ∃ a, r = .ok a ∧ Q a s').mpr ?_) ?_ ?_
  · exact wlp_mono h fun r s' hq => ⟨r, rfl, hq⟩
  · intro e s' hq
    obtain ⟨_, heq, -⟩ := hq
    cases heq
  · intro r s' hq
    obtain ⟨r', heq, hq⟩ := hq
    cases heq
    exact hg r s' hq

theorem ends_ofExcept {r : Except ε α} (herr : ∀ e, r = .error e → E e)
    (hok : ∀ a, r = .ok a → (f a).Ends R t E P' s) : (ofExcept r >>= f).Ends R t E P' s := by
  cases r with
  | ok a => exact hok a rfl
  | error e => exact herr e rfl

theorem Yields.ends (h : p.Yields R t P s) (hp : p.Throws E) : p.Ends R t E P s := by
  refine wlp_mono (wlp_and h (wlp_throws hp)) ?_
  intro r s' hr
  cases r with
  | ok a => exact hr.1 a rfl
  | error e => exact hr.2 e rfl

/-- What is known of the value, and what is known of the errors. -/
theorem Yields.ending (h : p.Yields R t P s) (he : p.Ends R t E (fun _ _ => True) s) :
    p.Ends R t E P s := by
  refine wlp_mono (wlp_and h he) ?_
  intro r s' hr
  cases r with
  | ok a => exact hr.1 a rfl
  | error e => exact hr.2

theorem Ends.yields (h : p.Ends R t E P s) : p.Yields R t P s := by
  refine wlp_mono h ?_
  intro r s' hr a ha
  cases ha
  exact hr

theorem Ends.mono (h : p.Ends R t E P s) {P₁ : α → S → Prop} (hP : ∀ a s', P a s' → P₁ a s') :
    p.Ends R t E P₁ s := by
  refine wlp_mono h ?_
  intro r s' hr
  cases r with
  | ok a => exact hP a s' hr
  | error e => exact hr

theorem Ends.weaken (h : p.Ends R t E P s) {E' : ε → Prop} (hE : ∀ e, E e → E' e) :
    p.Ends R t E' P s := by
  refine wlp_mono h ?_
  intro r s' hr
  cases r with
  | ok a => exact hr
  | error e => exact hE e hr

end Ends

end FlorestaDb.Program.Prog
