import FlorestaDb.Lib.Steps

/-! A call among others: between two of its atomic steps the state moves by a relation that
stands for everything the other threads may do. -/
namespace FlorestaDb.Program.Prog

variable {S W ε α β : Type} {R : S → S → Prop} {t : Tid} {s : S} {Q : Except ε α → S → Prop}

/-- If the call returns, `Q` holds of its result and of the state it returns in. -/
def wlp (R : S → S → Prop) (t : Tid) : Prog S ε α → (Except ε α → S → Prop) → S → Prop
  | .done r, Q, s => Q r s
  | .spin, _, _ => True
  | .choose k, Q, s => ∀ b, (k b).wlp R t Q s
  | .act f k, Q, s => ∀ s₁, R s s₁ → ∀ x, f t s₁ = some x → (k x.1).wlp R t Q x.2

/-- The call returns `r` in the state `s'`, the others moving by `R` in between. -/
def ReturnsAmid (R : S → S → Prop) (t : Tid) : Prog S ε α → S → Except ε α → S → Prop
  | .done r, s, r', s' => r' = r ∧ s' = s
  | .spin, _, _, _ => False
  | .choose k, s, r', s' => ∃ b, (k b).ReturnsAmid R t s r' s'
  | .act f k, s, r', s' => ∃ s₁ x, R s s₁ ∧ f t s₁ = some x ∧ (k x.1).ReturnsAmid R t x.2 r' s'

theorem post_of_returnsAmid {p : Prog S ε α} (h : p.wlp R t Q s) {r : Except ε α} {s' : S}
    (hr : p.ReturnsAmid R t s r s') : Q r s' := by
  induction p generalizing s with
  | done r =>
    obtain ⟨rfl, rfl⟩ := hr
    exact h
  | spin => cases hr
  | choose k ih =>
    obtain ⟨b, hr⟩ := hr
    exact ih b (h b) hr
  | act f k ih =>
    obtain ⟨s₁, x, hR, hf, hr⟩ := hr
    exact ih x.1 (h s₁ hR x hf) hr

/-- A sequential return is one among others that do nothing. -/
theorem returnsAmid_of_returns (hrefl : ∀ s, R s s) {p : Prog S ε α} {r : Except ε α} {s' : S}
    (h : p.Returns t s r s') : p.ReturnsAmid R t s r s' := by
  induction p generalizing s with
  | done r => exact h
  | spin => cases h
  | choose k ih =>
    obtain ⟨b, h⟩ := h
    exact ⟨b, ih b h⟩
  | act f k ih =>
    obtain ⟨x, hf, h⟩ := h
    exact ⟨s, x, hrefl s, hf, ih x.1 h⟩

theorem wlp_ofExcept (r : Except ε α) : (ofExcept r : Prog S ε α).wlp R t Q s ↔ Q r s := Iff.rfl

theorem wlp_atomic (f : Tid → S → Option (Except ε α × S)) :
    (atomic f).wlp R t Q s ↔ ∀ s₁, R s s₁ → ∀ r s', f t s₁ = some (r, s') → Q r s' := by
  constructor
  · intro h s₁ hR r s' hf
    exact h s₁ hR (r, s') hf
  · intro h s₁ hR x hf
    exact h s₁ hR x.1 x.2 hf

/-- What is left to show after a step that may have failed. -/
def after (f : α → Prog S ε β) (R : S → S → Prop) (t : Tid) (Q : Except ε β → S → Prop) :
    Except ε α → S → Prop
  | .ok a, s => (f a).wlp R t Q s
  | .error e, s => Q (.error e) s

@[simp] theorem after_ok (f : α → Prog S ε β) (Q : Except ε β → S → Prop) (a : α) :
    after f R t Q (.ok a) s = (f a).wlp R t Q s := rfl

@[simp] theorem after_error (f : α → Prog S ε β) (Q : Except ε β → S → Prop) (e : ε) :
    after f R t Q (.error e) s = Q (.error e) s := rfl

theorem wlp_bind (p : Prog S ε α) (f : α → Prog S ε β) (Q : Except ε β → S → Prop) :
    (p >>= f).wlp R t Q s ↔ p.wlp R t (after f R t Q) s := by
  change (p.bind f).wlp R t Q s ↔ _
  induction p generalizing s with
  | done r => cases r <;> rfl
  | spin => rfl
  | choose k ih => simp only [bind, wlp, ih]
  | act g k ih => simp only [bind, wlp, ih]

theorem wlp_attempt (p : Prog S ε α) (Q : Except ε (Except ε α) → S → Prop) :
    p.attempt.wlp R t Q s ↔ p.wlp R t (fun r s' => Q (.ok r) s') s := by
  induction p generalizing s with
  | done r => rfl
  | spin => rfl
  | choose k ih => simp only [attempt, wlp, ih]
  | act g k ih => simp only [attempt, wlp, ih]

theorem wlp_mono {p : Prog S ε α} {Q' : Except ε α → S → Prop} (h : p.wlp R t Q s)
    (hq : ∀ r s', Q r s' → Q' r s') : p.wlp R t Q' s := by
  induction p generalizing s with
  | done r => exact hq r s h
  | spin => trivial
  | choose k ih => exact fun b => ih b (h b)
  | act g k ih => exact fun s₁ hR x hf => ih x.1 (h s₁ hR x hf)

theorem wlp_trivial (p : Prog S ε α) (hq : ∀ r s', Q r s') : p.wlp R t Q s := by
  induction p generalizing s with
  | done r => exact hq r s
  | spin => trivial
  | choose k ih => exact fun b => ih b
  | act g k ih => exact fun _ _ x _ => ih x.1

/-- Others that do less. -/
theorem wlp_rely {R' : S → S → Prop} (hR : ∀ s s₁, R' s s₁ → R s s₁) {p : Prog S ε α}
    (h : p.wlp R t Q s) : p.wlp R' t Q s := by
  induction p generalizing s with
  | done r => exact h
  | spin => trivial
  | choose k ih => exact fun b => ih b (h b)
  | act f k ih => exact fun s₁ hs x hf => ih x.1 (h s₁ (hR s s₁ hs) x hf)

/-- Two things that are known of a call. -/
theorem wlp_and {Q' : Except ε α → S → Prop} {p : Prog S ε α} (h : p.wlp R t Q s)
    (h' : p.wlp R t Q' s) : p.wlp R t (fun r s' => Q r s' ∧ Q' r s') s := by
  induction p generalizing s with
  | done r => exact ⟨h, h'⟩
  | spin => trivial
  | choose k ih => exact fun b => ih b (h b) (h' b)
  | act f k ih => exact fun s₁ hs x hf => ih x.1 (h s₁ hs x hf) (h' s₁ hs x hf)

/-- Nobody else does anything. -/
def Alone (s s₁ : S) : Prop := s₁ = s

/-- Where nobody else does anything, the call is a sequential one. -/
theorem wlp_of_wp (hR : ∀ s s₁, R s s₁ → s₁ = s) {p : Prog S ε α} (h : p.wp .any t Q s) :
    p.wlp R t Q s := by
  induction p generalizing s with
  | done r => exact h
  | spin => trivial
  | choose k ih =>
    intro b
    cases b with
    | false => exact ih false h.1
    | true => exact ih true (h.2 rfl)
  | act f k ih =>
    intro s₁ hRs x hf
    rw [hR s s₁ hRs] at hf
    simp only [wp, hf] at h
    exact ih x.1 h

theorem wlp_alone {p : Prog S ε α} (h : p.wp .any t Q s) : p.wlp Alone t Q s :=
  wlp_of_wp (fun _ _ h => h) h

/-- What every step of a call keeps, the call keeps where nobody else does anything. -/
theorem wlp_within {G : S → S → Prop} (hrefl : ∀ s, G s s)
    (htrans : ∀ {s s₁ s₂}, G s s₁ → G s₁ s₂ → G s s₂) {p : Prog S ε α} (h : Within G p) :
    p.wlp Alone t (fun _ s' => G s s') s := by
  have hguar := h t s
  clear h
  induction p generalizing s with
  | done r => exact hrefl s
  | spin => trivial
  | choose k ih => exact fun b => ih b (hguar b)
  | act f k ih =>
    intro s₁ hs x hf
    obtain rfl : s₁ = s := hs
    obtain ⟨hstep, hrest⟩ := hguar x hf
    exact wlp_mono (ih x.1 hrest) fun _ _ hq => htrans hstep hq

/-- A call on a component: the others move the component by `R'` and keep `F`, and so does
the call whatever it writes to the component. -/
theorem wlp_focus {R F : W → W → Prop} {R' : S → S → Prop} (get : W → S) (set : S → W → W)
    (hgs : ∀ s w, get (set s w) = s) (hrefl : ∀ w, F w w)
    (htrans : ∀ {w w₁ w₂}, F w w₁ → F w₁ w₂ → F w w₂)
    (hR : ∀ w w₁, R w w₁ → R' (get w) (get w₁) ∧ F w w₁) (hset : ∀ w s, F w (set s w))
    {p : Prog S ε α} {Q : Except ε α → S → Prop} {w : W} (h : p.wlp R' t Q (get w)) :
    (p.focus get set).wlp R t (fun r w' => Q r (get w') ∧ F w w') w := by
  induction p generalizing w with
  | done r => exact ⟨h, hrefl w⟩
  | spin => trivial
  | choose k ih => exact fun b => ih b (h b)
  | act f k ih =>
    intro w₁ hRw x hf
    obtain ⟨hget, hF⟩ := hR w w₁ hRw
    obtain ⟨y, hy, rfl⟩ := Option.map_eq_some_iff.mp hf
    have hnext : (k y.1).wlp R' t Q (get (set y.2 w₁)) := by
      rw [hgs]
      exact h (get w₁) hget y hy
    exact wlp_mono (ih y.1 hnext) fun r w' hw' =>
      ⟨hw'.1, htrans (htrans hF (hset w₁ y.2)) hw'.2⟩

/-- A guard that is held around a body and released whatever the body returns. -/
theorem wlp_guarded {enter leave : Prog S ε Unit} {body : Prog S ε α} (s₁ : S)
    (henter : enter.wlp R t (fun r s' => r = .ok () ∧ s' = s₁) s)
    (hbody : body.wlp R t (fun r s' => leave.wlp R t (fun r' s'' => r' = .ok () ∧ Q r s'') s') s₁) :
    (guarded enter leave body).wlp R t Q s := by
  rw [guarded, wlp_bind]
  refine wlp_mono henter ?_
  intro r s' hr
  obtain ⟨rfl, rfl⟩ := hr
  rw [after_ok, wlp_bind, wlp_attempt]
  refine wlp_mono hbody ?_
  intro r s' hleave
  rw [after_ok, wlp_bind]
  refine wlp_mono hleave ?_
  intro r' s'' hr'
  obtain ⟨rfl, hQ⟩ := hr'
  exact hQ

/-- If the call succeeds, `P` holds of its result and of the state it returns in. -/
def Yields (R : S → S → Prop) (t : Tid) (p : Prog S ε α) (P : α → S → Prop) (s : S) : Prop :=
  p.wlp R t (fun r s' => ∀ a, r = .ok a → P a s') s

section Yields
variable {P : α → S → Prop} {P' : β → S → Prop} {p : Prog S ε α} {f : α → Prog S ε β}

theorem yields_pure {a : α} (h : P a s) : (pure a : Prog S ε α).Yields R t P s := by
  intro a' heq
  cases heq
  exact h

theorem yields_throw (e : ε) : (throw e : Prog S ε α).Yields R t P s := by
  intro a heq
  cases heq

theorem Yields.mono (h : p.Yields R t P s) {P₁ : α → S → Prop} (hP : ∀ a s', P a s' → P₁ a s') :
    p.Yields R t P₁ s :=
  wlp_mono h fun _ s' hq a heq => hP a s' (hq a heq)

theorem yields_seq {Q : Except ε α → S → Prop} (h : p.wlp R t Q s)
    (hok : ∀ a s', Q (.ok a) s' → (f a).Yields R t P' s') : (p >>= f).Yields R t P' s := by
  apply (wlp_bind p f _).mpr
  refine wlp_mono h ?_
  intro r s' hq
  cases r with
  | ok a => exact hok a s' hq
  | error e =>
    intro b heq
    cases heq

theorem Yields.seq (h : p.Yields R t P s) (hf : ∀ a s', P a s' → (f a).Yields R t P' s') :
    (p >>= f).Yields R t P' s :=
  yields_seq h fun a s' hq => hf a s' (hq a rfl)

/-- The error of the first part is a value for the second. -/
theorem yields_attempt {Q : Except ε α → S → Prop} {g : Except ε α → Prog S ε β}
    (h : p.wlp R t Q s) (hg : ∀ r s', Q r s' → (g r).Yields R t P' s') :
    (p.attempt >>= g).Yields R t P' s := by
  refine yields_seq ((wlp_attempt p fun r s' => ∃ a, r = .ok a ∧ Q a s').mpr ?_) ?_
  · exact wlp_mono h fun r s' hq => ⟨r, rfl, hq⟩
  · intro r s' hq
    obtain ⟨r', heq, hq⟩ := hq
    cases heq
    exact hg r s' hq

theorem yields_ofExcept {r : Except ε α} (hf : ∀ a, r = .ok a → (f a).Yields R t P' s) :
    (ofExcept r >>= f).Yields R t P' s := by
  cases r with
  | ok a => exact hf a rfl
  | error e =>
    intro b heq
    cases heq

/-- A cleanup that ends in an error does not succeed. -/
theorem yields_cleanup (p : Prog S ε α) (e : ε) :
    (p >>= fun _ => (throw e : Prog S ε β)).Yields R t P' s :=
  yields_seq (wlp_trivial p (Q := fun _ _ => True) fun _ _ => trivial) fun _ _ _ => yields_throw e

/-- A guard that is held around a body. -/
theorem yields_guarded {enter leave : Prog S ε Unit} {body : Prog S ε α} {P' : α → S → Prop}
    {Q : S → Prop} (henter : enter.Yields R t (fun _ s' => Q s') s)
    (hbody : ∀ s', Q s' → body.Yields R t P s')
    (hleave : ∀ a s', P a s' → leave.Yields R t (fun _ s'' => P' a s'') s') :
    (guarded enter leave body).Yields R t P' s := by
  refine henter.seq ?_
  intro _ s₁ hs₁
  refine yields_attempt (hbody s₁ hs₁) ?_
  intro r s₂ hr
  cases r with
  | error e => exact yields_cleanup leave e
  | ok a =>
    refine (hleave a s₂ (hr a rfl)).seq ?_
    intro _ s₃ hs₃
    exact yields_pure hs₃

end Yields

end FlorestaDb.Program.Prog
