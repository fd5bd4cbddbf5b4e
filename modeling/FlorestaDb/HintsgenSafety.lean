import FlorestaDb.Hintsgen

/-! Removers never run ahead of adders. What was done with a height is a function of the
adder that owns it and of where this adder stands, and an adder's slot never passes the
height it is working on. -/
namespace FlorestaDb.Hintsgen

variable {job : Job} {s s' : State} {d d' : AddSide} {a : Nat}

/-- What the blocks promise: every spent outpoint was created before, and is spent once. -/
structure Job.WellFormed (job : Job) : Prop where
  adders_pos : 0 < job.adders
  size_pos : 0 < job.size
  created : ∀ h < job.endHeight, ∀ key ∈ job.spends h,
    ∃ h' ≤ h, key ∈ (job.outputs h').map Prod.fst
  nodup : ∀ h < job.endHeight, (job.spends h).Nodup
  once : ∀ h < job.endHeight, ∀ h' < job.endHeight, ∀ key ∈ job.spends h, key ∈ job.spends h' →
    h = h'

section Slots
variable {slots slots' : Nat → Nat} {n limit : Nat}

theorem le_minimumProgress :
    limit ≤ minimumProgress slots n job.endHeight ↔
      limit ≤ job.endHeight ∧ ∀ i < n, limit ≤ slots i := by
  rw [minimumProgress]
  induction n with
  | zero => simp
  | succ n ih =>
    rw [List.range_succ, List.foldl_append, List.foldl_cons, List.foldl_nil, Nat.le_min, ih]
    constructor
    · intro h
      refine ⟨h.1.1, ?_⟩
      intro i hi
      rcases Nat.lt_succ_iff_lt_or_eq.mp hi with hlt | rfl
      · exact h.1.2 i hlt
      · exact h.2
    · intro h
      exact ⟨⟨h.1, fun i hi => h.2 i (Nat.lt_succ_of_lt hi)⟩, h.2 n (Nat.lt_succ_self n)⟩

theorem minimumProgress_le {i : Nat} (hi : i < n) :
    minimumProgress slots n job.endHeight ≤ slots i :=
  (le_minimumProgress.mp (Nat.le_refl _)).2 i hi

end Slots

section Adders

/-- Whether a height that the adder owns is in the database. -/
def AdderPc.inserted (x : Nat) : AdderPc → Bool
  | .claimed h _ | .publishStart h _ | .window h _ | .read h _ | .put h _ => x < h
  | .count h _ | .credit h _ | .publish h _ => x ≤ h
  | _ => true

def AdderPc.counted (x : Nat) : AdderPc → Bool
  | .claimed h _ | .publishStart h _ | .window h _ | .read h _ | .put h _ | .count h _ => x < h
  | .credit h _ | .publish h _ => x ≤ h
  | _ => true

def AdderPc.credited (x : Nat) : AdderPc → Bool
  | .claimed h _ | .publishStart h _ | .window h _ | .read h _ | .put h _ | .count h _
  | .credit h _ => x < h
  | .publish h _ => x ≤ h
  | _ => true

/-- The adder `a` holds the heights from `h` to `e`, and nothing after them. -/
structure AddSide.Holds (d : AddSide) (a h e : Nat) : Prop where
  lt : h < e
  le : e ≤ d.next
  own : ∀ x, h ≤ x → x < e → d.owner x = some a
  last : ∀ x, d.owner x = some a → x < e

/-- What the state says about an adder that stands at `pc`. -/
def AddSide.At (job : Job) (d : AddSide) (a : Nat) : AdderPc → Prop
  | .claim => True
  | .exchange start => d.slots a ≤ start ∧ start < job.endHeight
  | .claimed h e | .publishStart h e => d.slots a ≤ h ∧ d.Holds a h e
  | .window h e | .read h e | .put h e | .count h e | .credit h e | .publish h e =>
    d.slots a = h ∧ d.Holds a h e
  | .finish => job.endHeight ≤ d.next
  | .done => job.endHeight ≤ d.next ∧ d.slots a = job.endHeight

/-- The height `x` was treated as far as `pc` says. -/
structure AddSide.Treated (job : Job) (d : AddSide) (x : Nat) (pc : AdderPc) : Prop where
  inserted : d.inserted x = pc.inserted x
  counts : d.counts x = if pc.counted x then some (job.outputs x).length else none
  credited : d.credited x = pc.credited x

structure AddInv (job : Job) (d : AddSide) : Prop where
  next_le : d.next ≤ job.endHeight
  claims : ∀ x, d.claims x = if x < d.next then 1 else 0
  owned : ∀ x < d.next, ∃ a < job.adders, d.owner x = some a
  free : ∀ x, d.next ≤ x → d.owner x = none ∧ d.inserted x = false ∧ d.counts x = none ∧
    d.credited x = false
  slot_le : ∀ a, d.slots a ≤ d.next
  place : ∀ a, d.At job a (d.pcs a)
  treated : ∀ x a, d.owner x = some a → d.Treated job x (d.pcs a)

theorem addInv_initial (job : Job) : AddInv job .initial where
  next_le := Nat.zero_le _
  claims := fun x => by simp [AddSide.initial]
  owned := fun x hx => absurd hx (Nat.not_lt_zero x)
  free := fun x _ => ⟨rfl, rfl, rfl, rfl⟩
  slot_le := fun _ => Nat.le_refl _
  place := fun _ => trivial
  treated := fun x a h => by cases h

theorem AddInv.owner_lt (hi : AddInv job d) {x a : Nat} (h : d.owner x = some a) : x < d.next := by
  by_contra hge
  rw [(hi.free x (Nat.not_lt.mp hge)).1] at h
  cases h

/-- The other adders do not see a step that leaves their slots and their heights alone. -/
theorem AddSide.At.frame {b : Nat} {pc : AdderPc} (h : d.At job b pc)
    (hslot : d'.slots b = d.slots b) (hnext : d.next ≤ d'.next)
    (hown : ∀ x < d.next, d'.owner x = d.owner x)
    (hlast : ∀ x, d'.owner x = some b → d.owner x = some b) : d'.At job b pc := by
  have hheld : ∀ {h e : Nat}, d.Holds b h e → d'.Holds b h e := by
    intro h e hh
    refine ⟨hh.lt, Nat.le_trans hh.le hnext, ?_, fun x hx => hh.last x (hlast x hx)⟩
    intro x hx hlt
    rw [hown x (Nat.lt_of_lt_of_le hlt hh.le)]
    exact hh.own x hx hlt
  cases pc with
  | claim => exact trivial
  | exchange start => exact ⟨by rw [hslot]; exact h.1, h.2⟩
  | claimed k e => exact ⟨by rw [hslot]; exact h.1, hheld h.2⟩
  | publishStart k e => exact ⟨by rw [hslot]; exact h.1, hheld h.2⟩
  | window k e => exact ⟨hslot.trans h.1, hheld h.2⟩
  | read k e => exact ⟨hslot.trans h.1, hheld h.2⟩
  | put k e => exact ⟨hslot.trans h.1, hheld h.2⟩
  | count k e => exact ⟨hslot.trans h.1, hheld h.2⟩
  | credit k e => exact ⟨hslot.trans h.1, hheld h.2⟩
  | publish k e => exact ⟨hslot.trans h.1, hheld h.2⟩
  | finish => exact Nat.le_trans h hnext
  | done => exact ⟨Nat.le_trans h.1 hnext, hslot.trans h.2⟩

/-- A step that claims nothing: the adder `a` goes to `pc`, and only its own heights are
treated any further. -/
theorem AddInv.move (hi : AddInv job d) {pc : AdderPc} (hnext : d'.next = d.next)
    (howner : d'.owner = d.owner) (hclaims : d'.claims = d.claims)
    (hpcs : d'.pcs = Function.update d.pcs a pc) (hslots : ∀ b ≠ a, d'.slots b = d.slots b)
    (hslot : d'.slots a ≤ d.next) (hat : d'.At job a pc)
    (htreated : ∀ x, d.owner x = some a → d'.Treated job x pc)
    (hothers : ∀ x, d.owner x ≠ some a → d'.inserted x = d.inserted x ∧
      d'.counts x = d.counts x ∧ d'.credited x = d.credited x) : AddInv job d' where
  next_le := by rw [hnext]; exact hi.next_le
  claims := by
    rw [hclaims, hnext]
    exact hi.claims
  owned := by
    rw [hnext, howner]
    exact hi.owned
  free := by
    intro x hx
    rw [hnext] at hx
    obtain ⟨hnone, hins, hcounts, hcred⟩ := hi.free x hx
    obtain ⟨hins', hcounts', hcred'⟩ := hothers x (by rw [hnone]; exact fun h => by cases h)
    rw [howner, hins', hcounts', hcred']
    exact ⟨hnone, hins, hcounts, hcred⟩
  slot_le := by
    intro b
    rw [hnext]
    by_cases hb : b = a
    · rw [hb]
      exact hslot
    · rw [hslots b hb]
      exact hi.slot_le b
  place := by
    intro b
    rw [hpcs]
    by_cases hb : b = a
    · rw [hb, Function.update_self]
      exact hat
    · rw [Function.update_of_ne hb]
      refine (hi.place b).frame (hslots b hb) (by rw [hnext]) ?_ ?_
      · intro x _
        rw [howner]
      · intro x hx
        rw [← howner]
        exact hx
  treated := by
    intro x b hx
    rw [howner] at hx
    rw [hpcs]
    by_cases hb : b = a
    · rw [hb] at hx ⊢
      rw [Function.update_self]
      exact htreated x hx
    · rw [Function.update_of_ne hb]
      obtain ⟨hins, hcounts, hcred⟩ := hi.treated x b hx
      obtain ⟨hins', hcounts', hcred'⟩ := hothers x (by
        rw [hx]
        exact fun h => hb (Option.some.inj h))
      exact ⟨hins'.trans hins, hcounts'.trans hcounts, hcred'.trans hcred⟩

/-- A step of control only. -/
theorem AddInv.goto (hi : AddInv job d) {pc : AdderPc} (hat : d.At job a pc)
    (hsame : ∀ x, d.owner x = some a → pc.inserted x = (d.pcs a).inserted x ∧
      pc.counted x = (d.pcs a).counted x ∧ pc.credited x = (d.pcs a).credited x) :
    AddInv job (d.goto a pc) := by
  refine hi.move rfl rfl rfl rfl (fun _ _ => rfl) (hi.slot_le a) ?_ ?_ fun x _ => ⟨rfl, rfl, rfl⟩
  · exact hat.frame rfl (Nat.le_refl _) (fun _ _ => rfl) fun _ h => h
  · intro x hx
    obtain ⟨hins, hcounts, hcred⟩ := hi.treated x a hx
    obtain ⟨h1, h2, h3⟩ := hsame x hx
    refine ⟨?_, ?_, ?_⟩
    · rw [h1]
      exact hins
    · rw [h2]
      exact hcounts
    · rw [h3]
      exact hcred

/-- A new slot of the adder `a`, and the place that goes with it. -/
theorem AddInv.publish (hi : AddInv job d) {pc : AdderPc} {completed : Nat}
    (hle : completed ≤ d.next)
    (hat : ({ d with slots := Function.update d.slots a completed }).At job a pc)
    (hsame : ∀ x, d.owner x = some a → pc.inserted x = (d.pcs a).inserted x ∧
      pc.counted x = (d.pcs a).counted x ∧ pc.credited x = (d.pcs a).credited x) :
    AddInv job (({ d with slots := Function.update d.slots a completed }).goto a pc) := by
  refine hi.move rfl rfl rfl rfl ?_ ?_ ?_ ?_ fun x _ => ⟨rfl, rfl, rfl⟩
  · intro b hb
    exact Function.update_of_ne hb _ _
  · change Function.update d.slots a completed a ≤ d.next
    rw [Function.update_self]
    exact hle
  · exact hat.frame rfl (Nat.le_refl _) (fun _ _ => rfl) fun _ h => h
  · intro x hx
    obtain ⟨hins, hcounts, hcred⟩ := hi.treated x a hx
    obtain ⟨h1, h2, h3⟩ := hsame x hx
    refine ⟨?_, ?_, ?_⟩
    · rw [h1]
      exact hins
    · rw [h2]
      exact hcounts
    · rw [h3]
      exact hcred

/-- Claiming the next range: its heights were nobody's. -/
theorem AddInv.claim (hi : AddInv job d) (ha : a < job.adders) (hsize : 0 < job.size)
    (hlt : d.next < job.endHeight) (hslot : d.slots a ≤ d.next)
    (hdone : ∀ x, (d.pcs a).inserted x = true ∧ (d.pcs a).counted x = true ∧
      (d.pcs a).credited x = true) :
    AddInv job (({ d with
      next := job.rangeEnd d.next
      owner := markRange d.owner d.next (job.rangeEnd d.next) (some a)
      claims := bumpRange d.claims d.next (job.rangeEnd d.next) }).goto a
        (.claimed d.next (job.rangeEnd d.next))) := by
  have hstop : d.next < job.rangeEnd d.next := by
    rw [Job.rangeEnd]
    omega
  have hend : job.rangeEnd d.next ≤ job.endHeight := Nat.min_le_right _ _
  have hin : ∀ x, d.next ≤ x → x < job.rangeEnd d.next →
      markRange d.owner d.next (job.rangeEnd d.next) (some a) x = some a := by
    intro x hx hlt'
    rw [markRange, if_pos ⟨hx, hlt'⟩]
  have hout : ∀ x, ¬(d.next ≤ x ∧ x < job.rangeEnd d.next) →
      markRange d.owner d.next (job.rangeEnd d.next) (some a) x = d.owner x := by
    intro x hx
    rw [markRange, if_neg hx]
  refine ⟨hend, ?_, ?_, ?_, ?_, ?_, ?_⟩
  · intro x
    change bumpRange d.claims d.next (job.rangeEnd d.next) x = if x < job.rangeEnd d.next then 1 else 0
    rw [bumpRange, hi.claims x]
    by_cases hx : d.next ≤ x ∧ x < job.rangeEnd d.next
    · rw [if_pos hx, if_neg (by omega), if_pos hx.2]
    · rw [if_neg hx]
      by_cases hold : x < d.next
      · rw [if_pos hold, if_pos (by omega)]
      · rw [if_neg hold, if_neg (by omega)]
  · intro x hx
    change ∃ b < job.adders, markRange d.owner d.next (job.rangeEnd d.next) (some a) x = some b
    by_cases hnew : d.next ≤ x
    · exact ⟨a, ha, hin x hnew hx⟩
    · obtain ⟨b, hb, hown⟩ := hi.owned x (by omega)
      exact ⟨b, hb, (hout x (by omega)).trans hown⟩
  · intro x hx
    change job.rangeEnd d.next ≤ x at hx
    obtain ⟨hnone, hrest⟩ := hi.free x (by omega)
    exact ⟨(hout x (by omega)).trans hnone, hrest⟩
  · intro b
    exact Nat.le_trans (hi.slot_le b) (Nat.le_of_lt hstop)
  · intro b
    change AddSide.At job _ b (Function.update d.pcs a _ b)
    by_cases hb : b = a
    · subst hb
      rw [Function.update_self]
      refine ⟨hslot, hstop, Nat.le_refl _, hin, ?_⟩
      intro x hx
      change markRange d.owner d.next (job.rangeEnd d.next) (some b) x = some b at hx
      by_cases hnew : d.next ≤ x ∧ x < job.rangeEnd d.next
      · exact hnew.2
      · rw [hout x hnew] at hx
        have := hi.owner_lt hx
        omega
    · rw [Function.update_of_ne hb]
      refine (hi.place b).frame rfl (Nat.le_of_lt hstop) ?_ ?_
      · intro x hx
        exact hout x (by omega)
      · intro x hx
        change markRange d.owner d.next (job.rangeEnd d.next) (some a) x = some b at hx
        by_cases hnew : d.next ≤ x ∧ x < job.rangeEnd d.next
        · rw [hin x hnew.1 hnew.2] at hx
          exact absurd (Option.some.inj hx).symm hb
        · rw [hout x hnew] at hx
          exact hx
  · intro x b hx
    change markRange d.owner d.next (job.rangeEnd d.next) (some a) x = some b at hx
    change AddSide.Treated job _ x (Function.update d.pcs a _ b)
    by_cases hnew : d.next ≤ x ∧ x < job.rangeEnd d.next
    · rw [hin x hnew.1 hnew.2] at hx
      cases hx
      rw [Function.update_self]
      obtain ⟨-, hins, hcounts, hcred⟩ := hi.free x hnew.1
      have hnot : decide (x < d.next) = false := decide_eq_false (by omega)
      refine ⟨hins.trans hnot.symm, ?_, hcred.trans hnot.symm⟩
      change d.counts x = if decide (x < d.next) then _ else _
      rw [hnot]
      exact hcounts
    · rw [hout x hnew] at hx
      by_cases hb : b = a
      · subst hb
        rw [Function.update_self]
        have hlt' : decide (x < d.next) = true := decide_eq_true (hi.owner_lt hx)
        obtain ⟨hins, hcounts, hcred⟩ := hi.treated x b hx
        obtain ⟨h1, h2, h3⟩ := hdone x
        rw [h1] at hins
        rw [h2] at hcounts
        rw [h3] at hcred
        refine ⟨hins.trans hlt'.symm, ?_, hcred.trans hlt'.symm⟩
        change d.counts x = if decide (x < d.next) then _ else _
        rw [hlt']
        exact hcounts
      · rw [Function.update_of_ne hb]
        obtain ⟨hins, hcounts, hcred⟩ := hi.treated x b hx
        exact ⟨hins, hcounts, hcred⟩

/-- The accounts after a step of an adder: untouched, or one more height in them. -/
inductive Booked (job : Job) (s s' : State) : Prop where
  | same (live : s'.live = s.live) (database : s'.database = s.database)
      (inserted : s'.add.inserted = s.add.inserted) (credited : s'.add.credited = s.add.credited)
  | put (h : Nat) (lt : h < job.endHeight) (fresh : s.add.inserted h = false)
      (live : s'.live = s.live) (database : s'.database = s.database.pushAll (job.outputs h))
      (inserted : s'.add.inserted = Function.update s.add.inserted h true)
      (credited : s'.add.credited = s.add.credited)
  | credit (h : Nat) (lt : h < job.endHeight) (fresh : s.add.credited h = false)
      (live : s'.live = s.live + (job.outputs h).length) (database : s'.database = s.database)
      (inserted : s'.add.inserted = s.add.inserted)
      (credited : s'.add.credited = Function.update s.add.credited h true)

/-- The failures that are not ruled out: errors from outside and the aborts they cause. -/
def Fault.Tolerated : Fault → Prop
  | .outside | .aborted | .overflow => True
  | _ => False

/-- What a step of an adder does. -/
structure AddStep (job : Job) (s s' : State) : Prop where
  inv : AddInv job s'.add
  remove : s'.remove = s.remove
  slots : ∀ b, s.add.slots b ≤ s'.add.slots b
  booked : Booked job s s'
  faults : ∀ b f, s'.add.faults b = some f → s.add.faults b = some f ∨ f.Tolerated

theorem AddInv.fails (hi : AddInv job d) (faults : Nat → Option Fault) :
    AddInv job { d with faults := faults } where
  next_le := hi.next_le
  claims := hi.claims
  owned := hi.owned
  free := hi.free
  slot_le := hi.slot_le
  place := fun b => (hi.place b).frame rfl (Nat.le_refl _) (fun _ _ => rfl) fun _ h => h
  treated := by
    intro x b hx
    obtain ⟨hins, hcounts, hcred⟩ := hi.treated x b hx
    exact ⟨hins, hcounts, hcred⟩

theorem addStep_fails (hi : AddInv job s.add) {f : Fault} (hf : f.Tolerated) :
    AddStep job s (s.adderFails a f) where
  inv := hi.fails _
  remove := rfl
  slots := fun _ => Nat.le_refl _
  booked := .same rfl rfl rfl rfl
  faults := by
    intro b f' hb
    by_cases heq : b = a
    · subst heq
      rw [State.adderFails] at hb
      simp only [Function.update_self, Option.some.injEq] at hb
      exact Or.inr (hb ▸ hf)
    · rw [State.adderFails] at hb
      simp only [Function.update_of_ne heq] at hb
      exact Or.inl hb

theorem addStep_goto (hi : AddInv job s.add) {pc : AdderPc} (hat : s.add.At job a pc)
    (hsame : ∀ x, s.add.owner x = some a → pc.inserted x = (s.add.pcs a).inserted x ∧
      pc.counted x = (s.add.pcs a).counted x ∧ pc.credited x = (s.add.pcs a).credited x) :
    AddStep job s (s.adderTo a pc) :=
  ⟨hi.goto hat hsame, rfl, fun _ => Nat.le_refl _, .same rfl rfl rfl rfl, fun _ _ h => Or.inl h⟩

theorem addStep_publish (hi : AddInv job s.add) {pc : AdderPc} {completed : Nat}
    (hold : s.add.slots a ≤ completed) (hle : completed ≤ s.add.next)
    (hat : ({ s.add with slots := Function.update s.add.slots a completed }).At job a pc)
    (hsame : ∀ x, s.add.owner x = some a → pc.inserted x = (s.add.pcs a).inserted x ∧
      pc.counted x = (s.add.pcs a).counted x ∧ pc.credited x = (s.add.pcs a).credited x) :
    AddStep job s (s.publishAdder job a completed pc) := by
  have hcan : canPublish job (s.add.slots a) completed = true := by
    simp only [canPublish, Bool.and_eq_true, decide_eq_true_eq]
    exact ⟨hold, Nat.le_trans hle hi.next_le⟩
  rw [State.publishAdder, if_pos hcan]
  refine ⟨hi.publish hle hat hsame, rfl, ?_, .same rfl rfl rfl rfl, fun _ _ h => Or.inl h⟩
  intro b
  change s.add.slots b ≤ Function.update s.add.slots a completed b
  by_cases hb : b = a
  · rw [hb, Function.update_self]
    exact hold
  · rw [Function.update_of_ne hb]

theorem AddSide.Holds.congr {h e : Nat} (hh : d.Holds a h e) (hnext : d'.next = d.next)
    (howner : d'.owner = d.owner) : d'.Holds a h e := by
  refine ⟨hh.lt, ?_, ?_, ?_⟩
  · rw [hnext]
    exact hh.le
  · rw [howner]
    exact hh.own
  · rw [howner]
    exact hh.last

/-- The height an adder works on is its own, and it is below the end. -/
theorem AddInv.working (hi : AddInv job d) {h e : Nat} (hh : d.Holds a h e) :
    d.owner h = some a ∧ h < job.endHeight :=
  ⟨hh.own h (Nat.le_refl h) hh.lt, Nat.lt_of_lt_of_le hh.lt (Nat.le_trans hh.le hi.next_le)⟩

/-- The three steps that treat the height `h` of an adder, with the marks they set. -/
theorem AddInv.treat (hi : AddInv job d) {h e : Nat} {pc : AdderPc} (hh : d.Holds a h e)
    (hnext : d'.next = d.next) (howner : d'.owner = d.owner) (hclaims : d'.claims = d.claims)
    (hslots : d'.slots = d.slots) (hpcs : d'.pcs = Function.update d.pcs a pc)
    (hat : d'.At job a pc) (hat' : d'.Treated job h pc)
    (hothers : ∀ x ≠ h, d'.inserted x = d.inserted x ∧ d'.counts x = d.counts x ∧
      d'.credited x = d.credited x)
    (hsame : ∀ x ≠ h, pc.inserted x = (d.pcs a).inserted x ∧
      pc.counted x = (d.pcs a).counted x ∧ pc.credited x = (d.pcs a).credited x) :
    AddInv job d' := by
  refine hi.move hnext howner hclaims hpcs (fun b _ => by rw [hslots]) ?_ hat ?_ ?_
  · rw [hslots]
    exact hi.slot_le a
  · intro x hx
    by_cases heq : x = h
    · rw [heq]
      exact hat'
    · obtain ⟨hins, hcounts, hcred⟩ := hi.treated x a hx
      obtain ⟨h1, h2, h3⟩ := hsame x heq
      obtain ⟨g1, g2, g3⟩ := hothers x heq
      refine ⟨?_, ?_, ?_⟩
      · rw [g1, h1]
        exact hins
      · rw [g2, h2]
        exact hcounts
      · rw [g3, h3]
        exact hcred
  · intro x hx
    apply hothers x
    rintro rfl
    exact hx (hi.working hh).1

theorem decide_lt_le {x h : Nat} (hne : x ≠ h) : decide (x ≤ h) = decide (x < h) := by
  rw [decide_eq_decide]
  omega

theorem adderStep_spec (hsize : 0 < job.size) (hi : AddInv job s.add) (ha : a < job.adders)
    (hstep : adderStep job a s = some s') : AddStep job s s' := by
  have hplace := hi.place a
  rw [adderStep] at hstep
  cases hpc : s.add.pcs a with
  | claim =>
    rw [hpc] at hstep
    dsimp only at hstep
    by_cases hfull : s.add.next ≥ job.endHeight
    · rw [if_pos hfull] at hstep
      cases hstep
      exact addStep_goto hi hfull fun x _ => by rw [hpc]; exact ⟨rfl, rfl, rfl⟩
    · rw [if_neg hfull] at hstep
      cases hstep
      refine addStep_goto hi ⟨hi.slot_le a, Nat.not_le.mp hfull⟩ fun x _ => ?_
      rw [hpc]
      exact ⟨rfl, rfl, rfl⟩
  | exchange start =>
    rw [hpc] at hstep hplace
    dsimp only at hstep
    by_cases heq : s.add.next = start
    · rw [if_pos heq] at hstep
      cases hstep
      subst heq
      refine ⟨hi.claim ha hsize hplace.2 hplace.1 ?_, rfl, fun _ => Nat.le_refl _,
        .same rfl rfl rfl rfl, fun _ _ h => Or.inl h⟩
      intro x
      rw [hpc]
      exact ⟨rfl, rfl, rfl⟩
    · rw [if_neg heq] at hstep
      cases hstep
      refine addStep_goto hi trivial fun x _ => ?_
      rw [hpc]
      exact ⟨rfl, rfl, rfl⟩
  | claimed start stop =>
    rw [hpc] at hstep hplace
    dsimp only at hstep
    by_cases hab : s.aborted = true
    · rw [if_pos hab] at hstep
      cases hstep
      exact addStep_fails hi trivial
    · rw [if_neg hab] at hstep
      cases hstep
      refine addStep_goto hi hplace fun x _ => ?_
      rw [hpc]
      exact ⟨rfl, rfl, rfl⟩
  | publishStart start stop =>
    rw [hpc] at hstep hplace
    cases hstep
    have hheld := hplace.2
    refine addStep_publish hi hplace.1 (Nat.le_trans (Nat.le_of_lt hheld.lt) hheld.le) ?_ ?_
    · exact ⟨Function.update_self _ _ _, hheld.congr rfl rfl⟩
    · intro x _
      rw [hpc]
      exact ⟨rfl, rfl, rfl⟩
  | window h stop =>
    rw [hpc] at hstep hplace
    dsimp only at hstep
    by_cases hab : s.aborted = true
    · rw [if_pos hab] at hstep
      cases hstep
      exact addStep_fails hi trivial
    · rw [if_neg hab] at hstep
      by_cases hcan : s.adderCanProcess job h = true
      · rw [if_pos hcan] at hstep
        cases hstep
        refine addStep_goto hi hplace fun x _ => ?_
        rw [hpc]
        exact ⟨rfl, rfl, rfl⟩
      · rw [if_neg hcan] at hstep
        cases hstep
  | read h stop =>
    rw [hpc] at hstep hplace
    dsimp only at hstep
    by_cases hab : s.aborted = true
    · rw [if_pos hab] at hstep
      cases hstep
      exact addStep_fails hi trivial
    · rw [if_neg hab] at hstep
      cases hstep
      refine addStep_goto hi hplace fun x _ => ?_
      rw [hpc]
      exact ⟨rfl, rfl, rfl⟩
  | put h stop =>
    rw [hpc] at hstep hplace
    cases hstep
    obtain ⟨hslot, hheld⟩ := hplace
    obtain ⟨hown, hlt⟩ := hi.working hheld
    obtain ⟨hins, hcounts, hcred⟩ := hi.treated h a hown
    rw [hpc] at hins hcounts hcred
    have hnot : decide (h < h) = false := decide_eq_false (Nat.lt_irrefl h)
    refine ⟨?_, rfl, fun _ => Nat.le_refl _,
      .put h hlt (hins.trans hnot) rfl rfl rfl rfl, fun _ _ h => Or.inl h⟩
    refine hi.treat hheld rfl rfl rfl rfl rfl ⟨hslot, hheld.congr rfl rfl⟩ ⟨?_, hcounts, hcred⟩ ?_ ?_
    · change Function.update s.add.inserted h true h = decide (h ≤ h)
      rw [Function.update_self, decide_eq_true (Nat.le_refl h)]
    · intro x hx
      exact ⟨Function.update_of_ne hx _ _, rfl, rfl⟩
    · intro x hx
      rw [hpc]
      exact ⟨decide_lt_le hx, rfl, rfl⟩
  | count h stop =>
    rw [hpc] at hstep hplace
    dsimp only at hstep
    obtain ⟨hslot, hheld⟩ := hplace
    obtain ⟨hown, hlt⟩ := hi.working hheld
    obtain ⟨hins, hcounts, hcred⟩ := hi.treated h a hown
    rw [hpc] at hins hcounts hcred
    have hnot : decide (h < h) = false := decide_eq_false (Nat.lt_irrefl h)
    have hnone : s.add.counts h = none := by
      rw [hcounts]
      change (if decide (h < h) then _ else _) = _
      rw [hnot]
      rfl
    rw [hnone] at hstep
    cases hstep
    refine ⟨?_, rfl, fun _ => Nat.le_refl _, .same rfl rfl rfl rfl, fun _ _ h => Or.inl h⟩
    refine hi.treat hheld rfl rfl rfl rfl rfl ⟨hslot, hheld.congr rfl rfl⟩ ⟨hins, ?_, hcred⟩ ?_ ?_
    · change Function.update s.add.counts h (some (job.outputs h).length) h =
        if decide (h ≤ h) then _ else _
      rw [Function.update_self, decide_eq_true (Nat.le_refl h), if_pos rfl]
    · intro x hx
      exact ⟨rfl, Function.update_of_ne hx _ _, rfl⟩
    · intro x hx
      rw [hpc]
      exact ⟨rfl, decide_lt_le hx, rfl⟩
  | credit h stop =>
    rw [hpc] at hstep hplace
    dsimp only at hstep
    obtain ⟨hslot, hheld⟩ := hplace
    obtain ⟨hown, hlt⟩ := hi.working hheld
    obtain ⟨hins, hcounts, hcred⟩ := hi.treated h a hown
    rw [hpc] at hins hcounts hcred
    have hnot : decide (h < h) = false := decide_eq_false (Nat.lt_irrefl h)
    by_cases hfits : s.live + (job.outputs h).length < u64Bound
    · rw [if_pos hfits] at hstep
      cases hstep
      refine ⟨?_, rfl, fun _ => Nat.le_refl _,
        .credit h hlt (hcred.trans hnot) rfl rfl rfl rfl, fun _ _ h => Or.inl h⟩
      refine hi.treat hheld rfl rfl rfl rfl rfl ⟨hslot, hheld.congr rfl rfl⟩ ⟨hins, hcounts, ?_⟩
        ?_ ?_
      · change Function.update s.add.credited h true h = decide (h ≤ h)
        rw [Function.update_self, decide_eq_true (Nat.le_refl h)]
      · intro x hx
        exact ⟨rfl, rfl, Function.update_of_ne hx _ _⟩
      · intro x hx
        rw [hpc]
        exact ⟨rfl, rfl, decide_lt_le hx⟩
    · rw [if_neg hfits] at hstep
      cases hstep
      exact addStep_fails hi trivial
  | publish h stop =>
    rw [hpc] at hstep hplace
    cases hstep
    obtain ⟨hslot, hheld⟩ := hplace
    have hlt := hheld.lt
    have hle : h + 1 ≤ s.add.next := Nat.le_trans hlt hheld.le
    by_cases hmore : h + 1 < stop
    · rw [if_pos hmore]
      refine addStep_publish hi (by omega) hle ⟨Function.update_self _ _ _, ?_⟩ ?_
      · exact ⟨hmore, hheld.le, fun x hx => hheld.own x (by omega), hheld.last⟩
      · intro x _
        have hx : decide (x < h + 1) = decide (x ≤ h) := by
          rw [decide_eq_decide]
          omega
        rw [hpc]
        exact ⟨hx, hx, hx⟩
    · rw [if_neg hmore]
      refine addStep_publish hi (by omega) hle trivial ?_
      intro x hx
      have hxlt := hheld.last x hx
      have hle' : true = decide (x ≤ h) := (decide_eq_true (by omega)).symm
      rw [hpc]
      exact ⟨hle', hle', hle'⟩
  | finish =>
    rw [hpc] at hstep hplace
    cases hstep
    have hend : job.endHeight ≤ s.add.next := hplace
    refine addStep_publish hi (Nat.le_trans (hi.slot_le a) hi.next_le) hend
      ⟨hend, Function.update_self _ _ _⟩ ?_
    intro x _
    rw [hpc]
    exact ⟨rfl, rfl, rfl⟩
  | done =>
    rw [hpc] at hstep
    cases hstep

/-- An adder has finished the heights of its own that are below its slot. -/
theorem AddSide.At.below {pc : AdderPc} (h : d.At job a pc) {x : Nat} (hx : x < d.slots a) :
    pc.inserted x = true ∧ pc.counted x = true ∧ pc.credited x = true := by
  have hlt : ∀ {k : Nat}, d.slots a ≤ k → decide (x < k) = true :=
    fun hk => decide_eq_true (Nat.lt_of_lt_of_le hx hk)
  have hle : ∀ {k : Nat}, d.slots a ≤ k → decide (x ≤ k) = true :=
    fun hk => decide_eq_true (Nat.le_of_lt (Nat.lt_of_lt_of_le hx hk))
  cases pc with
  | claim => exact ⟨rfl, rfl, rfl⟩
  | exchange start => exact ⟨rfl, rfl, rfl⟩
  | claimed k e => exact ⟨hlt h.1, hlt h.1, hlt h.1⟩
  | publishStart k e => exact ⟨hlt h.1, hlt h.1, hlt h.1⟩
  | window k e => exact ⟨hlt (Nat.le_of_eq h.1), hlt (Nat.le_of_eq h.1), hlt (Nat.le_of_eq h.1)⟩
  | read k e => exact ⟨hlt (Nat.le_of_eq h.1), hlt (Nat.le_of_eq h.1), hlt (Nat.le_of_eq h.1)⟩
  | put k e => exact ⟨hlt (Nat.le_of_eq h.1), hlt (Nat.le_of_eq h.1), hlt (Nat.le_of_eq h.1)⟩
  | count k e => exact ⟨hle (Nat.le_of_eq h.1), hlt (Nat.le_of_eq h.1), hlt (Nat.le_of_eq h.1)⟩
  | credit k e => exact ⟨hle (Nat.le_of_eq h.1), hle (Nat.le_of_eq h.1), hlt (Nat.le_of_eq h.1)⟩
  | publish k e => exact ⟨hle (Nat.le_of_eq h.1), hle (Nat.le_of_eq h.1), hle (Nat.le_of_eq h.1)⟩
  | finish => exact ⟨rfl, rfl, rfl⟩
  | done => exact ⟨rfl, rfl, rfl⟩

/-- The height is in the database, counted in its slot and part of the live outputs. -/
structure AddSide.Indexed (job : Job) (d : AddSide) (x : Nat) : Prop where
  inserted : d.inserted x = true
  counted : d.counts x = some (job.outputs x).length
  credited : d.credited x = true

/-- Every slot has passed the heights below the smallest slot. -/
theorem AddInv.indexed (hi : AddInv job d) (hpos : 0 < job.adders) {limit x : Nat}
    (hlimit : ∀ j < job.adders, limit ≤ d.slots j) (hx : x < limit) : d.Indexed job x := by
  have hnext : x < d.next :=
    Nat.lt_of_lt_of_le hx (Nat.le_trans (hlimit 0 hpos) (hi.slot_le 0))
  obtain ⟨b, hb, hown⟩ := hi.owned x hnext
  obtain ⟨hins, hcounts, hcred⟩ := hi.treated x b hown
  obtain ⟨h1, h2, h3⟩ := (hi.place b).below (Nat.lt_of_lt_of_le hx (hlimit b hb))
  refine ⟨hins.trans h1, ?_, hcred.trans h3⟩
  rw [hcounts, h2, if_pos rfl]

end Adders

section Removers
variable {adders adders' : Nat → Nat} {e e' : RemoveSide} {r : Nat}

def RemoverPc.popped (x : Nat) : RemoverPc → Bool
  | .publishStart start _ | .pop start _ => x < start
  | _ => true

def RemoverPc.debited (x : Nat) : RemoverPc → Bool
  | .publishStart start _ | .pop start _ | .debit start _ => x < start
  | _ => true

/-- No slot of an adder is below `limit`. -/
def Safe (job : Job) (adders : Nat → Nat) (limit : Nat) : Prop :=
  ∀ j < job.adders, limit ≤ adders j

theorem Safe.mono {limit : Nat} (h : Safe job adders limit) (hle : ∀ j, adders j ≤ adders' j) :
    Safe job adders' limit := fun j hj => Nat.le_trans (h j hj) (hle j)

/-- The remover `r` holds the heights from `start` to `stop`. -/
structure RemoveSide.Holds (job : Job) (adders : Nat → Nat) (e : RemoveSide) (r start stop : Nat) :
    Prop where
  lt : start < stop
  le : stop ≤ e.next
  own : ∀ x, start ≤ x → x < stop → e.owner x = some r
  last : ∀ x, e.owner x = some r → x < stop
  safe : Safe job adders stop

/-- What the state says about a remover that stands at `pc`. -/
def RemoveSide.At (job : Job) (adders : Nat → Nat) (e : RemoveSide) (r : Nat) : RemoverPc → Prop
  | .scan i low => ∀ j < i, low ≤ adders j
  | .claim limit => Safe job adders limit
  | .exchange limit start => Safe job adders limit ∧ e.slots r ≤ start ∧ start < job.endHeight ∧
    job.rangeEnd start ≤ limit
  | .publishStart start stop => e.slots r ≤ start ∧ e.Holds job adders r start stop
  | .pop start stop | .debit start stop | .publishEnd start stop =>
    e.slots r = start ∧ e.Holds job adders r start stop
  | .publishNext next => e.slots r ≤ next ∧ next ≤ e.next
  | .compare required _ _ | .waiting required => required ≤ job.endHeight
  | .finish => job.endHeight ≤ e.next
  | .done => job.endHeight ≤ e.next
  | _ => True

structure RemoveSide.Treated (e : RemoveSide) (x : Nat) (pc : RemoverPc) : Prop where
  popped : e.popped x = pc.popped x
  debited : e.debited x = pc.debited x

structure RemoveInv (job : Job) (adders : Nat → Nat) (e : RemoveSide) : Prop where
  next_le : e.next ≤ job.endHeight
  claims : ∀ x, e.claims x = if x < e.next then 1 else 0
  owned : ∀ x < e.next, ∃ r < job.removers, e.owner x = some r
  free : ∀ x, e.next ≤ x → e.owner x = none ∧ e.popped x = false ∧ e.debited x = false
  slot_le : ∀ r, e.slots r ≤ e.next
  behind : Safe job adders e.next
  place : ∀ r, e.At job adders r (e.pcs r)
  treated : ∀ x r, e.owner x = some r → e.Treated x (e.pcs r)

theorem removeInv_initial (job : Job) (adders : Nat → Nat) : RemoveInv job adders .initial where
  next_le := Nat.zero_le _
  claims := fun x => by simp [RemoveSide.initial]
  owned := fun x hx => absurd hx (Nat.not_lt_zero x)
  free := fun x _ => ⟨rfl, rfl, rfl⟩
  slot_le := fun _ => Nat.le_refl _
  behind := fun _ _ => Nat.zero_le _
  place := fun _ => trivial
  treated := fun x a h => by cases h

theorem RemoveInv.owner_lt (hi : RemoveInv job adders e) {x : Nat} (h : e.owner x = some r) :
    x < e.next := by
  by_contra hge
  rw [(hi.free x (Nat.not_lt.mp hge)).1] at h
  cases h

/-- A remover does not see the steps of others: slots of adders grow, and new ranges are not
its own. -/
theorem RemoveSide.At.frame {b : Nat} {pc : RemoverPc} (h : e.At job adders b pc)
    (hadd : ∀ j, adders j ≤ adders' j) (hslot : e'.slots b = e.slots b) (hnext : e.next ≤ e'.next)
    (hown : ∀ x < e.next, e'.owner x = e.owner x)
    (hlast : ∀ x, e'.owner x = some b → e.owner x = some b) : e'.At job adders' b pc := by
  have hheld : ∀ {start stop : Nat}, e.Holds job adders b start stop →
      e'.Holds job adders' b start stop := by
    intro start stop hh
    refine ⟨hh.lt, Nat.le_trans hh.le hnext, ?_, fun x hx => hh.last x (hlast x hx),
      hh.safe.mono hadd⟩
    intro x hx hlt
    rw [hown x (Nat.lt_of_lt_of_le hlt hh.le)]
    exact hh.own x hx hlt
  cases pc with
  | scan i low => exact fun j hj => Nat.le_trans (h j hj) (hadd j)
  | claim limit => exact Safe.mono h hadd
  | exchange limit start => exact ⟨h.1.mono hadd, by rw [hslot]; exact h.2.1, h.2.2⟩
  | publishStart start stop => exact ⟨by rw [hslot]; exact h.1, hheld h.2⟩
  | pop start stop => exact ⟨hslot.trans h.1, hheld h.2⟩
  | debit start stop => exact ⟨hslot.trans h.1, hheld h.2⟩
  | publishEnd start stop => exact ⟨hslot.trans h.1, hheld h.2⟩
  | publishNext next => exact ⟨by rw [hslot]; exact h.1, Nat.le_trans h.2 hnext⟩
  | finish => exact Nat.le_trans h hnext
  | done => exact Nat.le_trans h hnext
  | compare required i low => exact h
  | waiting required => exact h
  | check | isFinished | nextHeight | rangeEnd => exact trivial

/-- The adders have gone on. -/
theorem RemoveInv.advance (hi : RemoveInv job adders e) (hle : ∀ j, adders j ≤ adders' j) :
    RemoveInv job adders' e :=
  ⟨hi.next_le, hi.claims, hi.owned, hi.free, hi.slot_le, hi.behind.mono hle,
    fun r => (hi.place r).frame hle rfl (Nat.le_refl _) (fun _ _ => rfl) fun _ h => h, hi.treated⟩

/-- A step that claims nothing: the remover `r` goes to `pc`, and only its own heights are
treated any further. -/
theorem RemoveInv.move (hi : RemoveInv job adders e) {pc : RemoverPc} (hnext : e'.next = e.next)
    (howner : e'.owner = e.owner) (hclaims : e'.claims = e.claims)
    (hpcs : e'.pcs = Function.update e.pcs r pc) (hslots : ∀ b ≠ r, e'.slots b = e.slots b)
    (hslot : e'.slots r ≤ e.next) (hat : e'.At job adders r pc)
    (htreated : ∀ x, e.owner x = some r → e'.Treated x pc)
    (hothers : ∀ x, e.owner x ≠ some r → e'.popped x = e.popped x ∧ e'.debited x = e.debited x) :
    RemoveInv job adders e' where
  next_le := by rw [hnext]; exact hi.next_le
  claims := by
    rw [hclaims, hnext]
    exact hi.claims
  owned := by
    rw [hnext, howner]
    exact hi.owned
  free := by
    intro x hx
    rw [hnext] at hx
    obtain ⟨hnone, hpop, hdeb⟩ := hi.free x hx
    obtain ⟨hpop', hdeb'⟩ := hothers x (by rw [hnone]; exact fun h => by cases h)
    rw [howner, hpop', hdeb']
    exact ⟨hnone, hpop, hdeb⟩
  slot_le := by
    intro b
    rw [hnext]
    by_cases hb : b = r
    · rw [hb]
      exact hslot
    · rw [hslots b hb]
      exact hi.slot_le b
  behind := by
    rw [hnext]
    exact hi.behind
  place := by
    intro b
    rw [hpcs]
    by_cases hb : b = r
    · rw [hb, Function.update_self]
      exact hat
    · rw [Function.update_of_ne hb]
      refine (hi.place b).frame (fun _ => Nat.le_refl _) (hslots b hb) (by rw [hnext]) ?_ ?_
      · intro x _
        rw [howner]
      · intro x hx
        rw [← howner]
        exact hx
  treated := by
    intro x b hx
    rw [howner] at hx
    rw [hpcs]
    by_cases hb : b = r
    · rw [hb] at hx ⊢
      rw [Function.update_self]
      exact htreated x hx
    · rw [Function.update_of_ne hb]
      obtain ⟨hpop, hdeb⟩ := hi.treated x b hx
      obtain ⟨hpop', hdeb'⟩ := hothers x (by
        rw [hx]
        exact fun h => hb (Option.some.inj h))
      exact ⟨hpop'.trans hpop, hdeb'.trans hdeb⟩

/-- A step of control, with or without a new slot. -/
theorem RemoveInv.publish (hi : RemoveInv job adders e) {pc : RemoverPc} {completed : Nat}
    (hle : completed ≤ e.next)
    (hat : ({ e with slots := Function.update e.slots r completed }).At job adders r pc)
    (hsame : ∀ x, e.owner x = some r → pc.popped x = (e.pcs r).popped x ∧
      pc.debited x = (e.pcs r).debited x) :
    RemoveInv job adders (({ e with slots := Function.update e.slots r completed }).goto r pc) := by
  refine hi.move rfl rfl rfl rfl ?_ ?_ ?_ ?_ fun x _ => ⟨rfl, rfl⟩
  · intro b hb
    exact Function.update_of_ne hb _ _
  · change Function.update e.slots r completed r ≤ e.next
    rw [Function.update_self]
    exact hle
  · exact hat.frame (fun _ => Nat.le_refl _) rfl (Nat.le_refl _) (fun _ _ => rfl) fun _ h => h
  · intro x hx
    obtain ⟨hpop, hdeb⟩ := hi.treated x r hx
    obtain ⟨h1, h2⟩ := hsame x hx
    refine ⟨?_, ?_⟩
    · rw [h1]
      exact hpop
    · rw [h2]
      exact hdeb

theorem RemoveInv.goto (hi : RemoveInv job adders e) {pc : RemoverPc} (hat : e.At job adders r pc)
    (hsame : ∀ x, e.owner x = some r → pc.popped x = (e.pcs r).popped x ∧
      pc.debited x = (e.pcs r).debited x) : RemoveInv job adders (e.goto r pc) := by
  have hself : Function.update e.slots r (e.slots r) = e.slots := Function.update_eq_self _ _
  have h : RemoveInv job adders
      (({ e with slots := Function.update e.slots r (e.slots r) }).goto r pc) := by
    refine hi.publish (hi.slot_le r) ?_ hsame
    rw [hself]
    exact hat
  rw [hself] at h
  exact h

/-- Claiming the next range: its heights were nobody's, and every adder has passed them. -/
theorem RemoveInv.claim (hi : RemoveInv job adders e) (hr : r < job.removers)
    (hsize : 0 < job.size) (hlt : e.next < job.endHeight) (hslot : e.slots r ≤ e.next)
    (hsafe : Safe job adders (job.rangeEnd e.next))
    (hdone : ∀ x, (e.pcs r).popped x = true ∧ (e.pcs r).debited x = true) :
    RemoveInv job adders (({ e with
      next := job.rangeEnd e.next
      owner := markRange e.owner e.next (job.rangeEnd e.next) (some r)
      claims := bumpRange e.claims e.next (job.rangeEnd e.next) }).goto r
        (.publishStart e.next (job.rangeEnd e.next))) := by
  have hstop : e.next < job.rangeEnd e.next := by
    rw [Job.rangeEnd]
    omega
  have hend : job.rangeEnd e.next ≤ job.endHeight := Nat.min_le_right _ _
  have hin : ∀ x, e.next ≤ x → x < job.rangeEnd e.next →
      markRange e.owner e.next (job.rangeEnd e.next) (some r) x = some r := by
    intro x hx hlt'
    rw [markRange, if_pos ⟨hx, hlt'⟩]
  have hout : ∀ x, ¬(e.next ≤ x ∧ x < job.rangeEnd e.next) →
      markRange e.owner e.next (job.rangeEnd e.next) (some r) x = e.owner x := by
    intro x hx
    rw [markRange, if_neg hx]
  refine ⟨hend, ?_, ?_, ?_, ?_, hsafe, ?_, ?_⟩
  · intro x
    change bumpRange e.claims e.next (job.rangeEnd e.next) x = if x < job.rangeEnd e.next then 1 else 0
    rw [bumpRange, hi.claims x]
    by_cases hx : e.next ≤ x ∧ x < job.rangeEnd e.next
    · rw [if_pos hx, if_neg (by omega), if_pos hx.2]
    · rw [if_neg hx]
      by_cases hold : x < e.next
      · rw [if_pos hold, if_pos (by omega)]
      · rw [if_neg hold, if_neg (by omega)]
  · intro x hx
    change ∃ b < job.removers, markRange e.owner e.next (job.rangeEnd e.next) (some r) x = some b
    by_cases hnew : e.next ≤ x
    · exact ⟨r, hr, hin x hnew hx⟩
    · obtain ⟨b, hb, hown⟩ := hi.owned x (by omega)
      exact ⟨b, hb, (hout x (by omega)).trans hown⟩
  · intro x hx
    change job.rangeEnd e.next ≤ x at hx
    obtain ⟨hnone, hrest⟩ := hi.free x (by omega)
    exact ⟨(hout x (by omega)).trans hnone, hrest⟩
  · intro b
    exact Nat.le_trans (hi.slot_le b) (Nat.le_of_lt hstop)
  · intro b
    change RemoveSide.At job adders _ b (Function.update e.pcs r _ b)
    by_cases hb : b = r
    · subst hb
      rw [Function.update_self]
      refine ⟨hslot, hstop, Nat.le_refl _, hin, ?_, hsafe⟩
      intro x hx
      change markRange e.owner e.next (job.rangeEnd e.next) (some b) x = some b at hx
      by_cases hnew : e.next ≤ x ∧ x < job.rangeEnd e.next
      · exact hnew.2
      · rw [hout x hnew] at hx
        have := hi.owner_lt hx
        omega
    · rw [Function.update_of_ne hb]
      refine (hi.place b).frame (fun _ => Nat.le_refl _) rfl (Nat.le_of_lt hstop) ?_ ?_
      · intro x hx
        exact hout x (by omega)
      · intro x hx
        change markRange e.owner e.next (job.rangeEnd e.next) (some r) x = some b at hx
        by_cases hnew : e.next ≤ x ∧ x < job.rangeEnd e.next
        · rw [hin x hnew.1 hnew.2] at hx
          exact absurd (Option.some.inj hx).symm hb
        · rw [hout x hnew] at hx
          exact hx
  · intro x b hx
    change markRange e.owner e.next (job.rangeEnd e.next) (some r) x = some b at hx
    change RemoveSide.Treated _ x (Function.update e.pcs r _ b)
    by_cases hnew : e.next ≤ x ∧ x < job.rangeEnd e.next
    · rw [hin x hnew.1 hnew.2] at hx
      cases hx
      rw [Function.update_self]
      obtain ⟨-, hpop, hdeb⟩ := hi.free x hnew.1
      have hnot : decide (x < e.next) = false := decide_eq_false (by omega)
      exact ⟨hpop.trans hnot.symm, hdeb.trans hnot.symm⟩
    · rw [hout x hnew] at hx
      by_cases hb : b = r
      · subst hb
        rw [Function.update_self]
        have hlt' : decide (x < e.next) = true := decide_eq_true (hi.owner_lt hx)
        obtain ⟨hpop, hdeb⟩ := hi.treated x b hx
        obtain ⟨h1, h2⟩ := hdone x
        rw [h1] at hpop
        rw [h2] at hdeb
        exact ⟨hpop.trans hlt'.symm, hdeb.trans hlt'.symm⟩
      · rw [Function.update_of_ne hb]
        obtain ⟨hpop, hdeb⟩ := hi.treated x b hx
        exact ⟨hpop, hdeb⟩

/-- A step that treats the range of the remover `r`, with the marks it sets. -/
theorem RemoveInv.treat (hi : RemoveInv job adders e) {start stop : Nat} {pc : RemoverPc}
    (hh : e.Holds job adders r start stop) (hnext : e'.next = e.next) (howner : e'.owner = e.owner)
    (hclaims : e'.claims = e.claims) (hslots : e'.slots = e.slots)
    (hpcs : e'.pcs = Function.update e.pcs r pc) (hat : e'.At job adders r pc)
    (hin : ∀ x, start ≤ x → x < stop → e'.Treated x pc)
    (hout : ∀ x, ¬(start ≤ x ∧ x < stop) → e'.popped x = e.popped x ∧ e'.debited x = e.debited x)
    (hsame : ∀ x < start, pc.popped x = (e.pcs r).popped x ∧ pc.debited x = (e.pcs r).debited x) :
    RemoveInv job adders e' := by
  refine hi.move hnext howner hclaims hpcs (fun b _ => by rw [hslots]) ?_ hat ?_ ?_
  · rw [hslots]
    exact hi.slot_le r
  · intro x hx
    have hlt := hh.last x hx
    by_cases hge : start ≤ x
    · exact hin x hge hlt
    · obtain ⟨hpop, hdeb⟩ := hi.treated x r hx
      obtain ⟨h1, h2⟩ := hsame x (Nat.not_le.mp hge)
      obtain ⟨g1, g2⟩ := hout x fun h => hge h.1
      refine ⟨?_, ?_⟩
      · rw [g1, h1]
        exact hpop
      · rw [g2, h2]
        exact hdeb
  · intro x hx
    apply hout x
    intro hrange
    exact hx (hh.own x hrange.1 hrange.2)

end Removers

end FlorestaDb.Hintsgen
