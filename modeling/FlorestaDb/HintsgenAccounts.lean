import FlorestaDb.HintsgenSafety
import Mathlib.Algebra.BigOperators.Group.Finset.Basic
import Mathlib.Algebra.Order.BigOperators.Group.Finset
import Mathlib.Order.Interval.Finset.Nat

/-! The books of `hintsgen`: what was credited and debited, and what the database still holds.
A remover always finds the outpoints it pops, and its debit is always covered. -/
namespace FlorestaDb.Hintsgen

variable {job : Job} {s s' : State} {a r : Nat}

section Marks
variable {p : Nat → Bool}

/-- The heights below the end that `p` marks. -/
def marked (job : Job) (p : Nat → Bool) : Finset Nat :=
  (Finset.range job.endHeight).filter fun x => p x = true

theorem mem_marked {x : Nat} : x ∈ marked job p ↔ x < job.endHeight ∧ p x = true := by
  rw [marked, Finset.mem_filter, Finset.mem_range]

theorem marked_update {h : Nat} (hlt : h < job.endHeight) :
    marked job (Function.update p h true) = insert h (marked job p) := by
  ext x
  rw [mem_marked, Finset.mem_insert, mem_marked]
  by_cases hx : x = h
  · rw [hx, Function.update_self]
    simp [hlt]
  · rw [Function.update_of_ne hx]
    simp [hx]

theorem marked_range {start stop : Nat} (hle : stop ≤ job.endHeight) :
    marked job (markRange p start stop true) = marked job p ∪ Finset.Ico start stop := by
  ext x
  rw [mem_marked, Finset.mem_union, mem_marked, Finset.mem_Ico, markRange]
  by_cases hx : start ≤ x ∧ x < stop
  · rw [if_pos hx]
    simp [hx, Nat.lt_of_lt_of_le hx.2 hle]
  · rw [if_neg hx]
    simp [hx]

theorem marked_none (job : Job) : marked job (fun _ => false) = ∅ := by
  ext x
  rw [mem_marked]
  simp

end Marks

section Spends

theorem length_rangeSpends (job : Job) (start stop : Nat) :
    (job.rangeSpends start stop).length =
      ∑ x ∈ Finset.Ico start stop, (job.spends x).length := by
  rw [Job.rangeSpends, List.length_flatMap]
  rfl

theorem mem_rangeSpends {start stop : Nat} {key : Key} :
    key ∈ job.rangeSpends start stop ↔ ∃ x, start ≤ x ∧ x < stop ∧ key ∈ job.spends x := by
  rw [Job.rangeSpends, List.mem_flatMap]
  constructor
  · intro h
    obtain ⟨x, hx, hkey⟩ := h
    rw [List.mem_range'_1] at hx
    exact ⟨x, hx.1, by omega, hkey⟩
  · intro h
    obtain ⟨x, hle, hlt, hkey⟩ := h
    exact ⟨x, by rw [List.mem_range'_1]; omega, hkey⟩

theorem nodup_rangeSpends (hj : job.WellFormed) {start stop : Nat} (hle : stop ≤ job.endHeight) :
    (job.rangeSpends start stop).Nodup := by
  rw [Job.rangeSpends, List.nodup_flatMap]
  have hlt : ∀ x ∈ List.range' start (stop - start), x < job.endHeight := by
    intro x hx
    rw [List.mem_range'_1] at hx
    omega
  refine ⟨fun x hx => hj.nodup x (hlt x hx), ?_⟩
  refine (List.nodup_range' 1).pairwise_of_forall_ne ?_
  intro x hx y hy hne key hkx hky
  exact hne (hj.once x (hlt x hx) y (hlt y hy) key hkx hky)

/-- Outpoints that are spent are among those created: the blocks of `debits` do not spend
more than the blocks of `credits` create. -/
theorem sum_spends_le (hj : job.WellFormed) {debits credits : Finset Nat}
    (hend : ∀ x ∈ debits, x < job.endHeight) (hsub : ∀ x ∈ debits, ∀ y ≤ x, y ∈ credits) :
    ∑ x ∈ debits, (job.spends x).length ≤ ∑ x ∈ credits, (job.outputs x).length := by
  have hcard : ∀ x ∈ debits, (job.spends x).length = (job.spends x).toFinset.card :=
    fun x hx => (List.toFinset_card_of_nodup (hj.nodup x (hend x hx))).symm
  have hdisjoint : (debits : Set Nat).PairwiseDisjoint fun x => (job.spends x).toFinset := by
    intro x hx y hy hne
    rw [Function.onFun, Finset.disjoint_left]
    intro key hkx hky
    rw [List.mem_toFinset] at hkx hky
    exact hne (hj.once x (hend x hx) y (hend y hy) key hkx hky)
  have hsubset : (debits.biUnion fun x => (job.spends x).toFinset) ⊆
      credits.biUnion fun x => ((job.outputs x).map Prod.fst).toFinset := by
    intro key hkey
    rw [Finset.mem_biUnion] at hkey ⊢
    obtain ⟨x, hx, hkx⟩ := hkey
    rw [List.mem_toFinset] at hkx
    obtain ⟨y, hy, hky⟩ := hj.created x (hend x hx) key hkx
    exact ⟨y, hsub x hx y hy, by rw [List.mem_toFinset]; exact hky⟩
  calc ∑ x ∈ debits, (job.spends x).length
      = ∑ x ∈ debits, (job.spends x).toFinset.card := Finset.sum_congr rfl hcard
    _ = (debits.biUnion fun x => (job.spends x).toFinset).card :=
        (Finset.card_biUnion hdisjoint).symm
    _ ≤ (credits.biUnion fun x => ((job.outputs x).map Prod.fst).toFinset).card :=
        Finset.card_le_card hsubset
    _ ≤ ∑ x ∈ credits, ((job.outputs x).map Prod.fst).toFinset.card := Finset.card_biUnion_le
    _ ≤ ∑ x ∈ credits, (job.outputs x).length := by
        apply Finset.sum_le_sum
        intro x _
        exact Nat.le_trans (List.toFinset_card_le _) (Nat.le_of_eq (List.length_map _))

end Spends

section Accounts

/- The counter of live outputs is what was credited less what was debited, and the database
   still holds a value of every key that was inserted and that no popped block spends. -/
structure Accounts (job : Job) (s : State) : Prop where
  live : s.live + ∑ x ∈ marked job s.remove.debited, (job.spends x).length =
    ∑ x ∈ marked job s.add.credited, (job.outputs x).length
  stocked : ∀ key h, s.add.inserted h = true → key ∈ (job.outputs h).map Prod.fst →
    (∀ h', s.remove.popped h' = true → key ∉ job.spends h') → s.database key ≠ []

theorem accounts_initial (job : Job) : Accounts job .initial where
  live := by
    change 0 + ∑ x ∈ marked job (fun _ => false), _ = ∑ x ∈ marked job (fun _ => false), _
    rw [marked_none]
    rfl
  stocked := fun key h hins => by cases hins

theorem pushAll_ne_nil {M : Stacks} {entries : List (Key × List UInt8)} {key : Key}
    (h : M key ≠ [] ∨ key ∈ entries.map Prod.fst) : M.pushAll entries key ≠ [] := by
  rw [Stacks.pushAll]
  intro hnil
  obtain ⟨hvalues, hold⟩ := List.append_eq_nil_iff.mp hnil
  rcases h with hne | hmem
  · exact hne hold
  · obtain ⟨e, he, hkey⟩ := List.mem_map.mp hmem
    rw [List.reverse_eq_nil_iff, Buckets.values, List.map_eq_nil_iff,
      List.filter_eq_nil_iff] at hvalues
    exact hvalues e he (decide_eq_true hkey)

theorem Accounts.booked (h : Accounts job s) (hremove : s'.remove = s.remove)
    (hb : Booked job s s') : Accounts job s' := by
  cases hb with
  | same live database inserted credited =>
    refine ⟨?_, ?_⟩
    · rw [live, hremove, credited]
      exact h.live
    · rw [inserted, hremove, database]
      exact h.stocked
  | put k lt fresh live database inserted credited =>
    refine ⟨?_, ?_⟩
    · rw [live, hremove, credited]
      exact h.live
    · intro key h' hins hkey hnot
      rw [inserted] at hins
      rw [hremove] at hnot
      rw [database]
      apply pushAll_ne_nil
      by_cases heq : h' = k
      · exact Or.inr (heq ▸ hkey)
      · rw [Function.update_of_ne heq] at hins
        exact Or.inl (h.stocked key h' hins hkey hnot)
  | credit k lt fresh live database inserted credited =>
    refine ⟨?_, ?_⟩
    · have hnew : k ∉ marked job s.add.credited := by
        rw [mem_marked, fresh]
        simp
      rw [live, hremove, credited, marked_update lt, Finset.sum_insert hnew, ← h.live]
      omega
    · rw [inserted, hremove, database]
      exact h.stocked

/-- The remover's own range is neither popped nor debited before the step that does it. -/
theorem RemoveInv.untouched {adders : Nat → Nat} {e : RemoveSide} (hi : RemoveInv job adders e)
    {start stop : Nat} (hh : e.Holds job adders r start stop) {x : Nat} (hx : start ≤ x)
    (hlt : x < stop) : e.popped x = (e.pcs r).popped x ∧ e.debited x = (e.pcs r).debited x :=
  ⟨(hi.treated x r (hh.own x hx hlt)).popped, (hi.treated x r (hh.own x hx hlt)).debited⟩

/-- The outpoints that a range spends are there to be popped. -/
theorem Accounts.present (h : Accounts job s) (hj : job.WellFormed) (ha : AddInv job s.add)
    (hr : RemoveInv job s.add.slots s.remove) {start stop : Nat}
    (hh : s.remove.Holds job s.add.slots r start stop)
    (hfresh : ∀ x, start ≤ x → x < stop → s.remove.popped x = false) :
    ∀ key ∈ job.rangeSpends start stop, s.database key ≠ [] := by
  intro key hkey
  obtain ⟨x, hle, hlt, hkx⟩ := mem_rangeSpends.mp hkey
  have hend : x < job.endHeight :=
    Nat.lt_of_lt_of_le hlt (Nat.le_trans hh.le hr.next_le)
  obtain ⟨y, hy, hky⟩ := hj.created x hend key hkx
  have hindexed := ha.indexed hj.adders_pos hh.safe (Nat.lt_of_le_of_lt hy hlt)
  refine h.stocked key y hindexed.inserted hky ?_
  intro z hz hkz
  -- a popped block that spends the same outpoint would be the block at `x` itself
  have hznext : z < s.remove.next := by
    by_contra hge
    rw [(hr.free z (Nat.not_lt.mp hge)).2.1] at hz
    cases hz
  have hzx : z = x := hj.once z (Nat.lt_of_lt_of_le hznext hr.next_le) x hend key hkz hkx
  rw [hzx, hfresh x hle hlt] at hz
  cases hz

/-- What a range spends is covered by the live outputs. -/
theorem Accounts.covered (h : Accounts job s) (hj : job.WellFormed) (ha : AddInv job s.add)
    (hr : RemoveInv job s.add.slots s.remove) {start stop : Nat}
    (hh : s.remove.Holds job s.add.slots r start stop)
    (hfresh : ∀ x, start ≤ x → x < stop → s.remove.debited x = false) :
    Disjoint (marked job s.remove.debited) (Finset.Ico start stop) ∧
      (job.rangeSpends start stop).length ≤ s.live := by
  have hdisjoint : Disjoint (marked job s.remove.debited) (Finset.Ico start stop) := by
    rw [Finset.disjoint_left]
    intro x hx hrange
    rw [Finset.mem_Ico] at hrange
    have hdeb := (mem_marked.mp hx).2
    rw [hfresh x hrange.1 hrange.2] at hdeb
    cases hdeb
  have hnext : ∀ x ∈ marked job s.remove.debited ∪ Finset.Ico start stop, x < s.remove.next := by
    intro x hx
    rcases Finset.mem_union.mp hx with hdeb | hrange
    · by_contra hge
      have hset := (mem_marked.mp hdeb).2
      rw [(hr.free x (Nat.not_lt.mp hge)).2.2] at hset
      cases hset
    · exact Nat.lt_of_lt_of_le (Finset.mem_Ico.mp hrange).2 hh.le
  have hcredited : ∀ x ∈ marked job s.remove.debited ∪ Finset.Ico start stop, ∀ y ≤ x,
      y ∈ marked job s.add.credited := by
    intro x hx y hy
    have hlt := Nat.lt_of_le_of_lt hy (hnext x hx)
    have hindexed := ha.indexed hj.adders_pos hr.behind hlt
    exact mem_marked.mpr ⟨Nat.lt_of_lt_of_le hlt hr.next_le, hindexed.credited⟩
  have hsum := sum_spends_le hj (fun x hx => Nat.lt_of_lt_of_le (hnext x hx) hr.next_le) hcredited
  rw [Finset.sum_union hdisjoint, ← length_rangeSpends, ← h.live] at hsum
  exact ⟨hdisjoint, by omega⟩

theorem Accounts.pop (h : Accounts job s) {start stop : Nat} (hadd : s'.add = s.add)
    (hlive : s'.live = s.live) (hdeb : s'.remove.debited = s.remove.debited)
    (hpop : s'.remove.popped = markRange s.remove.popped start stop true)
    (hdb : s'.database = s.database.popAll (job.rangeSpends start stop)) : Accounts job s' where
  live := by
    rw [hadd, hlive, hdeb]
    exact h.live
  stocked := by
    intro key k hins hkey hnot
    rw [hadd] at hins
    rw [hpop] at hnot
    have hkept : key ∉ job.rangeSpends start stop := by
      intro hmem
      obtain ⟨x, hle, hlt, hkx⟩ := mem_rangeSpends.mp hmem
      refine hnot x ?_ hkx
      rw [markRange, if_pos ⟨hle, hlt⟩]
    rw [hdb, Stacks.popAll, if_neg hkept]
    refine h.stocked key k hins hkey fun x hx => hnot x ?_
    rw [markRange, hx, ite_self]

theorem Accounts.debit (h : Accounts job s) {start stop : Nat} (hadd : s'.add = s.add)
    (hend : stop ≤ job.endHeight) (hpop : s'.remove.popped = s.remove.popped)
    (hdeb : s'.remove.debited = markRange s.remove.debited start stop true)
    (hdb : s'.database = s.database)
    (hdisjoint : Disjoint (marked job s.remove.debited) (Finset.Ico start stop))
    (hle : (job.rangeSpends start stop).length ≤ s.live)
    (hlive : s'.live = s.live - (job.rangeSpends start stop).length) : Accounts job s' where
  live := by
    rw [hadd, hlive, hdeb, marked_range hend, Finset.sum_union hdisjoint, ← length_rangeSpends,
      ← h.live]
    omega
  stocked := by
    rw [hadd, hpop, hdb]
    exact h.stocked

end Accounts

section Steps

/-- What holds between any two steps. -/
structure Invariant (job : Job) (s : State) : Prop where
  add : AddInv job s.add
  remove : RemoveInv job s.add.slots s.remove
  accounts : Accounts job s

/-- What a step of a remover does. -/
structure RemoveStep (job : Job) (s s' : State) : Prop where
  inv : Invariant job s'
  add : s'.add = s.add
  faults : ∀ b f, s'.remove.faults b = some f → s.remove.faults b = some f ∨ f.Tolerated

theorem RemoveInv.fails {adders : Nat → Nat} {e : RemoveSide} (hi : RemoveInv job adders e)
    (faults : Nat → Option Fault) : RemoveInv job adders { e with faults := faults } :=
  ⟨hi.next_le, hi.claims, hi.owned, hi.free, hi.slot_le, hi.behind,
    fun b => (hi.place b).frame (fun _ => Nat.le_refl _) rfl (Nat.le_refl _) (fun _ _ => rfl)
      fun _ h => h,
    fun x b hx => ⟨(hi.treated x b hx).popped, (hi.treated x b hx).debited⟩⟩

theorem Invariant.removerFails (hi : Invariant job s) (f : Fault) :
    Invariant job (s.removerFails r f) :=
  ⟨hi.add, hi.remove.fails _, ⟨hi.accounts.live, hi.accounts.stocked⟩⟩

theorem removeStep_fails (hi : Invariant job s) {f : Fault} (hf : f.Tolerated) :
    RemoveStep job s (s.removerFails r f) where
  inv := hi.removerFails f
  add := rfl
  faults := by
    intro b f' hb
    by_cases heq : b = r
    · subst heq
      rw [State.removerFails] at hb
      simp only [Function.update_self, Option.some.injEq] at hb
      exact Or.inr (hb ▸ hf)
    · rw [State.removerFails] at hb
      simp only [Function.update_of_ne heq] at hb
      exact Or.inl hb

theorem removeStep_goto (hi : Invariant job s) {pc : RemoverPc}
    (hat : s.remove.At job s.add.slots r pc)
    (hsame : ∀ x, s.remove.owner x = some r → pc.popped x = (s.remove.pcs r).popped x ∧
      pc.debited x = (s.remove.pcs r).debited x) : RemoveStep job s (s.removerTo r pc) :=
  ⟨⟨hi.add, hi.remove.goto hat hsame, hi.accounts.live, hi.accounts.stocked⟩, rfl,
    fun _ _ h => Or.inl h⟩

theorem removeStep_publish (hi : Invariant job s) {pc : RemoverPc} {completed : Nat}
    (hold : s.remove.slots r ≤ completed) (hle : completed ≤ s.remove.next)
    (hat : ({ s.remove with slots := Function.update s.remove.slots r completed }).At job
      s.add.slots r pc)
    (hsame : ∀ x, s.remove.owner x = some r → pc.popped x = (s.remove.pcs r).popped x ∧
      pc.debited x = (s.remove.pcs r).debited x) :
    RemoveStep job s (s.publishRemover job r completed pc) := by
  have hcan : canPublish job (s.remove.slots r) completed = true := by
    simp only [canPublish, Bool.and_eq_true, decide_eq_true_eq]
    exact ⟨hold, Nat.le_trans hle hi.remove.next_le⟩
  rw [State.publishRemover, if_pos hcan]
  exact ⟨⟨hi.add, hi.remove.publish hle hat hsame, hi.accounts.live, hi.accounts.stocked⟩, rfl,
    fun _ _ h => Or.inl h⟩

theorem RemoveSide.Holds.congr {adders : Nat → Nat} {e e' : RemoveSide} {start stop : Nat}
    (hh : e.Holds job adders r start stop) (hnext : e'.next = e.next) (howner : e'.owner = e.owner) :
    e'.Holds job adders r start stop := by
  refine ⟨hh.lt, ?_, ?_, ?_, hh.safe⟩
  · rw [hnext]
    exact hh.le
  · rw [howner]
    exact hh.own
  · rw [howner]
    exact hh.last

/-- One more slot has been looked at. -/
theorem scanned {adders : Nat → Nat} {i low : Nat} (h : ∀ j < i, low ≤ adders j) :
    ∀ j < i + 1, min low (adders i) ≤ adders j := by
  intro j hj
  by_cases heq : j = i
  · rw [heq]
    exact Nat.min_le_right _ _
  · exact Nat.le_trans (Nat.min_le_left _ _) (h j (by omega))

/-- Claiming a range, from the place where the cursor was read. -/
theorem removeStep_claim (hj : job.WellFormed) (hi : Invariant job s) (hr : r < job.removers)
    {limit : Nat} (hpc : s.remove.pcs r = .exchange limit s.remove.next) :
    RemoveStep job s { s with
      remove := ({ s.remove with
        next := job.rangeEnd s.remove.next
        owner := markRange s.remove.owner s.remove.next (job.rangeEnd s.remove.next) (some r)
        claims := bumpRange s.remove.claims s.remove.next (job.rangeEnd s.remove.next) }).goto
          r (.publishStart s.remove.next (job.rangeEnd s.remove.next)) } := by
  have hplace := hi.remove.place r
  rw [hpc] at hplace
  obtain ⟨hsafe, hslot, hlt, hle⟩ := hplace
  refine ⟨⟨hi.add, ?_, hi.accounts.live, hi.accounts.stocked⟩, rfl, fun _ _ h => Or.inl h⟩
  refine hi.remove.claim hr hj.size_pos hlt hslot (fun j hj' => Nat.le_trans hle (hsafe j hj')) ?_
  intro x
  rw [hpc]
  exact ⟨rfl, rfl⟩

/-- Popping a range: its outpoints are distinct and present. -/
theorem removeStep_pop (hj : job.WellFormed) (hi : Invariant job s) {start stop : Nat}
    (hpc : s.remove.pcs r = .pop start stop) (hstep : removerStep job r s = some s') :
    RemoveStep job s s' := by
  have hplace := hi.remove.place r
  rw [hpc] at hplace
  obtain ⟨hslot, hheld⟩ := hplace
  have hfresh : ∀ x, start ≤ x → x < stop →
      s.remove.popped x = false ∧ s.remove.debited x = false := by
    intro x hx hlt
    obtain ⟨hpop, hdeb⟩ := hi.remove.untouched hheld hx hlt
    rw [hpc] at hpop hdeb
    have hnot : decide (x < start) = false := decide_eq_false (Nat.not_lt.mpr hx)
    exact ⟨hpop.trans hnot, hdeb.trans hnot⟩
  have hend : stop ≤ job.endHeight := Nat.le_trans hheld.le hi.remove.next_le
  rw [removerStep, hpc] at hstep
  dsimp only at hstep
  rw [if_pos ⟨nodup_rangeSpends hj hend,
    hi.accounts.present hj hi.add hi.remove hheld fun x hx hlt => (hfresh x hx hlt).1⟩] at hstep
  cases hstep
  refine ⟨⟨hi.add, ?_, hi.accounts.pop rfl rfl rfl rfl rfl⟩, rfl, fun _ _ h => Or.inl h⟩
  refine hi.remove.treat hheld rfl rfl rfl rfl rfl ⟨hslot, hheld.congr rfl rfl⟩ ?_ ?_ ?_
  · intro x hx hlt
    refine ⟨?_, ?_⟩
    · change markRange s.remove.popped start stop true x = true
      rw [markRange, if_pos ⟨hx, hlt⟩]
    · exact (hfresh x hx hlt).2.trans (decide_eq_false (Nat.not_lt.mpr hx)).symm
  · intro x hx
    refine ⟨?_, rfl⟩
    change markRange s.remove.popped start stop true x = s.remove.popped x
    rw [markRange, if_neg hx]
  · intro x hx
    rw [hpc]
    exact ⟨(decide_eq_true hx).symm, rfl⟩

/-- Debiting a range: the live outputs cover it. -/
theorem removeStep_debit (hj : job.WellFormed) (hi : Invariant job s) {start stop : Nat}
    (hpc : s.remove.pcs r = .debit start stop) (hstep : removerStep job r s = some s') :
    RemoveStep job s s' := by
  have hplace := hi.remove.place r
  rw [hpc] at hplace
  obtain ⟨hslot, hheld⟩ := hplace
  have hfresh : ∀ x, start ≤ x → x < stop →
      s.remove.popped x = true ∧ s.remove.debited x = false := by
    intro x hx hlt
    obtain ⟨hpop, hdeb⟩ := hi.remove.untouched hheld hx hlt
    rw [hpc] at hpop hdeb
    exact ⟨hpop, hdeb.trans (decide_eq_false (Nat.not_lt.mpr hx))⟩
  have hend : stop ≤ job.endHeight := Nat.le_trans hheld.le hi.remove.next_le
  obtain ⟨hdisjoint, hcovered⟩ :=
    hi.accounts.covered hj hi.add hi.remove hheld fun x hx hlt => (hfresh x hx hlt).2
  rw [removerStep, hpc] at hstep
  dsimp only at hstep
  rw [if_pos hcovered] at hstep
  cases hstep
  refine ⟨⟨hi.add, ?_, hi.accounts.debit rfl hend rfl rfl rfl hdisjoint hcovered rfl⟩, rfl,
    fun _ _ h => Or.inl h⟩
  refine hi.remove.treat hheld rfl rfl rfl rfl rfl ⟨hslot, hheld.congr rfl rfl⟩ ?_ ?_ ?_
  · intro x hx hlt
    refine ⟨(hfresh x hx hlt).1, ?_⟩
    change markRange s.remove.debited start stop true x = true
    rw [markRange, if_pos ⟨hx, hlt⟩]
  · intro x hx
    refine ⟨rfl, ?_⟩
    change markRange s.remove.debited start stop true x = s.remove.debited x
    rw [markRange, if_neg hx]
  · intro x hx
    rw [hpc]
    exact ⟨rfl, (decide_eq_true hx).symm⟩

theorem removerStep_spec (hj : job.WellFormed) (hi : Invariant job s) (hr : r < job.removers)
    (hstep : removerStep job r s = some s') : RemoveStep job s s' := by
  have hplace := hi.remove.place r
  cases hpc : s.remove.pcs r with
  | check =>
    rw [removerStep, hpc] at hstep
    dsimp only at hstep
    by_cases hab : s.aborted = true
    · rw [if_pos hab] at hstep
      cases hstep
      exact removeStep_fails hi trivial
    · rw [if_neg hab] at hstep
      cases hstep
      refine removeStep_goto hi (fun j hj' => absurd hj' (Nat.not_lt_zero j)) fun x _ => ?_
      rw [hpc]
      exact ⟨rfl, rfl⟩
  | scan i low =>
    rw [removerStep, hpc] at hstep
    rw [hpc] at hplace
    dsimp only at hstep
    by_cases hmore : i < job.adders
    · rw [if_pos hmore] at hstep
      cases hstep
      refine removeStep_goto hi (scanned hplace) fun x _ => ?_
      rw [hpc]
      exact ⟨rfl, rfl⟩
    · rw [if_neg hmore] at hstep
      cases hstep
      refine removeStep_goto hi (fun j hj' => hplace j (by omega)) fun x _ => ?_
      rw [hpc]
      exact ⟨rfl, rfl⟩
  | claim limit =>
    rw [removerStep, hpc] at hstep
    rw [hpc] at hplace
    dsimp only at hstep
    by_cases hdone : s.remove.next ≥ min limit job.endHeight
    · rw [if_pos hdone] at hstep
      cases hstep
      refine removeStep_goto hi trivial fun x _ => ?_
      rw [hpc]
      exact ⟨rfl, rfl⟩
    · rw [if_neg hdone] at hstep
      by_cases hshort : job.rangeEnd s.remove.next > min limit job.endHeight
      · rw [if_pos hshort] at hstep
        cases hstep
        refine removeStep_goto hi trivial fun x _ => ?_
        rw [hpc]
        exact ⟨rfl, rfl⟩
      · rw [if_neg hshort] at hstep
        cases hstep
        refine removeStep_goto hi ⟨hplace, hi.remove.slot_le r, by omega, by omega⟩ fun x _ => ?_
        rw [hpc]
        exact ⟨rfl, rfl⟩
  | exchange limit start =>
    rw [removerStep, hpc] at hstep
    rw [hpc] at hplace
    dsimp only at hstep
    by_cases heq : s.remove.next = start
    · rw [if_pos heq] at hstep
      cases hstep
      subst heq
      exact removeStep_claim hj hi hr hpc
    · rw [if_neg heq] at hstep
      cases hstep
      refine removeStep_goto hi hplace.1 fun x _ => ?_
      rw [hpc]
      exact ⟨rfl, rfl⟩
  | publishStart start stop =>
    rw [removerStep, hpc] at hstep
    rw [hpc] at hplace
    cases hstep
    have hheld := hplace.2
    refine removeStep_publish hi hplace.1 (Nat.le_trans (Nat.le_of_lt hheld.lt) hheld.le) ?_ ?_
    · exact ⟨Function.update_self _ _ _, hheld.congr rfl rfl⟩
    · intro x _
      rw [hpc]
      exact ⟨rfl, rfl⟩
  | pop start stop => exact removeStep_pop hj hi hpc hstep
  | debit start stop => exact removeStep_debit hj hi hpc hstep
  | publishEnd start stop =>
    rw [removerStep, hpc] at hstep
    rw [hpc] at hplace
    cases hstep
    have hlt := hplace.2.lt
    refine removeStep_publish hi (by rw [hplace.1]; omega) hplace.2.le trivial fun x _ => ?_
    rw [hpc]
    exact ⟨rfl, rfl⟩
  | isFinished =>
    rw [removerStep, hpc] at hstep
    dsimp only at hstep
    by_cases hfull : s.remove.next ≥ job.endHeight
    · rw [if_pos hfull] at hstep
      cases hstep
      refine removeStep_goto hi hfull fun x _ => ?_
      rw [hpc]
      exact ⟨rfl, rfl⟩
    · rw [if_neg hfull] at hstep
      cases hstep
      refine removeStep_goto hi trivial fun x _ => ?_
      rw [hpc]
      exact ⟨rfl, rfl⟩
  | nextHeight =>
    rw [removerStep, hpc] at hstep
    cases hstep
    refine removeStep_goto hi ⟨hi.remove.slot_le r, Nat.le_refl _⟩ fun x _ => ?_
    rw [hpc]
    exact ⟨rfl, rfl⟩
  | publishNext next =>
    rw [removerStep, hpc] at hstep
    rw [hpc] at hplace
    cases hstep
    refine removeStep_publish hi hplace.1 hplace.2 trivial fun x _ => ?_
    rw [hpc]
    exact ⟨rfl, rfl⟩
  | rangeEnd =>
    rw [removerStep, hpc] at hstep
    cases hstep
    refine removeStep_goto hi (Nat.min_le_right _ _) fun x _ => ?_
    rw [hpc]
    exact ⟨rfl, rfl⟩
  | compare required i low =>
    rw [removerStep, hpc] at hstep
    rw [hpc] at hplace
    dsimp only at hstep
    by_cases hmore : i < job.adders
    · rw [if_pos hmore] at hstep
      cases hstep
      refine removeStep_goto hi hplace fun x _ => ?_
      rw [hpc]
      exact ⟨rfl, rfl⟩
    · rw [if_neg hmore] at hstep
      by_cases hlow : low < required
      · rw [if_pos hlow] at hstep
        cases hstep
        refine removeStep_goto hi hplace fun x _ => ?_
        rw [hpc]
        exact ⟨rfl, rfl⟩
      · rw [if_neg hlow] at hstep
        cases hstep
        refine removeStep_goto hi trivial fun x _ => ?_
        rw [hpc]
        exact ⟨rfl, rfl⟩
  | waiting required =>
    rw [removerStep, hpc] at hstep
    dsimp only at hstep
    by_cases hab : s.aborted = true
    · rw [if_pos hab] at hstep
      cases hstep
      exact removeStep_fails hi trivial
    · rw [if_neg hab] at hstep
      by_cases hmin : s.minimumAdder job ≥ required
      · rw [if_pos hmin] at hstep
        cases hstep
        refine removeStep_goto hi trivial fun x _ => ?_
        rw [hpc]
        exact ⟨rfl, rfl⟩
      · rw [if_neg hmin] at hstep
        cases hstep
  | finish =>
    rw [removerStep, hpc] at hstep
    rw [hpc] at hplace
    cases hstep
    have hend : job.endHeight ≤ s.remove.next := hplace
    refine removeStep_publish hi (Nat.le_trans (hi.remove.slot_le r) hi.remove.next_le) hend hend
      fun x _ => ?_
    rw [hpc]
    exact ⟨rfl, rfl⟩
  | done =>
    rw [removerStep, hpc] at hstep
    cases hstep

end Steps

section Runs

theorem invariant_initial (job : Job) : Invariant job .initial :=
  ⟨addInv_initial job, removeInv_initial job _, accounts_initial job⟩

theorem Invariant.addStep (hi : Invariant job s) (h : AddStep job s s') : Invariant job s' := by
  refine ⟨h.inv, ?_, hi.accounts.booked h.remove h.booked⟩
  rw [h.remove]
  exact hi.remove.advance h.slots

/-- No worker has failed but for a reason from outside. -/
def Unharmed (s : State) : Prop :=
  (∀ a f, s.add.faults a = some f → f.Tolerated) ∧
    ∀ r f, s.remove.faults r = some f → f.Tolerated

theorem Step.invariant (hj : job.WellFormed) (hi : Invariant job s) (hu : Unharmed s)
    (h : Step job s s') : Invariant job s' ∧ Unharmed s' := by
  have hadd : AddStep job s s' → Invariant job s' ∧ Unharmed s' := by
    intro hs
    refine ⟨hi.addStep hs, ?_, ?_⟩
    · intro b f hf
      rcases hs.faults b f hf with hold | hok
      · exact hu.1 b f hold
      · exact hok
    · rw [hs.remove]
      exact hu.2
  have hrem : RemoveStep job s s' → Invariant job s' ∧ Unharmed s' := by
    intro hs
    refine ⟨hs.inv, ?_, ?_⟩
    · rw [hs.add]
      exact hu.1
    · intro b f hf
      rcases hs.faults b f hf with hold | hok
      · exact hu.2 b f hold
      · exact hok
  cases h with
  | adder a worker working step => exact hadd (adderStep_spec hj.size_pos hi.add worker step)
  | remover r worker working step => exact hrem (removerStep_spec hj hi worker step)
  | adderError a worker working fallible => exact hadd (addStep_fails hi.add trivial)
  | removerError r worker working fallible => exact hrem (removeStep_fails hi trivial)
  | adderAborts a worker failed =>
    exact ⟨⟨hi.add, hi.remove, hi.accounts.live, hi.accounts.stocked⟩, hu⟩
  | removerAborts r worker failed =>
    exact ⟨⟨hi.add, hi.remove, hi.accounts.live, hi.accounts.stocked⟩, hu⟩

theorem Reachable.invariant (hj : job.WellFormed) (h : Reachable job s) :
    Invariant job s ∧ Unharmed s := by
  induction h with
  | initial =>
    refine ⟨invariant_initial job, ?_, ?_⟩
    · intro a f hf
      cases hf
    · intro r f hf
      cases hf
  | step h step ih => exact step.invariant hj ih.1 ih.2

/-- The range that a remover holds where it stands. -/
def RemoverPc.held : RemoverPc → Option (Nat × Nat)
  | .publishStart start stop | .pop start stop | .debit start stop | .publishEnd start stop =>
    some (start, stop)
  | _ => none

theorem RemoveSide.At.held {adders : Nat → Nat} {e : RemoveSide} {pc : RemoverPc}
    (h : e.At job adders r pc) {start stop : Nat} (hheld : pc.held = some (start, stop)) :
    e.Holds job adders r start stop := by
  cases pc with
  | publishStart _ _ =>
    cases hheld
    exact h.2
  | pop _ _ =>
    cases hheld
    exact h.2
  | debit _ _ =>
    cases hheld
    exact h.2
  | publishEnd _ _ =>
    cases hheld
    exact h.2
  | _ => cases hheld

/-- Removers stay behind the adders, every height is claimed once on each side, and no
worker fails but for a reason from outside. -/
theorem removers_stay_behind (hj : job.WellFormed) (h : Reachable job s) :
    (∀ x < job.endHeight, ¬s.add.Indexed job x → s.minimumAdder job ≤ x) ∧
    (∀ r < job.removers, ∀ start stop, (s.remove.pcs r).held = some (start, stop) →
      start < stop ∧ ∀ x < stop, s.add.Indexed job x) ∧
    (∀ x, s.add.claims x ≤ 1 ∧ s.remove.claims x ≤ 1) ∧
    (∀ a < job.adders, s.add.pcs a = .done → ∀ x < job.endHeight, s.add.claims x = 1) ∧
    (∀ r < job.removers, s.remove.pcs r = .done → ∀ x < job.endHeight, s.remove.claims x = 1) ∧
    Unharmed s := by
  obtain ⟨hi, hu⟩ := h.invariant hj
  refine ⟨?_, ?_, ?_, ?_, ?_, hu⟩
  · intro x _ hnot
    by_contra hlt
    refine hnot (hi.add.indexed hj.adders_pos ?_ (Nat.not_le.mp hlt))
    exact fun j hj' => minimumProgress_le hj'
  · intro r _ start stop hheld
    have hholds := (hi.remove.place r).held hheld
    exact ⟨hholds.lt, fun x hx => hi.add.indexed hj.adders_pos hholds.safe hx⟩
  · intro x
    rw [hi.add.claims x, hi.remove.claims x]
    constructor
    · split <;> omega
    · split <;> omega
  · intro a _ hdone x hx
    have hplace := hi.add.place a
    rw [hdone] at hplace
    rw [hi.add.claims x, if_pos (Nat.lt_of_lt_of_le hx hplace.1)]
  · intro r _ hdone x hx
    have hplace := hi.remove.place r
    rw [hdone] at hplace
    rw [hi.remove.claims x, if_pos (Nat.lt_of_lt_of_le hx hplace)]

/-- The key of the output at a height of the sample chains. -/
def heightKey (h : Nat) : Key := Vector.ofFn fun i => UInt8.ofNat (h / 256 ^ i.val)

/-- Five blocks with one output each; those at odd heights spend the one before. -/
def Job.pairs : Job where
  adders := 2
  removers := 2
  size := 2
  endHeight := 5
  outputs := fun h => [(heightKey h, [7])]
  spends := fun h => if h % 2 = 1 then [heightKey (h - 1)] else []

theorem Job.pairs_wellFormed : Job.pairs.WellFormed where
  adders_pos := by decide
  size_pos := by decide
  created := by
    intro h _ key hkey
    by_cases hodd : h % 2 = 1
    · simp only [Job.pairs, if_pos hodd, List.mem_singleton] at hkey
      exact ⟨h - 1, Nat.sub_le h 1, by simp [Job.pairs, hkey]⟩
    · simp [Job.pairs, hodd] at hkey
  nodup := by decide +kernel
  once := by
    have hkeys : ∀ h < 5, ∀ h' < 5, heightKey (h - 1) = heightKey (h' - 1) → h % 2 = 1 →
        h' % 2 = 1 → h = h' := by decide +kernel
    intro h hh h' hh' key hkey hkey'
    by_cases hodd : h % 2 = 1
    · by_cases hodd' : h' % 2 = 1
      · simp only [Job.pairs, if_pos hodd, List.mem_singleton] at hkey
        simp only [Job.pairs, if_pos hodd', List.mem_singleton] at hkey'
        exact hkeys h hh h' hh' (hkey.symm.trans hkey') hodd hodd'
      · simp [Job.pairs, hodd'] at hkey'
    · simp [Job.pairs, hodd] at hkey

/-- The adders take turns, then each remover claims a range. -/
def pairsSchedule : List Worker :=
  (List.replicate 19 [.adder 0, .adder 1]).flatten ++ [.adder 0] ++
    (List.replicate 7 (.remover 0)) ++ List.replicate 7 (.remover 1)

/-- One adder is in the last block, the other at its end, and the removers are behind them in the
first two ranges. -/
theorem removers_stay_behind_pairs : ∃ s, Reachable Job.pairs s ∧
    (s.add.pcs 0 = .window 4 5 ∧ s.add.pcs 1 = .finish) ∧
    (s.remove.pcs 0 = .pop 0 2 ∧ s.remove.pcs 1 = .pop 2 4) ∧
    (∀ x < 4, s.add.Indexed Job.pairs x) ∧ (∀ x, s.add.claims x ≤ 1 ∧ s.remove.claims x ≤ 1) ∧
    Unharmed s := by
  have hrun : ((follow Job.pairs pairsSchedule .initial).map fun s =>
      ((s.add.pcs 0, s.add.pcs 1), s.remove.pcs 0, s.remove.pcs 1)) =
      some ((.window 4 5, .finish), .pop 0 2, .pop 2 4) := by
    decide +kernel
  obtain ⟨s, hs, heq⟩ := Option.map_eq_some_iff.mp hrun
  simp only [Prod.mk.injEq] at heq
  obtain ⟨hadders, hremovers⟩ := heq
  have hreach := Reachable.initial.follow hs
  obtain ⟨-, hheld, hclaims, -, -, hunharmed⟩ := removers_stay_behind Job.pairs_wellFormed hreach
  have hrange : (s.remove.pcs 1).held = some (2, 4) := by
    rw [hremovers.2]
    rfl
  exact ⟨s, hreach, hadders, hremovers, (hheld 1 (by decide) 2 4 hrange).2, hclaims, hunharmed⟩

end Runs

end FlorestaDb.Hintsgen
