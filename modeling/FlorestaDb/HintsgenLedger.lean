import FlorestaDb.HintsgenWindows

/-! What the database holds and what the removers have taken out of it, between any two steps of
any schedule: every key is stored once, from when its block is indexed to when a block that
spends it is popped, and what was popped are the positions of the spent keys. -/
namespace FlorestaDb.Hintsgen

variable {job : Job} {s s' : State} {r : Nat}

section Schedules

/-- `u64::from_le_bytes` of a stored value. -/
def positionOf (value : List UInt8) : UInt64 := UInt64.ofNat (Hash.leValue value)

/-- What a step of the worker takes out of the database and pushes to its runs. -/
def State.poppedBy (job : Job) (s : State) : Worker → List (Nat × UInt64)
  | .adder _ => []
  | .remover r =>
    match s.remove.pcs r with
    | .pop start stop =>
      (job.rangeSpends start stop).filterMap fun key =>
        (s.database key).head?.map fun value => (r, positionOf value)
    | _ => []

/-- What is pushed while the workers take steps in the order given. -/
def popsOf (job : Job) : List Worker → State → List (Nat × UInt64)
  | [], _ => []
  | w :: ws, s =>
    s.poppedBy job w ++ match w.step job s with
      | some s' => popsOf job ws s'
      | none => []

theorem popsOf_cons {w : Worker} (h : w.step job s = some s') (ws : List Worker) :
    popsOf job (w :: ws) s = s.poppedBy job w ++ popsOf job ws s' := by
  rw [popsOf, h]

end Schedules

section Entries

/-- All outputs of the blocks below the end. -/
def Job.entries (job : Job) : List (Key × List UInt8) := (List.range job.endHeight).flatMap job.outputs

/-- The position under which the output of the key is stored. -/
def Job.position (job : Job) (key : Key) : UInt64 :=
  positionOf ((Buckets.values job.entries key).headD [])

/-- No two outputs have the same key. -/
def Job.Distinct (job : Job) : Prop := (job.entries.map Prod.fst).Nodup

theorem values_of_nodup {l : List (Key × List UInt8)} (hnd : (l.map Prod.fst).Nodup)
    {e : Key × List UInt8} (he : e ∈ l) : Buckets.values l e.1 = [e.2] := by
  induction l with
  | nil => cases he
  | cons x l ih =>
    rw [List.map_cons, List.nodup_cons] at hnd
    rw [Buckets.values_cons]
    cases List.mem_cons.mp he with
    | inl heq =>
      subst heq
      have hrest : Buckets.values l e.1 = [] := by
        apply Buckets.values_eq_nil
        intro y hy hkey
        exact hnd.1 (hkey ▸ List.mem_map_of_mem hy)
      rw [if_pos rfl, hrest]
    | inr hmem =>
      have hne : x.1 ≠ e.1 := fun hkey => hnd.1 (hkey ▸ List.mem_map_of_mem hmem)
      rw [if_neg hne, ih hnd.2 hmem]

theorem mem_entries {e : Key × List UInt8} {h : Nat} (hh : h < job.endHeight) (he : e ∈ job.outputs h) :
    e ∈ job.entries :=
  List.mem_flatMap.mpr ⟨h, List.mem_range.mpr hh, he⟩

theorem position_eq (hd : job.Distinct) {e : Key × List UInt8} {h : Nat} (hh : h < job.endHeight)
    (he : e ∈ job.outputs h) : job.position e.1 = positionOf e.2 := by
  rw [Job.position, values_of_nodup hd (mem_entries hh he)]
  rfl

/-- An element of several lists that are disjoint is in one of them. -/
theorem nodup_range_unique {α : Type} {f : Nat → List α} {n i j : Nat}
    (hnd : ((List.range n).flatMap f).Nodup) (hi : i < n) (hj : j < n) {a : α} (ha : a ∈ f i)
    (ha' : a ∈ f j) : i = j := by
  by_contra hne
  have hdisjoint := (List.nodup_flatMap.mp hnd).2
  have : Std.Symm (Function.onFun List.Disjoint f) := ⟨fun _ _ hd => List.Disjoint.symm hd⟩
  exact hdisjoint.forall (List.mem_range.mpr hi) (List.mem_range.mpr hj) hne ha ha'

theorem Job.Distinct.keys (hd : job.Distinct) :
    ((List.range job.endHeight).flatMap fun h => (job.outputs h).map Prod.fst).Nodup := by
  rw [Job.Distinct, Job.entries, List.map_flatMap] at hd
  exact hd

theorem Job.Distinct.height_unique (hd : job.Distinct) {h h' : Nat} (hh : h < job.endHeight)
    (hh' : h' < job.endHeight) {key : Key} (hkey : key ∈ (job.outputs h).map Prod.fst)
    (hkey' : key ∈ (job.outputs h').map Prod.fst) : h = h' :=
  nodup_range_unique hd.keys hh hh' hkey hkey'

theorem Job.Distinct.block (hd : job.Distinct) {h : Nat} (hh : h < job.endHeight) :
    ((job.outputs h).map Prod.fst).Nodup :=
  (List.nodup_flatMap.mp hd.keys).1 h (List.mem_range.mpr hh)

end Entries

section Effects

/-- The heights below the end that `p` marks, and the keys that their blocks spend. -/
def Job.spentIn (job : Job) (p : Nat → Bool) : List Key :=
  ((List.range job.endHeight).filter p).flatMap job.spends

theorem mem_spentIn {p : Nat → Bool} {key : Key} :
    key ∈ job.spentIn p ↔ ∃ x < job.endHeight, p x = true ∧ key ∈ job.spends x := by
  rw [Job.spentIn, List.mem_flatMap]
  constructor
  · intro h
    obtain ⟨x, hx, hkey⟩ := h
    obtain ⟨hrange, hp⟩ := List.mem_filter.mp hx
    exact ⟨x, List.mem_range.mp hrange, hp, hkey⟩
  · intro h
    obtain ⟨x, hx, hp, hkey⟩ := h
    exact ⟨x, List.mem_filter.mpr ⟨List.mem_range.mpr hx, hp⟩, hkey⟩

theorem spentIn_markRange {p : Nat → Bool} {start stop : Nat} (hstop : stop ≤ job.endHeight)
    (hfresh : ∀ x, start ≤ x → x < stop → p x = false) :
    (job.spentIn (markRange p start stop true)).Perm (job.spentIn p ++ job.rangeSpends start stop) := by
  rw [Job.spentIn, Job.spentIn, Job.rangeSpends, ← List.flatMap_append]
  apply List.Perm.flatMap_right
  rw [List.perm_ext_iff_of_nodup (List.nodup_range.filter _)]
  · intro x
    rw [List.mem_append, List.mem_filter, List.mem_filter, List.mem_range, List.mem_range'_1, markRange]
    by_cases hx : start ≤ x ∧ x < stop
    · rw [if_pos hx]
      simp only [and_true]
      omega
    · rw [if_neg hx]
      constructor
      · exact Or.inl
      · intro h
        cases h with
        | inl h => exact h
        | inr h => omega
  · apply List.Nodup.append (List.nodup_range.filter _) (List.nodup_range' 1)
    intro x hx hrange
    have hp := (List.mem_filter.mp hx).2
    rw [List.mem_range'_1] at hrange
    rw [hfresh x hrange.1 (by omega)] at hp
    cases hp

/-- Only the step `pop` takes anything out of the database. -/
theorem removerStep_kept (hpc : ∀ start stop, s.remove.pcs r ≠ .pop start stop)
    (h : removerStep job r s = some s') :
    s'.database = s.database ∧ s'.remove.popped = s.remove.popped ∧ s'.add = s.add := by
  have hpublish : ∀ (completed : Nat) (pc : RemoverPc),
      (s.publishRemover job r completed pc).database = s.database ∧
        (s.publishRemover job r completed pc).remove.popped = s.remove.popped ∧
        (s.publishRemover job r completed pc).add = s.add := by
    intro completed pc
    rw [State.publishRemover]
    split
    · exact ⟨rfl, rfl, rfl⟩
    · exact ⟨rfl, rfl, rfl⟩
  rw [removerStep] at h
  cases hplace : s.remove.pcs r with
  | pop start stop => exact absurd hplace (hpc start stop)
  | publishStart start stop =>
    rw [hplace] at h
    cases h
    exact hpublish _ _
  | publishEnd start stop =>
    rw [hplace] at h
    cases h
    exact hpublish _ _
  | publishNext next =>
    rw [hplace] at h
    cases h
    exact hpublish _ _
  | finish =>
    rw [hplace] at h
    cases h
    exact hpublish _ _
  | done =>
    rw [hplace] at h
    cases h
  | nextHeight =>
    rw [hplace] at h
    cases h
    exact ⟨rfl, rfl, rfl⟩
  | rangeEnd =>
    rw [hplace] at h
    cases h
    exact ⟨rfl, rfl, rfl⟩
  | _ =>
    rw [hplace] at h
    dsimp only at h
    repeat' split at h
    all_goals cases h
    all_goals exact ⟨rfl, rfl, rfl⟩

/-- A range that is popped was found in the database, key by key. -/
theorem removerStep_pop_eq (hj : job.WellFormed) (hi : Invariant job s) {start stop : Nat}
    (hpc : s.remove.pcs r = .pop start stop) (h : removerStep job r s = some s') :
    stop ≤ job.endHeight ∧ (∀ x, start ≤ x → x < stop → s.remove.popped x = false) ∧
      (∀ key ∈ job.rangeSpends start stop, s.database key ≠ []) ∧
      s'.database = s.database.popAll (job.rangeSpends start stop) ∧
      s'.remove.popped = markRange s.remove.popped start stop true ∧ s'.add = s.add := by
  have hplace := hi.remove.place r
  rw [hpc] at hplace
  have hheld := hplace.2
  have hend : stop ≤ job.endHeight := Nat.le_trans hheld.le hi.remove.next_le
  have hfresh : ∀ x, start ≤ x → x < stop → s.remove.popped x = false := by
    intro x hx hlt
    have hpop := (hi.remove.untouched hheld hx hlt).1
    rw [hpc] at hpop
    exact hpop.trans (decide_eq_false (Nat.not_lt.mpr hx))
  have hpresent := hi.accounts.present hj hi.add hi.remove hheld hfresh
  rw [removerStep, hpc] at h
  dsimp only at h
  rw [if_pos ⟨nodup_rangeSpends hj hend, hpresent⟩] at h
  cases h
  exact ⟨hend, hfresh, hpresent, rfl, rfl, rfl⟩

end Effects

section Books

/-- What the database and the pops so far say about each other. -/
structure Ledger (job : Job) (pops : List (Nat × UInt64)) (s : State) : Prop where
  holds : ∀ h < job.endHeight, s.add.inserted h = true → ∀ e ∈ job.outputs h,
    e.1 ∉ job.spentIn s.remove.popped → s.database e.1 = [e.2]
  clear : ∀ key, (∀ h < job.endHeight, s.add.inserted h = true → key ∈ (job.outputs h).map Prod.fst →
    key ∈ job.spentIn s.remove.popped) → s.database key = []
  pops : (pops.map Prod.snd).Perm ((job.spentIn s.remove.popped).map job.position)

theorem spentIn_none (job : Job) : job.spentIn (fun _ => false) = [] := by
  rw [Job.spentIn, List.filter_eq_nil_iff.mpr fun _ _ => Bool.false_ne_true]
  rfl

theorem ledger_initial (job : Job) : Ledger job [] .initial where
  holds := fun h _ hins => by cases hins
  clear := fun _ _ => rfl
  pops := by
    change ([] : List UInt64).Perm ((job.spentIn fun _ => false).map job.position)
    rw [spentIn_none]
    exact .refl _

/-- What a popped block spends was inserted. -/
theorem Invariant.popped_inserted (hj : job.WellFormed) (hi : Invariant job s) {key : Key}
    (hkey : key ∈ job.spentIn s.remove.popped) :
    ∃ h < job.endHeight, s.add.inserted h = true ∧ key ∈ (job.outputs h).map Prod.fst := by
  obtain ⟨x, hx, hpopped, hspent⟩ := mem_spentIn.mp hkey
  obtain ⟨y, hy, hcreated⟩ := hj.created x hx key hspent
  have hnext : x < s.remove.next := by
    by_contra hge
    rw [(hi.remove.free x (Nat.not_lt.mp hge)).2.1] at hpopped
    cases hpopped
  have hindexed := hi.add.indexed hj.adders_pos hi.remove.behind (Nat.lt_of_le_of_lt hy hnext)
  exact ⟨y, Nat.lt_of_le_of_lt hy hx, hindexed.inserted, hcreated⟩

theorem Ledger.keep {pops : List (Nat × UInt64)} (h : Ledger job pops s)
    (hdatabase : s'.database = s.database) (hinserted : s'.add.inserted = s.add.inserted)
    (hpopped : s'.remove.popped = s.remove.popped) : Ledger job pops s' := by
  refine ⟨?_, ?_, ?_⟩
  · rw [hdatabase, hinserted, hpopped]
    exact h.holds
  · rw [hdatabase, hinserted, hpopped]
    exact h.clear
  · rw [hpopped]
    exact h.pops

/-- One more block is in the database, whose keys were in no other. -/
theorem Ledger.put {pops : List (Nat × UInt64)} (hj : job.WellFormed) (hd : job.Distinct)
    (hi : Invariant job s) (h : Ledger job pops s) {k : Nat} (hk : k < job.endHeight)
    (hfresh : s.add.inserted k = false) (hdatabase : s'.database = s.database.pushAll (job.outputs k))
    (hinserted : s'.add.inserted = Function.update s.add.inserted k true)
    (hpopped : s'.remove.popped = s.remove.popped) : Ledger job pops s' := by
  have hother : ∀ h' < job.endHeight, s.add.inserted h' = true → h' ≠ k := by
    intro h' _ hins heq
    rw [heq, hfresh] at hins
    cases hins
  have hnew : ∀ key ∈ (job.outputs k).map Prod.fst, s.database key = [] := by
    intro key hkey
    apply h.clear key
    intro h' hh' hins hkey'
    exact absurd (hd.height_unique hh' hk hkey' hkey) (hother h' hh' hins)
  have hnot : ∀ key ∈ (job.outputs k).map Prod.fst, key ∉ job.spentIn s.remove.popped := by
    intro key hkey hspent
    obtain ⟨h', hh', hins, hkey'⟩ := hi.popped_inserted hj hspent
    exact hother h' hh' hins (hd.height_unique hh' hk hkey' hkey)
  have hsame : ∀ key, key ∉ (job.outputs k).map Prod.fst → s'.database key = s.database key := by
    intro key hkey
    have hvalues : Buckets.values (job.outputs k) key = [] := by
      apply Buckets.values_eq_nil
      intro e he heq
      exact hkey (heq ▸ List.mem_map_of_mem he)
    rw [hdatabase, Stacks.pushAll, hvalues]
    rfl
  refine ⟨?_, ?_, ?_⟩
  · intro h' hh' hins e he hspent
    rw [hpopped] at hspent
    by_cases heq : h' = k
    · subst heq
      have hkey : e.1 ∈ (job.outputs h').map Prod.fst := List.mem_map_of_mem he
      rw [hdatabase, Stacks.pushAll, values_of_nodup (hd.block hk) he, hnew e.1 hkey]
      rfl
    · rw [hinserted, Function.update_of_ne heq] at hins
      rw [hsame e.1]
      · exact h.holds h' hh' hins e he hspent
      · intro hkey
        exact heq (hd.height_unique hh' hk (List.mem_map_of_mem he) hkey)
  · intro key hkey
    rw [hinserted, hpopped] at hkey
    have hmem : key ∉ (job.outputs k).map Prod.fst := by
      intro hmem
      exact hnot key hmem (hkey k hk (Function.update_self k true s.add.inserted) hmem)
    rw [hsame key hmem]
    apply h.clear key
    intro h' hh' hins
    apply hkey h' hh'
    rw [Function.update_of_ne (hother h' hh' hins)]
    exact hins
  · rw [hpopped]
    exact h.pops

/-- What a range pops are the positions of the keys that it spends. -/
theorem Ledger.poppedBy {pops : List (Nat × UInt64)} (hd : job.Distinct) (h : Ledger job pops s)
    {keys : List Key}
    (hkeys : ∀ key ∈ keys, s.database key ≠ [] ∧ key ∉ job.spentIn s.remove.popped ∧
      ∃ k < job.endHeight, s.add.inserted k = true ∧ key ∈ (job.outputs k).map Prod.fst) :
    (∀ key ∈ keys, ∃ value, s.database key = [value]) ∧
      (keys.filterMap fun key => (s.database key).head?.map fun value => (r, positionOf value)).map
        Prod.snd = keys.map job.position := by
  have hone : ∀ key ∈ keys, ∃ value, s.database key = [value] ∧ job.position key = positionOf value := by
    intro key hkey
    obtain ⟨-, hspent, k, hk, hins, hmem⟩ := hkeys key hkey
    obtain ⟨e, he, rfl⟩ := List.mem_map.mp hmem
    exact ⟨e.2, h.holds k hk hins e he hspent, position_eq hd hk he⟩
  refine ⟨fun key hkey => (hone key hkey).imp fun _ hvalue => hvalue.1, ?_⟩
  clear hkeys
  induction keys with
  | nil => rfl
  | cons key keys ih =>
    obtain ⟨value, hvalue, hposition⟩ := hone key List.mem_cons_self
    rw [List.filterMap_cons, hvalue, List.map_cons, hposition,
      ← ih fun key' hkey' => hone key' (List.mem_cons_of_mem key hkey')]
    rfl

theorem Ledger.pop {pops : List (Nat × UInt64)} (hj : job.WellFormed) (hd : job.Distinct)
    (hi : Invariant job s) (h : Ledger job pops s) {start stop : Nat}
    (hpc : s.remove.pcs r = .pop start stop) (hstep : removerStep job r s = some s') :
    Ledger job (pops ++ s.poppedBy job (.remover r)) s' := by
  obtain ⟨hend, hfresh, hpresent, hdatabase, hpopped, hadd⟩ := removerStep_pop_eq hj hi hpc hstep
  have hspent := spentIn_markRange hend hfresh
  have hmem : ∀ key, key ∈ job.spentIn s'.remove.popped ↔
      key ∈ job.spentIn s.remove.popped ∨ key ∈ job.rangeSpends start stop := by
    intro key
    rw [hpopped, hspent.mem_iff, List.mem_append]
  have hkeys : ∀ key ∈ job.rangeSpends start stop, s.database key ≠ [] ∧
      key ∉ job.spentIn s.remove.popped ∧
      ∃ k < job.endHeight, s.add.inserted k = true ∧ key ∈ (job.outputs k).map Prod.fst := by
    intro key hkey
    have hkept : key ∉ job.spentIn s.remove.popped := by
      intro hold
      obtain ⟨x, hx, hpop, hsx⟩ := mem_spentIn.mp hold
      obtain ⟨y, hle, hlt, hsy⟩ := mem_rangeSpends.mp hkey
      obtain rfl := hj.once x hx y (Nat.lt_of_lt_of_le hlt hend) key hsx hsy
      rw [hfresh x hle hlt] at hpop
      cases hpop
    refine ⟨hpresent key hkey, hkept, ?_⟩
    by_contra hnone
    apply hpresent key hkey
    apply h.clear key
    intro k hk hins hcreated
    exact absurd ⟨k, hk, hins, hcreated⟩ hnone
  obtain ⟨hone, htaken⟩ := h.poppedBy (r := r) hd hkeys
  have hpops : s.poppedBy job (.remover r) = (job.rangeSpends start stop).filterMap fun key =>
      (s.database key).head?.map fun value => (r, positionOf value) := by
    rw [State.poppedBy, hpc]
  refine ⟨?_, ?_, ?_⟩
  · intro k hk hins e he hnot
    rw [hadd] at hins
    rw [hmem, not_or] at hnot
    rw [hdatabase, Stacks.popAll, if_neg hnot.2]
    exact h.holds k hk hins e he hnot.1
  · intro key hkey
    rw [hdatabase, Stacks.popAll]
    by_cases htake : key ∈ job.rangeSpends start stop
    · obtain ⟨value, hvalue⟩ := hone key htake
      rw [if_pos htake, hvalue]
      rfl
    · rw [if_neg htake]
      apply h.clear key
      intro k hk hins hcreated
      rw [hadd] at hkey
      cases (hmem key).mp (hkey k hk hins hcreated) with
      | inl hold => exact hold
      | inr hnew => exact absurd hnew htake
  · have hmap := hspent.map job.position
    rw [List.map_append] at hmap
    rw [List.map_append, hpops, htaken, hpopped]
    exact (h.pops.append_right _).trans hmap.symm

theorem Ledger.step {pops : List (Nat × UInt64)} (hj : job.WellFormed) (hd : job.Distinct)
    (hi : Invariant job s) (h : Ledger job pops s) {w : Worker} (hstep : w.step job s = some s') :
    Ledger job (pops ++ s.poppedBy job w) s' := by
  cases w with
  | adder a =>
    rw [Worker.step] at hstep
    split at hstep
    · rename_i hwork
      have hs := adderStep_spec hj.size_pos hi.add hwork.1 hstep
      have hpopped : s'.remove.popped = s.remove.popped := by rw [hs.remove]
      rw [State.poppedBy, List.append_nil]
      cases hs.booked with
      | same live database inserted credited => exact h.keep database inserted hpopped
      | put k lt fresh live database inserted credited =>
        exact h.put hj hd hi lt fresh database inserted hpopped
      | credit k lt fresh live database inserted credited => exact h.keep database inserted hpopped
    · cases hstep
  | remover r =>
    rw [Worker.step] at hstep
    split at hstep
    · by_cases hpop : ∃ start stop, s.remove.pcs r = .pop start stop
      · obtain ⟨start, stop, hpc⟩ := hpop
        exact h.pop hj hd hi hpc hstep
      · have hpc : ∀ start stop, s.remove.pcs r ≠ .pop start stop :=
          fun start stop heq => hpop ⟨start, stop, heq⟩
        obtain ⟨hdatabase, hpopped, hadd⟩ := removerStep_kept hpc hstep
        have hnone : s.poppedBy job (.remover r) = [] := by
          rw [State.poppedBy]
          split
          · rename_i start stop heq
            exact absurd heq (hpc start stop)
          · rfl
        rw [hnone, List.append_nil]
        exact h.keep hdatabase (by rw [hadd]) hpopped
    · cases hstep

/-- The books are right after any schedule. -/
theorem Ledger.run {pops : List (Nat × UInt64)} (hj : job.WellFormed) (hd : job.Distinct)
    (hreach : Reachable job s) (h : Ledger job pops s) {ws : List Worker}
    (hrun : follow job ws s = some s') : Ledger job (pops ++ popsOf job ws s) s' := by
  induction ws generalizing s pops with
  | nil =>
    cases hrun
    rw [popsOf, List.append_nil]
    exact h
  | cons w ws ih =>
    obtain ⟨m, hstep, hrest⟩ := Option.bind_eq_some_iff.mp hrun
    rw [popsOf_cons hstep, ← List.append_assoc]
    exact ih (hreach.step (Worker.step_sound hstep)) (h.step hj hd (hreach.invariant hj).1 hstep) hrest

theorem ledger_run (hj : job.WellFormed) (hd : job.Distinct) {ws : List Worker}
    (hrun : follow job ws .initial = some s) : Ledger job (popsOf job ws .initial) s :=
  (ledger_initial job).run hj hd .initial hrun

end Books

section Failures
variable {a : Nat}

/-- A worker goes on or fails, and the other workers do not see it. -/
def Moved {α : Type} (pcs pcs' : Nat → α) (faults faults' : Nat → Option Fault) (w : Nat) : Prop :=
  (∃ pc, pcs' = Function.update pcs w pc ∧ faults' = faults) ∨
    ∃ f, pcs' = pcs ∧ faults' = Function.update faults w (some f)

theorem adderStep_moved (h : adderStep job a s = some s') :
    s.add.pcs a ≠ .done ∧ s'.remove = s.remove ∧ s'.aborted = s.aborted ∧
      Moved s.add.pcs s'.add.pcs s.add.faults s'.add.faults a := by
  have hdone : s.add.pcs a ≠ .done := by
    intro hdone
    rw [adderStep, hdone] at h
    cases h
  refine ⟨hdone, ?_⟩
  rw [adderStep] at h
  simp only [State.publishAdder] at h
  repeat' split at h
  all_goals cases h
  all_goals
    first
      | exact ⟨rfl, rfl, Or.inl ⟨_, rfl, rfl⟩⟩
      | exact ⟨rfl, rfl, Or.inr ⟨_, rfl, rfl⟩⟩

theorem removerStep_moved (h : removerStep job r s = some s') :
    s.remove.pcs r ≠ .done ∧ s'.add = s.add ∧ s'.aborted = s.aborted ∧
      Moved s.remove.pcs s'.remove.pcs s.remove.faults s'.remove.faults r := by
  have hdone : s.remove.pcs r ≠ .done := by
    intro hdone
    rw [removerStep, hdone] at h
    cases h
  refine ⟨hdone, ?_⟩
  rw [removerStep] at h
  simp only [State.publishRemover] at h
  repeat' split at h
  all_goals cases h
  all_goals
    first
      | exact ⟨rfl, rfl, Or.inl ⟨_, rfl, rfl⟩⟩
      | exact ⟨rfl, rfl, Or.inr ⟨_, rfl, rfl⟩⟩

/-- A worker that has failed stays where it is, which is not the end. -/
theorem Moved.stopped {α : Type} {pcs pcs' : Nat → α} {faults faults' : Nat → Option Fault} {w : Nat}
    {last : α} (h : Moved pcs pcs' faults faults' w) (hworking : faults w = none) (hw : pcs w ≠ last)
    (hstopped : ∀ v, faults v ≠ none → pcs v ≠ last) {v : Nat} (hv : faults' v ≠ none) : pcs' v ≠ last := by
  cases h with
  | inl h =>
    obtain ⟨pc, rfl, rfl⟩ := h
    have hne : v ≠ w := by
      intro heq
      exact hv (heq ▸ hworking)
    rw [Function.update_of_ne hne]
    exact hstopped v hv
  | inr h =>
    obtain ⟨f, rfl, rfl⟩ := h
    by_cases heq : v = w
    · rw [heq]
      exact hw
    · rw [Function.update_of_ne heq] at hv
      exact hstopped v hv

theorem Moved.persists {α : Type} {pcs pcs' : Nat → α} {faults faults' : Nat → Option Fault} {w : Nat}
    (h : Moved pcs pcs' faults faults' w) {v : Nat} (hv : faults v ≠ none) : faults' v ≠ none := by
  cases h with
  | inl h =>
    obtain ⟨pc, -, rfl⟩ := h
    exact hv
  | inr h =>
    obtain ⟨f, -, rfl⟩ := h
    by_cases heq : v = w
    · rw [heq, Function.update_self]
      exact Option.some_ne_none f
    · rw [Function.update_of_ne heq]
      exact hv

/-- Some worker of the job has failed. -/
def State.Broken (job : Job) (s : State) : Prop :=
  (∃ a < job.adders, s.add.faults a ≠ none) ∨ ∃ r < job.removers, s.remove.faults r ≠ none

/-- Workers that fail do not finish. -/
structure State.Stopped (s : State) : Prop where
  adders : ∀ a, s.add.faults a ≠ none → s.add.pcs a ≠ .done
  removers : ∀ r, s.remove.faults r ≠ none → s.remove.pcs r ≠ .done

theorem Step.stopped (hs : s.Stopped) (h : Step job s s') : s'.Stopped := by
  cases h with
  | adder a worker working step =>
    obtain ⟨hdone, hremove, -, hmoved⟩ := adderStep_moved step
    refine ⟨fun b => hmoved.stopped working hdone hs.adders, ?_⟩
    rw [hremove]
    exact hs.removers
  | remover r worker working step =>
    obtain ⟨hdone, hadd, -, hmoved⟩ := removerStep_moved step
    refine ⟨?_, fun b => hmoved.stopped working hdone hs.removers⟩
    rw [hadd]
    exact hs.adders
  | adderError a worker working fallible =>
    have hmoved : Moved s.add.pcs s.add.pcs s.add.faults
        (Function.update s.add.faults a (some .outside)) a := Or.inr ⟨.outside, rfl, rfl⟩
    refine ⟨fun b => hmoved.stopped working ?_ hs.adders, hs.removers⟩
    intro hdone
    rw [hdone] at fallible
    exact fallible
  | removerError r worker working fallible =>
    have hmoved : Moved s.remove.pcs s.remove.pcs s.remove.faults
        (Function.update s.remove.faults r (some .outside)) r := Or.inr ⟨.outside, rfl, rfl⟩
    refine ⟨hs.adders, fun b => hmoved.stopped working ?_ hs.removers⟩
    intro hdone
    rw [hdone] at fallible
    exact fallible
  | adderAborts a worker failed => exact ⟨hs.adders, hs.removers⟩
  | removerAborts r worker failed => exact ⟨hs.adders, hs.removers⟩

theorem Step.broken (hb : s.Broken job) (h : Step job s s') : s'.Broken job := by
  have hadds : (∀ b, s.add.faults b ≠ none → s'.add.faults b ≠ none) →
      (∀ b, s.remove.faults b ≠ none → s'.remove.faults b ≠ none) → s'.Broken job := by
    intro hadd hremove
    cases hb with
    | inl hb =>
      obtain ⟨a, ha, hfault⟩ := hb
      exact Or.inl ⟨a, ha, hadd a hfault⟩
    | inr hb =>
      obtain ⟨r, hr, hfault⟩ := hb
      exact Or.inr ⟨r, hr, hremove r hfault⟩
  cases h with
  | adder a worker working step =>
    obtain ⟨-, hremove, -, hmoved⟩ := adderStep_moved step
    apply hadds fun b => hmoved.persists
    rw [hremove]
    exact fun _ hv => hv
  | remover r worker working step =>
    obtain ⟨-, hadd, -, hmoved⟩ := removerStep_moved step
    refine hadds ?_ fun b => hmoved.persists
    rw [hadd]
    exact fun _ hv => hv
  | adderError a worker working fallible =>
    have hmoved : Moved s.add.pcs s.add.pcs s.add.faults
        (Function.update s.add.faults a (some .outside)) a := Or.inr ⟨.outside, rfl, rfl⟩
    exact hadds (fun b => hmoved.persists) fun _ hv => hv
  | removerError r worker working fallible =>
    have hmoved : Moved s.remove.pcs s.remove.pcs s.remove.faults
        (Function.update s.remove.faults r (some .outside)) r := Or.inr ⟨.outside, rfl, rfl⟩
    exact hadds (fun _ hv => hv) fun b => hmoved.persists
  | adderAborts a worker failed => exact hb
  | removerAborts r worker failed => exact hb

theorem follow_append {ws ws' : List Worker} {m : State} (h : follow job ws s = some m)
    (h' : follow job ws' m = some s') : follow job (ws ++ ws') s = some s' := by
  induction ws generalizing s with
  | nil =>
    cases h
    exact h'
  | cons w ws ih =>
    obtain ⟨n, hstep, hrest⟩ := Option.bind_eq_some_iff.mp h
    exact Option.bind_eq_some_iff.mpr ⟨n, hstep, ih hrest⟩

/-- A run in which no worker has failed is a schedule of steps of the workers. -/
theorem Reachable.schedule (h : Reachable job s) :
    s.Stopped ∧ (s.Broken job ∨ ∃ ws, Hintsgen.follow job ws .initial = some s) := by
  induction h with
  | initial => exact ⟨⟨fun _ hf => absurd rfl hf, fun _ hf => absurd rfl hf⟩, Or.inr ⟨[], rfl⟩⟩
  | @step s s' hreach hstep ih =>
    refine ⟨hstep.stopped ih.1, ?_⟩
    cases ih.2 with
    | inl hb => exact Or.inl (hstep.broken hb)
    | inr hws =>
      obtain ⟨ws, hws⟩ := hws
      cases hstep with
      | adder a worker working step =>
        refine Or.inr ⟨ws ++ [.adder a], follow_append hws ?_⟩
        have hone : Worker.step job s (.adder a) = some s' := by
          rw [Worker.step, if_pos ⟨worker, working⟩]
          exact step
        exact Option.bind_eq_some_iff.mpr ⟨s', hone, rfl⟩
      | remover r worker working step =>
        refine Or.inr ⟨ws ++ [.remover r], follow_append hws ?_⟩
        have hone : Worker.step job s (.remover r) = some s' := by
          rw [Worker.step, if_pos ⟨worker, working⟩]
          exact step
        exact Option.bind_eq_some_iff.mpr ⟨s', hone, rfl⟩
      | adderError a worker working fallible =>
        refine Or.inl (Or.inl ⟨a, worker, ?_⟩)
        change Function.update s.add.faults a (some .outside) a ≠ none
        rw [Function.update_self]
        exact Option.some_ne_none _
      | removerError r worker working fallible =>
        refine Or.inl (Or.inr ⟨r, worker, ?_⟩)
        change Function.update s.remove.faults r (some .outside) r ≠ none
        rw [Function.update_self]
        exact Option.some_ne_none _
      | adderAborts a worker failed => exact Or.inl (Or.inl ⟨a, worker, failed⟩)
      | removerAborts r worker failed => exact Or.inl (Or.inr ⟨r, worker, failed⟩)

end Failures

section Ends

/-- What holds once all workers have finished. -/
structure Settled (job : Job) (s : State) : Prop where
  counts : ∀ x < job.endHeight, s.add.counts x = some (job.outputs x).length
  inserted : ∀ x < job.endHeight, s.add.inserted x = true
  popped : ∀ x < job.endHeight, s.remove.popped x = true
  live : s.live + ((List.range job.endHeight).map fun x => (job.spends x).length).sum =
    ((List.range job.endHeight).map fun x => (job.outputs x).length).sum

theorem Invariant.settled (hadders : 0 < job.adders) (hremovers : 0 < job.removers)
    (hi : Invariant job s) (hf : s.Finished job) : Settled job s := by
  have hadded : ∀ x < job.endHeight, s.add.Indexed job x := by
    intro x hx
    have hplace := hi.add.place 0
    rw [hf.1 0 hadders] at hplace
    obtain ⟨a, ha, howner⟩ := hi.add.owned x (Nat.lt_of_lt_of_le hx hplace.1)
    obtain ⟨hinserted, hcounts, hcredited⟩ := hi.add.treated x a howner
    rw [hf.1 a ha] at hinserted hcounts hcredited
    exact ⟨hinserted, hcounts, hcredited⟩
  have hremoved : ∀ x < job.endHeight, s.remove.popped x = true ∧ s.remove.debited x = true := by
    intro x hx
    have hplace := hi.remove.place 0
    rw [hf.2 0 hremovers] at hplace
    obtain ⟨r, hr, howner⟩ := hi.remove.owned x (Nat.lt_of_lt_of_le hx hplace)
    obtain ⟨hpopped, hdebited⟩ := hi.remove.treated x r howner
    rw [hf.2 r hr] at hpopped hdebited
    exact ⟨hpopped, hdebited⟩
  have hall : ∀ p : Nat → Bool, (∀ x < job.endHeight, p x = true) →
      marked job p = Finset.range job.endHeight := by
    intro p hp
    ext x
    rw [mem_marked, Finset.mem_range]
    exact ⟨fun h => h.1, fun h => ⟨h, hp x h⟩⟩
  refine ⟨fun x hx => (hadded x hx).counted, fun x hx => (hadded x hx).inserted,
    fun x hx => (hremoved x hx).1, ?_⟩
  have hlive := hi.accounts.live
  rw [hall _ fun x hx => (hremoved x hx).2, hall _ fun x hx => (hadded x hx).credited] at hlive
  exact hlive

end Ends

end FlorestaDb.Hintsgen
