import FlorestaDb.Create

/-! The life of one node slot: it is written, its next pointer is replaced any number of
times, and it is tombstoned until it is written again. The checksum and the next pointer
share a word, and a pointer update leaves the checksum half alone. -/
namespace FlorestaDb
open Program Program.Prog Allocator

variable {cfg : Config} {v : Env} {t : Tid} {s s' : Store} {o : Nat}

/-- A call that replaces the next pointer of a slot, with its arguments. -/
inductive SlotUpdate where
  | setPrivateNext (old new : Nat)
  | compareExchangeNext (expected replacement : Nat)
  deriving DecidableEq

namespace SlotUpdate

def expected : SlotUpdate → Nat
  | .setPrivateNext old _ => old
  | .compareExchangeNext expected _ => expected

def replacement : SlotUpdate → Nat
  | .setPrivateNext _ new => new
  | .compareExchangeNext _ replacement => replacement

/-- The call on the slot at `o`, and whether it reports success. -/
def call (cfg : Config) (o : Nat) : SlotUpdate → StoreM Bool
  | .setPrivateNext old new => do
    return (← (FlorestaDb.setPrivateNext cfg o old new).attempt).isOk
  | .compareExchangeNext expected replacement => do
    match ← (FlorestaDb.compareExchangeNext cfg o expected replacement).attempt with
    | .ok exchanged => return exchanged
    | .error _ => return false

/-- The pointers are packed and the expected one is there. -/
def Succeeds (u : SlotUpdate) (next : Nat) : Prop :=
  next = u.expected ∧ u.replacement ≤ nodePointerMask.toNat

instance (u : SlotUpdate) (next : Nat) : Decidable (u.Succeeds next) :=
  inferInstanceAs (Decidable (_ ∧ _))

end SlotUpdate

def callAll (cfg : Config) (o : Nat) : List SlotUpdate → StoreM (List Bool)
  | [] => pure []
  | u :: us => do
    let reported ← u.call cfg o
    return reported :: (← callAll cfg o us)

/-- The argument of the last update that reported success, `next` before any. -/
def lastSuccess (next : Nat) : List SlotUpdate → List Bool → Nat
  | u :: us, reported :: rest => lastSuccess (if reported then u.replacement else next) us rest
  | _, _ => next

section Update

theorem setPrivateNext_refused (hv : cfg.Valid) (hq : Quiet cfg.bodyLayout s.body)
    (hn : LiveNode cfg s o) {old new : Nat}
    (h : ¬((s.slots o).next = old ∧ new ≤ nodePointerMask.toNat))
    {Q : Except Error Unit → Store → Prop} (hQ : ∀ e, Q (.error e) s) :
    (setPrivateNext cfg o old new).wp v t Q s := by
  rw [setPrivateNext]
  by_cases hpacked : old > nodePointerMask.toNat ∨ new > nodePointerMask.toNat
  · rw [if_pos hpacked, wp_throw]
    exact hQ _
  · have hne : ((s.slots o).pointer &&& nodePointerMask).toNat ≠ old := fun heq => by
      exact h ⟨heq, by omega⟩
    rw [if_neg hpacked, wp_bind, pointerAtomic_spec hv hq hn, andThen_ok, wp_bind,
      readPointerWord_spec hv hq hn, andThen_ok, if_pos hne, wp_throw]
    exact hQ _

theorem compareExchangeNext_refused (hv : cfg.Valid) (hq : Quiet cfg.bodyLayout s.body)
    (hn : LiveNode cfg s o) {expected new : Nat}
    (h : ¬((s.slots o).next = expected ∧ new ≤ nodePointerMask.toNat))
    {Q : Except Error Bool → Store → Prop} (herr : ∀ e, Q (.error e) s)
    (hfalse : Q (.ok false) s) : (compareExchangeNext cfg o expected new).wp v t Q s := by
  rw [compareExchangeNext]
  by_cases hpacked : expected > nodePointerMask.toNat ∨ new > nodePointerMask.toNat
  · rw [if_pos hpacked, wp_throw]
    exact herr _
  · have hne : ((s.slots o).pointer &&& nodePointerMask).toNat ≠ expected := fun heq => by
      exact h ⟨heq, by omega⟩
    rw [if_neg hpacked, wp_bind, pointerAtomic_spec hv hq hn, andThen_ok, wp_bind,
      readPointerWord_spec hv hq hn, andThen_ok, if_pos hne, wp_pure]
    exact hfalse

/-- The state after a call that succeeds or fails as `u.Succeeds` says. -/
def SlotUpdate.after (u : SlotUpdate) (o : Nat) (s : Store) : Store :=
  if u.Succeeds (s.slots o).next then s.setSlot o (·.withNext u.replacement) else s

/-- An update reports success exactly when it replaced the pointer. -/
theorem SlotUpdate.call_spec (u : SlotUpdate) (hv : cfg.Valid) (hq : Quiet cfg.bodyLayout s.body)
    (hn : LiveNode cfg s o) :
    (u.call cfg o).wp v t (fun r s' => r = .ok (decide (u.Succeeds (s.slots o).next)) ∧
      s' = u.after o s) s := by
  cases u with
  | setPrivateNext old new =>
    rw [SlotUpdate.call, wp_bind, wp_attempt]
    by_cases h : (s.slots o).next = old ∧ new ≤ nodePointerMask.toNat
    · refine (setPrivateNext_spec hv hq hn h.1 h.2).mpr ?_
      rw [andThen_ok, wp_pure]
      exact ⟨congrArg Except.ok (decide_eq_true h).symm, (if_pos h).symm⟩
    · refine setPrivateNext_refused hv hq hn h ?_
      intro e
      rw [andThen_ok, wp_pure]
      exact ⟨congrArg Except.ok (decide_eq_false h).symm, (if_neg h).symm⟩
  | compareExchangeNext expected new =>
    rw [SlotUpdate.call, wp_bind, wp_attempt]
    by_cases h : (s.slots o).next = expected ∧ new ≤ nodePointerMask.toNat
    · refine (compareExchangeNext_spec hv hq hn h.1 h.2).mpr ?_
      simp only [andThen_ok]
      rw [wp_pure]
      exact ⟨congrArg Except.ok (decide_eq_true h).symm, (if_pos h).symm⟩
    · have hfalse : (Except.ok false : Except Error Bool) = .ok (decide
          (SlotUpdate.Succeeds (.compareExchangeNext expected new) (s.slots o).next)) ∧
          s = SlotUpdate.after (.compareExchangeNext expected new) o s :=
        ⟨congrArg Except.ok (decide_eq_false h).symm, (if_neg h).symm⟩
      refine compareExchangeNext_refused hv hq hn h ?_ ?_
      · intro e
        simp only [andThen_ok]
        rw [wp_pure]
        exact hfalse
      · simp only [andThen_ok]
        rw [wp_pure]
        exact hfalse

end Update

section Slot

/-- What the slot at `o` holds; `sum` is the checksum half of its pointer word. -/
structure Bears (s : Store) (o : Nat) (key : Key) (value sum : UInt64) (next : Nat) : Prop where
  key : (s.slots o).key = key
  value : (s.slots o).value = value
  checksum : (s.slots o).checksum = sum
  next : (s.slots o).next = next

/-- Nothing but the slot at `o` changed. -/
structure Confined (o : Nat) (s s' : Store) : Prop where
  eq : s' = { s with slots := s'.slots }
  others : ∀ o' ≠ o, s'.slots o' = s.slots o'

theorem Confined.refl (o : Nat) (s : Store) : Confined o s s := ⟨rfl, fun _ _ => rfl⟩

theorem Confined.trans {s'' : Store} (h : Confined o s s') (h' : Confined o s' s'') :
    Confined o s s'' := by
  constructor
  · rw [h'.eq, h.eq]
  · intro o' hne
    rw [h'.others o' hne, h.others o' hne]

theorem confined_setSlot (s : Store) (o : Nat) (f : Slot → Slot) : Confined o s (s.setSlot o f) :=
  ⟨rfl, fun _ hne => setSlot_slots_ne s f hne⟩

theorem Confined.body (h : Confined o s s') : s'.body = s.body := by rw [h.eq]

theorem Confined.live (h : Confined o s s') {o' : Nat} (hn : LiveNode cfg s o') :
    LiveNode cfg s' o' := ⟨h.body ▸ hn.live, hn.aligned⟩

theorem Confined.quiet (h : Confined o s s') (hq : Quiet cfg.bodyLayout s.body) :
    Quiet cfg.bodyLayout s'.body := h.body ▸ hq

variable {key : Key} {value sum : UInt64} {next : Nat}

theorem SlotUpdate.confined_after (u : SlotUpdate) (o : Nat) (s : Store) :
    Confined o s (u.after o s) := by
  rw [SlotUpdate.after]
  split
  · exact confined_setSlot s o _
  · exact .refl o s

/-- An update replaces the next pointer or nothing; the checksum half stays. -/
theorem Bears.after (h : Bears s o key value sum next) (u : SlotUpdate) :
    Bears (u.after o s) o key value sum (if u.Succeeds next then u.replacement else next) := by
  rw [SlotUpdate.after, h.next]
  by_cases hu : u.Succeeds next
  · rw [if_pos hu, if_pos hu]
    constructor
    · rw [setSlot_slots_self]
      exact h.key
    · rw [setSlot_slots_self]
      exact h.value
    · rw [setSlot_slots_self, Slot.withNext_checksum _ hu.2]
      exact h.checksum
    · rw [setSlot_slots_self, Slot.withNext_next _ hu.2]
  · rw [if_neg hu, if_neg hu]
    exact h

theorem callAll_spec (hv : cfg.Valid) (hq : Quiet cfg.bodyLayout s.body) (hn : LiveNode cfg s o)
    (h : Bears s o key value sum next) (us : List SlotUpdate) :
    (callAll cfg o us).wp v t (fun r s' => ∃ reports, r = .ok reports ∧ Confined o s s' ∧
      Bears s' o key value sum (lastSuccess next us reports)) s := by
  induction us generalizing s next with
  | nil => exact ⟨[], rfl, .refl o s, h⟩
  | cons u us ih =>
    rw [callAll, wp_bind]
    refine wp_mono (u.call_spec hv hq hn) ?_
    rintro _ _ ⟨rfl, rfl⟩
    have hc := u.confined_after o s
    rw [andThen_ok, wp_bind]
    refine wp_mono (ih (hc.quiet hq) (hc.live hn) (h.after u)) ?_
    rintro _ s' ⟨reports, rfl, hc', h'⟩
    rw [andThen_ok, wp_pure]
    refine ⟨_, rfl, hc.trans hc', ?_⟩
    rw [lastSuccess, h.next]
    simpa only [decide_eq_true_eq] using h'

theorem bears_fresh (s : Store) (o : Nat) (key : Key) (value : UInt64) :
    Bears (s.setSlot o fun _ => ⟨key, value, freshPointer key value⟩) o key value
      (nodeChecksum key value) 0 := by
  constructor
  · rw [setSlot_slots_self]
  · rw [setSlot_slots_self]
  · rw [setSlot_slots_self, fresh_checksum]
  · rw [setSlot_slots_self, fresh_next]

theorem Bears.tombstone (h : Bears s o key value sum next) :
    Bears (s.setSlot o fun slot => { slot with pointer := 0 }) o key value 0 0 := by
  constructor
  · rw [setSlot_slots_self]
    exact h.key
  · rw [setSlot_slots_self]
    exact h.value
  · rw [setSlot_slots_self, tombstone_checksum]
  · rw [setSlot_slots_self, Slot.next_eq]
    exact Nat.zero_mod _

end Slot

section Read
variable {key : Key} {value sum : UInt64} {next : Nat}

theorem Bears.read (hv : cfg.Valid) (hq : Quiet cfg.bodyLayout s.body) (hn : LiveNode cfg s o)
    (h : Bears s o key value (nodeChecksum key value) next) :
    (readNode cfg o).wp v t (fun r s' => r = .ok ⟨o, next, value, key⟩ ∧ s' = s) s := by
  refine readNode_spec hv hq hn ?_ ⟨?_, rfl⟩
  · rw [h.checksum, h.key, h.value]
  · rw [h.key, h.value, h.next]

/-- The error of a slot whose checksum half is not that of its key and value. -/
theorem readNode_mismatch (hv : cfg.Valid) (hq : Quiet cfg.bodyLayout s.body)
    (hn : LiveNode cfg s o)
    (hsum : (s.slots o).checksum ≠ nodeChecksum (s.slots o).key (s.slots o).value)
    {Q : Except Error Node → Store → Prop} :
    (readNode cfg o).wp v t Q s ↔ Q (.error (.corrupt "body node checksum does not match")) s := by
  have hr := hn.range hv hq (Nat.le_refl o) (Nat.le_refl (o + nodeSize))
  rw [readNode, if_neg (hn.pos hv hq), if_neg (not_not.mpr hn.aligned), wp_bind, wp_step, hr,
    andThen_ok, wp_bind, wp_step, andThen_ok, wp_bind, wp_step, andThen_ok, wp_bind, wp_step,
    andThen_ok, wp_bind, wp_step, andThen_ok]
  have hsum' : (s.slots o).pointer >>> nodeChecksumShift ≠
      nodeChecksum (s.slots o).key (s.slots o).value := hsum
  simp only [Key.ofHalves_self]
  rw [if_pos hsum', wp_throw]

theorem nodeChecksum_ne_zero (key : Key) (value : UInt64) : nodeChecksum key value ≠ 0 := by
  intro h
  have hpos := (nodeChecksum_toNat key value).1
  rw [h] at hpos
  exact absurd hpos (by decide)

theorem Bears.read_tombstone (hv : cfg.Valid) (hq : Quiet cfg.bodyLayout s.body)
    (hn : LiveNode cfg s o) (h : Bears s o key value 0 next) :
    (readNode cfg o).wp v t (fun r s' =>
      r = .error (.corrupt "body node checksum does not match") ∧ s' = s) s ∧
    (readNodeIfPresent cfg o).wp v t (fun r s' => r = .ok none ∧ s' = s) s := by
  constructor
  · refine (readNode_mismatch hv hq hn ?_).mpr ⟨rfl, rfl⟩
    rw [h.checksum]
    exact (nodeChecksum_ne_zero _ _).symm
  · have hzero : (s.slots o).pointer >>> nodeChecksumShift = 0 := h.checksum
    rw [readNodeIfPresent, wp_bind, readPointerWord_spec hv hq hn, andThen_ok, if_pos hzero,
      wp_pure]
    exact ⟨rfl, rfl⟩

end Read

/-- The slot at `o` was written, in a live allocation or in a new one. -/
inductive SlotWritten (cfg : Config) (t : Tid) (key : Key) (value : UInt64) (s : Store) (o : Nat)
    (s' : Store) : Prop where
  | write (live : LiveNode cfg s o)
      (run : (writeNode (nodeAlloc cfg o) key value).run t s = some (.ok (), s'))
  | allocate (fuel : Nat) (allocation : Allocation) (offset : allocation.offset = o)
      (run : (allocateNode cfg fuel key value).run t s = some (.ok allocation, s'))

section Life
variable {key : Key} {value : UInt64}

/-- A written slot is live, holds its key and value, and its next pointer is null. -/
theorem SlotWritten.bears (hv : cfg.Valid) (hq : Quiet cfg.bodyLayout s.body)
    (h : SlotWritten cfg t key value s o s') :
    Quiet cfg.bodyLayout s'.body ∧ LiveNode cfg s' o ∧
      Bears s' o key value (nodeChecksum key value) 0 ∧
      ∀ o' ≠ o, s'.slots o' = s.slots o' := by
  cases h with
  | write live run =>
    have hspec : (writeNode (nodeAlloc cfg o) key value).wp .any t
        (fun _ s' => s' = s.setSlot o fun _ => ⟨key, value, freshPointer key value⟩) s :=
      (writeNode_spec hv hq live).mpr rfl
    obtain rfl := post_of_returns hspec (returns_of_run run)
    have hc := confined_setSlot s o fun _ => ⟨key, value, freshPointer key value⟩
    exact ⟨hc.quiet hq, hc.live live, bears_fresh s o key value, hc.others⟩
  | allocate fuel allocation offset run =>
    obtain ⟨hq', ⟨o', heq, hn, hs', -⟩ | ⟨e, heq, -⟩⟩ :=
      post_of_returns (allocateNode_placed hv hq key value nofun) (returns_of_run run)
    · cases heq
      obtain rfl := offset
      have hc := confined_setSlot { s with body := s'.body } (nodeAlloc cfg o').offset
        fun _ => ⟨key, value, freshPointer key value⟩
      have hb := bears_fresh { s with body := s'.body } (nodeAlloc cfg o').offset key value
      rw [nodeAlloc_offset, ← hs'] at hb hc
      exact ⟨hq', hn, hb, hc.others⟩
    · cases heq

/- Updates come in any number and order. A tombstone stays one under further updates, and
   the slot is readable again only when it is written again. -/
theorem node_slot_life_cycle (hv : cfg.Valid) (hq : Quiet cfg.bodyLayout s.body)
    {s₁ : Store} (hw : SlotWritten cfg t key value s o s₁) (us : List SlotUpdate) :
    ∃ reports s₂, (callAll cfg o us).run t s₁ = some (.ok reports, s₂) ∧
      (readNode cfg o).run t s₂ = some (.ok ⟨o, lastSuccess 0 us reports, value, key⟩, s₂) ∧
      (readNext cfg o).run t s₂ = some (.ok (lastSuccess 0 us reports), s₂) ∧
      (∀ o' ≠ o, s₂.slots o' = s.slots o') ∧
      (∀ u : SlotUpdate, ∃ reported s₃, (u.call cfg o).run t s₂ = some (.ok reported, s₃) ∧
        (reported = true ↔ u.Succeeds (lastSuccess 0 us reports)) ∧
        (reported = false → s₃ = s₂)) ∧
      ∃ s₃, (tombstoneNode cfg o).run t s₂ = some (.ok (), s₃) ∧
        (∀ o' ≠ o, s₃.slots o' = s.slots o') ∧
        ∀ later : List SlotUpdate, ∃ reports' s₄,
          (callAll cfg o later).run t s₃ = some (.ok reports', s₄) ∧
          (readNode cfg o).run t s₄ =
            some (.error (.corrupt "body node checksum does not match"), s₄) ∧
          (readNodeIfPresent cfg o).run t s₄ = some (.ok none, s₄) := by
  obtain ⟨hq₁, hn₁, hb₁, hothers⟩ := hw.bears hv hq
  obtain ⟨_, s₂, hrun, reports, rfl, hc₂, hb₂⟩ :=
    run_of_wp (callAll_spec (v := .fair) (t := t) hv hq₁ hn₁ hb₁ us)
  have hq₂ := hc₂.quiet hq₁
  have hn₂ := hc₂.live hn₁
  refine ⟨reports, s₂, hrun, ?_, ?_, ?_, ?_, ?_⟩
  · obtain ⟨_, _, hread, rfl, rfl⟩ := run_of_wp (hb₂.read (v := .fair) (t := t) hv hq₂ hn₂)
    exact hread
  · obtain ⟨_, _, hread, rfl, rfl⟩ := run_of_wp ((readNext_spec (v := .fair) (t := t)
      (Q := fun r s' => r = .ok (lastSuccess 0 us reports) ∧ s' = s₂) hv hq₂ hn₂).mpr
      ⟨by rw [hb₂.next], rfl⟩)
    exact hread
  · intro o' hne
    rw [hc₂.others o' hne, hothers o' hne]
  · intro u
    obtain ⟨_, _, hcall, rfl, rfl⟩ := run_of_wp (u.call_spec (v := .fair) (t := t) hv hq₂ hn₂)
    refine ⟨_, _, hcall, ?_, ?_⟩
    · rw [decide_eq_true_eq, hb₂.next]
    · intro hfalse
      rw [SlotUpdate.after, if_neg (of_decide_eq_false hfalse)]
  · have hspec := (tombstoneNode_spec (v := .fair) (t := t)
      (Q := fun r s' => r = .ok () ∧ s' = s₂.setSlot o fun slot => { slot with pointer := 0 })
      hv hq₂ hn₂).mpr ⟨rfl, rfl⟩
    obtain ⟨_, s₃, htomb, rfl, rfl⟩ := run_of_wp hspec
    have hc₃ := confined_setSlot s₂ o fun slot => { slot with pointer := 0 }
    refine ⟨_, htomb, ?_, ?_⟩
    · intro o' hne
      rw [hc₃.others o' hne, hc₂.others o' hne, hothers o' hne]
    · intro later
      obtain ⟨_, s₄, hlater, reports', rfl, hc₄, hb₄⟩ := run_of_wp (callAll_spec (v := .fair)
        (t := t) hv (hc₃.quiet hq₂) (hc₃.live hn₂) hb₂.tombstone later)
      obtain ⟨hread, hpresent⟩ := hb₄.read_tombstone (v := .fair) (t := t) hv
        (hc₄.quiet (hc₃.quiet hq₂)) (hc₄.live (hc₃.live hn₂))
      obtain ⟨_, _, hread, rfl, rfl⟩ := run_of_wp hread
      obtain ⟨_, _, hpresent, rfl, rfl⟩ := run_of_wp hpresent
      exact ⟨reports', _, hlater, hread, hpresent⟩

/-- A new store has room for a node. -/
theorem written_created (key : Key) (value : UInt64) :
    ∃ o s₁, SlotWritten Config.small 0 key value Store.created o s₁ := by
  have hvalid : Config.small.Valid := Config.validate_ok (by decide +kernel)
  have hspec := allocateNode_placed (v := .fair) (t := 0) (s := Store.created) hvalid
    (quiet_created Config.small.bodyLayout) key value fun _ => Nat.le_refl 3
  obtain ⟨r, s₁, hrun, -, ⟨o, rfl, -⟩ | ⟨e, rfl, hrefused, -⟩⟩ := run_of_wp hspec
  · exact ⟨o, s₁, .allocate 3 _ rfl hrun⟩
  · rcases hrefused.short (by decide) (by decide) (by decide) with ⟨-, hstuck⟩ | ⟨hv, -⟩
    · exact absurd rfl (hstuck.1 0 (by decide))
    · cases hv

/-- The life of the first node of a new store: linked to itself, then refused a new link. -/
theorem node_slot_life_cycle_first :
    ∃ o s₁, SlotWritten Config.small 0 (Vector.replicate 16 7) 42 Store.created o s₁ ∧
      ∃ reports s₂, (callAll Config.small o [.setPrivateNext 0 o, .compareExchangeNext 0 1]).run 0
          s₁ = some (.ok reports, s₂) ∧
        (readNode Config.small o).run 0 s₂ = some (.ok ⟨o, lastSuccess 0
          [.setPrivateNext 0 o, .compareExchangeNext 0 1] reports, 42, Vector.replicate 16 7⟩, s₂) := by
  have hvalid : Config.small.Valid := Config.validate_ok (by decide +kernel)
  obtain ⟨o, s₁, hw⟩ := written_created (Vector.replicate 16 7) 42
  obtain ⟨reports, s₂, hcalls, hread, -⟩ := node_slot_life_cycle hvalid
    (quiet_created Config.small.bodyLayout) hw [.setPrivateNext 0 o, .compareExchangeNext 0 1]
  exact ⟨o, s₁, hw, reports, s₂, hcalls, hread⟩

end Life

end FlorestaDb
