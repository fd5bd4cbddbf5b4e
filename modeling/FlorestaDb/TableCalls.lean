import FlorestaDb.TableSequential
import FlorestaDb.Lib.Buckets

/-! The scalar calls of the API in a sequential run, against the contents of the buckets:
lists of keyed entries, newest first. -/
namespace FlorestaDb
open Program Program.Prog Allocator Chain

variable {cfg : Config} {m : Machine} {v : Env} {t : Tid} {d : Db} {chains : Nat → List Nat}
  {priv : Set Nat} {bare bareBlobs : Set Allocation} {b o fuel : Nat} {l r : List Nat} {key : Key}
  {α : Type}

section Content

/-- What the chains say, bucket by bucket. -/
def content (cfg : Config) (s : Store) (chains : Nat → List Nat) (b : Nat) :
    List (Key × List UInt8) := (chains b).map (entryAt cfg s)

variable {s s' : Store} {N : Set Nat} {value : List UInt8}

theorem content_same (h : Same cfg N s s') (hN : ∀ b, ∀ o ∈ chains b, o ∈ N) :
    content cfg s' chains = content cfg s chains := by
  funext b
  exact List.map_congr_left fun o ho => (h o (hN b o ho)).2

theorem content_update (new : List Nat) :
    content cfg s (Function.update chains b new) =
      Function.update (content cfg s chains) b (new.map (entryAt cfg s)) := by
  funext b'
  by_cases hb : b' = b
  · subst hb
    simp [content]
  · simp [content, hb]

theorem content_push (hentry : entryAt cfg s o = (key, value)) :
    content cfg s (Function.update chains (bucketOf cfg key) (o :: chains (bucketOf cfg key))) =
      Buckets.push (bucketOf cfg) (content cfg s chains) key value := by
  rw [content_update, List.map_cons, hentry]
  rfl

theorem content_unlink (hc : chains (bucketOf cfg key) = l ++ o :: r)
    (hkey : (s.slots o).key = key) (hl : ∀ x ∈ l, (s.slots x).key ≠ key) :
    content cfg s (Function.update chains (bucketOf cfg key) (l ++ r)) =
      Buckets.drop (bucketOf cfg) (content cfg s chains) key := by
  have hskip : ∀ e ∈ l.map (entryAt cfg s), ¬(e.1 = key) := by
    intro e he
    obtain ⟨x, hx, rfl⟩ := List.mem_map.mp he
    exact hl x hx
  have hhit : decide ((entryAt cfg s o).1 = key) = true := decide_eq_true hkey
  rw [content_update, Buckets.drop, content, hc, List.map_append, List.map_append, List.map_cons,
    List.eraseP_append_right _ (by simpa using hskip),
    List.eraseP_cons_of_pos (a := entryAt cfg s o) hhit]

theorem content_absent (hl : ∀ x ∈ chains b, (s.slots x).key ≠ key) :
    ∀ e ∈ content cfg s chains b, e.1 ≠ key := by
  intro e he
  obtain ⟨x, hx, rfl⟩ := List.mem_map.mp he
  exact hl x hx

/-- The first node of a key holds the newest value of its stack. -/
theorem stack_found (hc : chains (bucketOf cfg key) = l ++ o :: r)
    (hkey : (s.slots o).key = key) (hl : ∀ x ∈ l, (s.slots x).key ≠ key) :
    (Buckets.stack (bucketOf cfg) (content cfg s chains) key).head? = some (entryAt cfg s o).2 := by
  have hskip : ∀ e ∈ l.map (entryAt cfg s), e.1 ≠ key := by
    intro e he
    obtain ⟨x, hx, rfl⟩ := List.mem_map.mp he
    exact hl x hx
  have hkey' : (entryAt cfg s o).1 = key := hkey
  rw [Buckets.stack, content, hc, List.map_append, List.map_cons, Buckets.values_append,
    Buckets.values_eq_nil hskip, List.nil_append, Buckets.values_cons, if_pos hkey']
  rfl

theorem stack_absent (hl : ∀ x ∈ chains (bucketOf cfg key), (s.slots x).key ≠ key) :
    Buckets.stack (bucketOf cfg) (content cfg s chains) key = [] :=
  Buckets.values_eq_nil (content_absent hl)

end Content

section Guards

/-- No call is in progress. -/
structure Idle (d : Db) : Prop where
  quiescence : d.quiescence = RwLock.free
  locks : ∀ b, d.deleteLocks b = 0
  compaction : d.compactionState = 0
  checkpoint : d.checkpointState = 0

theorem Idle.frame {d' : Db} (h : Idle d) (hf : Frame d d') : Idle d' := by
  rw [Frame] at hf
  rw [hf]
  exact ⟨h.quiescence, h.locks, h.compaction, h.checkpoint⟩

/-- The operation guard of a single thread is dropped whatever the body returned. -/
theorem wp_shared {body : TableM α} (hq : d.quiescence = RwLock.free)
    {Q : Except Error α → Db → Prop}
    (h : body.wp v t (fun res d' => d'.quiescence = ⟨[t], none⟩ ∧
      Q res { d' with quiescence := RwLock.free }) { d with quiescence := ⟨[t], none⟩ }) :
    (operation body).wp v t Q d := by
  rw [operation, wp_guarded, lockQuiescenceRead, wp_atomic]
  refine ⟨.ok (), { d with quiescence := ⟨[t], none⟩ }, ?_, ?_⟩
  · simp [hq, RwLock.free]
  · rw [andThen_ok, wp_bind, wp_attempt]
    refine wp_mono h ?_
    rintro res d' ⟨hlock, hQ⟩
    rw [andThen_ok, wp_bind, unlockQuiescenceRead, wp_step, andThen_ok, wp_ofExcept, hlock]
    simpa [RwLock.free] using hQ

/-- Reclaiming waits for every operation to end; a single thread does not wait. -/
theorem wp_exclusive {body : TableM α} (hq : d.quiescence = RwLock.free)
    {Q : Except Error α → Db → Prop}
    (h : body.wp v t (fun res d' => d'.quiescence = ⟨[], some t⟩ ∧
      Q res { d' with quiescence := RwLock.free }) { d with quiescence := ⟨[], some t⟩ }) :
    (guarded lockQuiescenceWrite unlockQuiescenceWrite body).wp v t Q d := by
  rw [wp_guarded, lockQuiescenceWrite, wp_atomic]
  refine ⟨.ok (), { d with quiescence := ⟨[], some t⟩ }, ?_, ?_⟩
  · simp [hq, RwLock.free]
  · rw [andThen_ok, wp_bind, wp_attempt]
    refine wp_mono h ?_
    rintro res d' ⟨hlock, hQ⟩
    rw [andThen_ok, wp_bind, unlockQuiescenceWrite, wp_step, andThen_ok, wp_ofExcept, hlock]
    exact hQ

/-- A call under the operation guard that changes the store and the heads only. -/
theorem wp_operation {body : TableM α} (hq : d.quiescence = RwLock.free)
    {P : Except Error α → Store → (Nat → Nat) → Prop}
    (h : body.wp v t (fun r d' => Frame { d with quiescence := ⟨[t], none⟩ } d' ∧
      P r d'.store d'.runtimeHeads) { d with quiescence := ⟨[t], none⟩ }) :
    (operation body).wp v t (fun r d' => Frame d d' ∧ P r d'.store d'.runtimeHeads) d := by
  apply wp_shared hq
  refine wp_mono h ?_
  rintro r d' ⟨hframe, hP⟩
  rw [Frame] at hframe
  refine ⟨by rw [hframe], ?_, hP⟩
  rw [Frame, hframe, ← hq]

/-- A body under the bucket lock, which is free before and after. -/
theorem wp_withDeleteLock {body : TableM α} (hb : b < cfg.bucketCount)
    (hl : ∀ b, d.deleteLocks b = 0) (hf : v = .fair → 1 ≤ m.fuel)
    {P : Except Error α → Store → (Nat → Nat) → Prop}
    (h : body.wp v t (fun r d' => Frame (d.setLock b 1) d' ∧ P r d'.store d'.runtimeHeads)
      (d.setLock b 1)) :
    (withDeleteLock cfg m b body).wp v t (fun r d' => Frame d d' ∧ P r d'.store d'.runtimeHeads)
      d := by
  rw [withDeleteLock, wp_guarded, lockDeleteBucket, wp_atomic]
  refine ⟨.ok (), d.setLock b 1, ?_, ?_⟩
  · rw [if_neg (Nat.not_le.mpr hb), if_pos (hl b)]
  · rw [andThen_ok, wp_bind, wp_attempt]
    refine wp_mono h ?_
    rintro r d' ⟨hframe, hP⟩
    have hlock : d'.deleteLocks b = 1 := by
      rw [Frame] at hframe
      rw [hframe]
      simp [Db.setLock]
    rw [andThen_ok, wp_bind]
    cases hfuel : m.fuel with
    | zero =>
      cases v with
      | fair => exact absurd (hf rfl) (by omega)
      | any => exact rfl
    | succ fuel =>
      rw [unlockDeleteBucket, wp_bind, loadLock, wp_step, andThen_ok]
      dsimp only
      rw [hlock, if_neg (by decide), wp_bind, casLock, wp_atomic]
      refine ⟨.ok true, d'.setLock b 0, if_pos hlock, ?_⟩
      rw [andThen_ok, if_pos rfl, wp_pure, andThen_ok, wp_ofExcept]
      refine ⟨?_, hP⟩
      have hrestore : Function.update d.deleteLocks b 0 = d.deleteLocks := by
        rw [← hl b, Function.update_eq_self]
      rw [Frame] at hframe ⊢
      rw [hframe]
      simp [Db.setLock, hrestore]

end Guards

section Lookups
variable {T : Nat → List (Key × List UInt8)}

/-- The buckets hold `T`, and everything allocated belongs to them. -/
def Holds (cfg : Config) (s : Store) (heads : Nat → Nat) (T : Nat → List (Key × List UInt8)) :
    Prop := ∃ chains, Owned cfg s heads chains ∅ ∅ ∅ ∧ content cfg s chains = T

theorem validateKey_toList (key : Key) : validateKey key.toList = .ok key := by
  rw [validateKey, dif_pos (by simp)]
  simp [Vector.toList]

theorem contains_spec (hr : cfg.Ready) (hi : Idle d) (h : Holds cfg d.store d.runtimeHeads T)
    (key : Key) (hf : v = .fair → m.Enough cfg) :
    (contains cfg m key.toList).wp v t (fun res d' => Frame d d' ∧
      (res = .ok (!(Buckets.stack (bucketOf cfg) T key).isEmpty) ∧
        Holds cfg d'.store d'.runtimeHeads T)) d := by
  obtain ⟨chains, howned, rfl⟩ := h
  refine wp_operation hi.quiescence (P := fun res s heads => res = _ ∧ Holds cfg s heads _) ?_
  rw [validateKey_toList, wp_bind, wp_ofExcept, andThen_ok, wp_bind]
  refine find_spec (d := { d with quiescence := ⟨[t], none⟩ }) hr howned
    (bucketOf_lt hr.valid key) hf ?_
  intro f hlook
  rw [andThen_ok, wp_pure]
  refine ⟨rfl, ?_, chains, howned, rfl⟩
  cases hlook with
  | found l r o hc hkey hl =>
    have hhead : (Buckets.stack (bucketOf cfg) _ key).head? = _ := stack_found hc hkey hl
    cases hs : Buckets.stack (bucketOf cfg) (content cfg d.store chains) key with
    | nil =>
      rw [hs] at hhead
      cases hhead
    | cons x xs => rfl
  | absent hl =>
    rw [stack_absent hl]
    rfl

theorem requireMode_ok {mode : Mode} {message : String} (hm : cfg.mode = mode) :
    requireMode cfg mode message = .ok () := if_neg (not_not.mpr hm)

theorem get_spec (hr : cfg.Ready) (hi : Idle d) (h : Holds cfg d.store d.runtimeHeads T)
    (hm : cfg.mode = .map) (key : Key) (hf : v = .fair → m.Enough cfg) :
    (get cfg m key.toList).wp v t (fun res d' => Frame d d' ∧
      (res = .ok (Buckets.stack (bucketOf cfg) T key).head? ∧
        Holds cfg d'.store d'.runtimeHeads T)) d := by
  obtain ⟨chains, howned, rfl⟩ := h
  refine wp_operation hi.quiescence (P := fun res s heads => res = _ ∧ Holds cfg s heads _) ?_
  rw [requireMode_ok hm, wp_bind, wp_ofExcept, andThen_ok, validateKey_toList, wp_bind, wp_ofExcept,
    andThen_ok, wp_bind]
  refine find_spec (d := { d with quiescence := ⟨[t], none⟩ }) hr howned
    (bucketOf_lt hr.valid key) hf ?_
  intro f hlook
  rw [andThen_ok]
  cases hlook with
  | found l r o hc hkey hl =>
    have ho : o ∈ nodesOf chains ∅ := mem_nodesOf (b := bucketOf cfg key) (by simp [hc])
    dsimp only
    rw [wp_bind, wp_onStore]
    refine (readValue_spec hr howned.heap ho hm).mpr ?_
    rw [andThen_ok, wp_pure]
    exact ⟨rfl, by rw [stack_found hc hkey hl], chains, howned, rfl⟩
  | absent hl =>
    refine ⟨rfl, ?_, chains, howned, rfl⟩
    rw [stack_absent hl]
    rfl

end Lookups

section Delete
variable {T : Nat → List (Key × List UInt8)}

/-- One lookup and one unlink suffice: nothing else moves the chain. -/
theorem deleteLoop_spec (hr : cfg.Ready) (howned : Owned cfg d.store d.runtimeHeads chains ∅ ∅ ∅)
    (key : Key) (hf : v = .fair → m.Enough cfg) :
    (deleteLoop cfg m (bucketOf cfg key) key m.fuel).wp v t (fun res d' => Frame d d' ∧
      (res = .ok (!(Buckets.stack (bucketOf cfg) (content cfg d.store chains) key).isEmpty) ∧
        Holds cfg d'.store d'.runtimeHeads
          (Buckets.drop (bucketOf cfg) (content cfg d.store chains) key))) d := by
  cases hfuel : m.fuel with
  | zero =>
    cases v with
    | fair => exact absurd (Machine.Enough.one hf rfl) (by omega)
    | any => exact rfl
  | succ fuel =>
    rw [deleteLoop, wp_bind]
    refine find_spec hr howned (bucketOf_lt hr.valid key) hf ?_
    intro f hlook
    rw [andThen_ok]
    cases hlook with
    | absent hl =>
      refine ⟨rfl, ?_, chains, howned, ?_⟩
      · rw [stack_absent hl]
        rfl
      · rw [Buckets.drop_of_absent (content_absent hl)]
    | found l r o hc hkey hl =>
      dsimp only
      rw [wp_bind, wp_attempt]
      refine wp_mono (unlinkLink_spec hr howned hc hf) ?_
      rintro _ d' ⟨rfl, hframe, howned', hsame⟩
      rw [andThen_ok]
      have hhead : (Buckets.stack (bucketOf cfg) (content cfg d.store chains) key).head? = _ :=
        stack_found hc hkey hl
      refine ⟨hframe, ?_, _, howned', ?_⟩
      · cases hs : Buckets.stack (bucketOf cfg) (content cfg d.store chains) key with
        | nil =>
          rw [hs] at hhead
          cases hhead
        | cons x xs => rfl
      · rw [← nodesOf_unlink howned hc] at hsame
        rw [content_same hsame fun b x hx => mem_nodesOf hx, content_unlink hc hkey hl]

theorem delete_spec (hr : cfg.Ready) (hi : Idle d) (h : Holds cfg d.store d.runtimeHeads T)
    (key : Key) (hf : v = .fair → m.Enough cfg) :
    (delete cfg m key.toList).wp v t (fun res d' => Frame d d' ∧
      (res = .ok (!(Buckets.stack (bucketOf cfg) T key).isEmpty) ∧
        Holds cfg d'.store d'.runtimeHeads (Buckets.drop (bucketOf cfg) T key))) d := by
  obtain ⟨chains, howned, rfl⟩ := h
  refine wp_operation hi.quiescence (P := fun res s heads => res = _ ∧ Holds cfg s heads _) ?_
  rw [validateKey_toList, wp_bind, wp_ofExcept, andThen_ok]
  refine wp_withDeleteLock (d := { d with quiescence := ⟨[t], none⟩ })
    (P := fun res s heads => res = .ok (!(Buckets.stack (bucketOf cfg) _ key).isEmpty) ∧
      Holds cfg s heads (Buckets.drop (bucketOf cfg) _ key))
    (bucketOf_lt hr.valid key) hi.locks (Machine.Enough.one hf) ?_
  exact deleteLoop_spec
    (d := Db.setLock { d with quiescence := ⟨[t], none⟩ } (bucketOf cfg key) 1) hr howned key hf

end Delete

section Insert
variable {T : Nat → List (Key × List UInt8)} {value : Option (List UInt8)} {s : Store}
  {heads : Nat → Nat}

theorem validateValue_ok (hfit : ValueFits cfg value) : validateValue cfg value = .ok () := by
  rcases hfit with ⟨hm, rfl⟩ | ⟨hm, hsome⟩
  · rw [validateValue, if_pos hm]
    rfl
  · obtain ⟨bytes, rfl⟩ := Option.isSome_iff_exists.mp hsome
    have hne : ¬cfg.mode = .set := by
      rw [hm]
      decide
    rw [validateValue, if_neg hne]
    rfl

/-- `allocate_private_insert` leaves the chains alone. -/
theorem allocatePrivate_owned (hr : cfg.Ready) (h : Owned cfg s heads chains priv bare bareBlobs)
    (hfit : ValueFits cfg value) (hf : v = .fair → m.Enough cfg) :
    (allocatePrivate cfg m.fuel key value).wp v t (fun res s' =>
      Same cfg (nodesOf chains priv) s s' ∧
      ((∃ o blob, res = .ok (nodeAlloc cfg o, blob) ∧ PrivateNode cfg s' o key value blob ∧
          o ∉ priv ∧ Owned cfg s' heads chains (insert o priv) bare bareBlobs) ∨
        ∃ e, res = .error e ∧ Refusal v e ∧ Owned cfg s' heads chains priv bare bareBlobs)) s := by
  refine wp_mono (allocatePrivate_spec hr h.heap hfit (Machine.Enough.three hf)) ?_
  rintro res s' ⟨hkeep, ⟨o, blob, rfl, hnew, hpriv, hheap⟩ | ⟨e, rfl, he, hheap⟩⟩
  · refine ⟨hkeep.same, Or.inl ⟨o, blob, rfl, hpriv, fun ho => hnew (Or.inr ho), ?_⟩⟩
    rw [← nodesOf_insert] at hheap
    refine h.setStore (fun b x hx => (hkeep x (mem_nodesOf hx)).1) hheap ?_
    rintro b x hx (rfl | hp)
    · exact hnew (mem_nodesOf hx)
    · exact h.priv_free b x hx hp
  · refine ⟨hkeep.same, Or.inr ⟨e, rfl, he, ?_⟩⟩
    exact h.setStore (fun b x hx => (hkeep x (mem_nodesOf hx)).1) hheap h.priv_free

/-- Publishing a private segment `w ++ [o]`: its last node takes the old head. -/
theorem commitPrivateGroup_spec (hr : cfg.Ready)
    (h : Owned cfg d.store d.runtimeHeads chains priv bare bareBlobs) (hb : b < cfg.bucketCount)
    {w : List Nat} {root : Nat} (hseg : IsSegment d.store.next o root w) (hnd : o ∉ w)
    (hpriv : ∀ x ∈ w ++ [o], x ∈ priv)
    (hhome : ∀ x ∈ w ++ [o], bucketOf cfg (d.store.slots x).key = b)
    (hf : v = .fair → 1 ≤ fuel) :
    (commitPrivateGroup cfg ⟨b, o, root⟩ fuel).wp v t (fun res d' => res = .ok () ∧ Frame d d' ∧
      Owned cfg d'.store d'.runtimeHeads (Function.update chains b (w ++ [o] ++ chains b))
        (priv \ {x | x ∈ w ++ [o]}) bare bareBlobs ∧
      Same cfg Set.univ d.store d'.store ∧
      ∀ x, x ≠ o → d'.store.slots x = d.store.slots x) d := by
  have hop : o ∈ priv := hpriv o (by simp)
  have hn := h.heap.liveNode (show o ∈ nodesOf chains priv from Or.inr hop)
  have hle := h.head_le hr.valid b
  cases fuel with
  | zero =>
    cases v with
    | fair => exact absurd (hf rfl) (by decide)
    | any => exact rfl
  | succ fuel =>
    rw [commitPrivateGroup, wp_bind, loadHead_spec hb, andThen_ok, wp_bind, wp_onStore,
      readNext_spec hr.valid h.heap.body hn, andThen_ok, wp_bind, wp_onStore,
      compareExchangeNext_spec hr.valid h.heap.body hn rfl hle, andThen_ok, if_pos rfl, wp_bind]
    have howned := h.setPrivate hop hle
    have hsame := same_setNext h.heap o hle
    have hseg' : IsSegment (d.store.setSlot o (·.withNext (d.runtimeHeads b))).next
        ((chains b).headD 0) root (w ++ [o]) := by
      rw [next_setNext _ _ hle]
      refine isSegment_append.mpr ⟨o, hseg.congr fun z hz => Function.update_of_ne ?_ _ _, rfl,
        hn.pos hr.valid h.heap.body, ?_⟩
      · rintro rfl
        exact hnd hz
      · rw [Function.update_self]
        exact (h.chain b).head_eq
    dsimp only
    rw [casHead_spec hb (by rfl), andThen_ok, if_pos rfl, wp_pure]
    refine ⟨rfl, rfl, ?_, hsame, fun x hx => by simp only [Db.setHead, setSlot_slots_ne _ _ hx]⟩
    have hswing := howned.swing_head (show chains b = [] ++ chains b from rfl) hseg' hpriv
      fun x hx => by rw [hsame.key (Set.mem_univ x)]; exact hhome x hx
    have hempty : priv \ {x | x ∈ w ++ [o]} ∪ {x | x ∈ ([] : List Nat)} =
        priv \ {x | x ∈ w ++ [o]} := by
      ext x
      simp
    rw [hempty] at hswing
    exact hswing

/-- Nothing that the buckets own has changed: the same chains of the same nodes. -/
structure Kept (cfg : Config) (s : Store) (heads : Nat → Nat) (s' : Store) (heads' : Nat → Nat) :
    Prop where
  chains : ∃ chains, Owned cfg s heads chains ∅ ∅ ∅ ∧ Owned cfg s' heads' chains ∅ ∅ ∅ ∧
    Same cfg (nodesOf chains ∅) s s'

theorem Owned.chains_unique {s : Store} {heads : Nat → Nat} {chains' : Nat → List Nat}
    {priv' : Set Nat} {bare' bareBlobs' : Set Allocation}
    (h : Owned cfg s heads chains priv bare bareBlobs)
    (h' : Owned cfg s heads chains' priv' bare' bareBlobs') : chains' = chains := by
  funext b
  exact (h'.chain b).unique (h.chain b)

theorem Kept.holds {s s' : Store} {heads heads' : Nat → Nat} (hk : Kept cfg s heads s' heads')
    (h : Holds cfg s heads T) : Holds cfg s' heads' T := by
  obtain ⟨chains, hold, hnew, hsame⟩ := hk
  obtain ⟨chains', howned, rfl⟩ := h
  obtain rfl : chains' = chains := hold.chains_unique howned
  exact ⟨chains', hnew, content_same hsame fun b o ho => mem_nodesOf ho⟩

/-- The outcome of a call that may run out of space: `r` and `T'`, or an error and no change. -/
def Outcome (cfg : Config) (v : Env) (d : Db) (r : α)
    (T' : Nat → List (Key × List UInt8)) (res : Except Error α) (s : Store) (heads : Nat → Nat) :
    Prop :=
  (res = .ok r ∧ Holds cfg s heads T') ∨
    ∃ e, res = .error e ∧ Refusal v e ∧ Kept cfg d.store d.runtimeHeads s heads

theorem insert_sdiff_list (priv : Set Nat) (ho : o ∉ priv) :
    insert o priv \ {x | x ∈ [] ++ [o]} = priv := by
  ext x
  simp only [List.nil_append, List.mem_singleton, Set.mem_sdiff, Set.mem_insert_iff,
    Set.mem_ofPred_eq]
  constructor
  · rintro ⟨rfl | hx, hne⟩
    · exact absurd rfl hne
    · exact hx
  · intro hx
    refine ⟨Or.inr hx, ?_⟩
    rintro rfl
    exact ho hx

theorem insertOneInner_spec (hr : cfg.Ready) (hi : Idle d)
    (h : Holds cfg d.store d.runtimeHeads T) (hfit : ValueFits cfg value) (key : Key)
    (hf : v = .fair → m.Enough cfg) :
    (insertOneInner cfg m key.toList value).wp v t (fun res d' => Frame d d' ∧
      Outcome cfg v d () (Buckets.push (bucketOf cfg) T key (value.getD []))
        res d'.store d'.runtimeHeads) d := by
  obtain ⟨chains, howned, rfl⟩ := h
  have hb := bucketOf_lt hr.valid key
  refine wp_operation hi.quiescence (P := Outcome cfg v d () _) ?_
  rw [validateKey_toList, wp_bind, wp_ofExcept, andThen_ok, validateValue_ok hfit, wp_bind,
    wp_ofExcept, andThen_ok, wp_bind, wp_onStore]
  refine wp_mono (allocatePrivate_owned hr howned hfit hf) ?_
  rintro _ s ⟨hsame, ⟨o, blob, rfl, hpriv, hnew, howned₁⟩ | ⟨e, rfl, he, howned₁⟩⟩
  · rw [andThen_ok]
    dsimp only
    rw [checkHead_ok hb]
    dsimp only [nodeAlloc_offset]
    have hhome : ∀ x ∈ [] ++ [o], bucketOf cfg (s.slots x).key = bucketOf cfg key := by
      intro x hx
      rw [List.nil_append, List.mem_singleton] at hx
      subst hx
      exact congrArg (bucketOf cfg) (congrArg Prod.fst hpriv.entry)
    refine wp_mono (commitPrivateGroup_spec (w := []) hr howned₁ hb rfl (by simp) (by simp) hhome
      (Machine.Enough.one hf)) ?_
    rintro _ d' ⟨rfl, hframe, howned₂, hsame₂, -⟩
    rw [insert_sdiff_list _ hnew] at howned₂
    refine ⟨hframe, Or.inl ⟨rfl, _, howned₂, ?_⟩⟩
    rw [content_same hsame₂ fun _ _ _ => Set.mem_univ _]
    refine (content_push hpriv.entry).trans ?_
    rw [content_same hsame fun b x hx => mem_nodesOf hx]
  · rw [andThen_error]
    exact ⟨rfl, Or.inr ⟨e, rfl, he, chains, howned, howned₁, hsame⟩⟩

theorem add_spec (hr : cfg.Ready) (hi : Idle d) (h : Holds cfg d.store d.runtimeHeads T)
    (hm : cfg.mode = .set) (key : Key) (hf : v = .fair → m.Enough cfg) :
    (add cfg m key.toList).wp v t (fun res d' => Frame d d' ∧
      Outcome cfg v d .inserted (Buckets.push (bucketOf cfg) T key []) res d'.store
        d'.runtimeHeads) d := by
  rw [add, requireMode_ok hm, wp_bind, wp_ofExcept, andThen_ok, wp_bind]
  refine wp_mono (insertOneInner_spec hr hi h (Or.inl ⟨hm, rfl⟩) key hf) ?_
  rintro _ d' ⟨hframe, ⟨rfl, hholds⟩ | ⟨e, rfl, he, hholds⟩⟩
  · exact ⟨hframe, Or.inl ⟨rfl, hholds⟩⟩
  · exact ⟨hframe, Or.inr ⟨e, rfl, he, hholds⟩⟩

end Insert

section Put
variable {T : Nat → List (Key × List UInt8)} {value : List UInt8} {blob : Option Allocation}

/-- What `put_inner` reports and leaves, with or without replacement. -/
def putOutcome (cfg : Config) (T : Nat → List (Key × List UInt8)) (key : Key)
    (value : List UInt8) (replaceExisting : Bool) :
    PutOutcome × (Nat → List (Key × List UInt8)) :=
  if (Buckets.stack (bucketOf cfg) T key).isEmpty then
    (.inserted, Buckets.push (bucketOf cfg) T key value)
  else if replaceExisting then
    (.replaced, Buckets.push (bucketOf cfg) (Buckets.drop (bucketOf cfg) T key) key value)
  else (.existing, T)

theorem putOutcome_absent {replaceExisting : Bool}
    (h : Buckets.stack (bucketOf cfg) T key = []) :
    putOutcome cfg T key value replaceExisting =
      (.inserted, Buckets.push (bucketOf cfg) T key value) := by
  rw [putOutcome, h]
  rfl

theorem putOutcome_found {replaceExisting : Bool} {top : List UInt8}
    (h : (Buckets.stack (bucketOf cfg) T key).head? = some top) :
    putOutcome cfg T key value replaceExisting = if replaceExisting then
      (.replaced, Buckets.push (bucketOf cfg) (Buckets.drop (bucketOf cfg) T key) key value)
    else (.existing, T) := by
  rw [putOutcome]
  cases hs : Buckets.stack (bucketOf cfg) T key with
  | nil =>
    rw [hs] at h
    cases h
  | cons x xs => rfl

/-- The link of the replaced node once the new node is in front of the chain. -/
theorem linkAfter_cons (b o : Nat) (l : List Nat) :
    linkAfter b (o :: l) = (linkAfter b l).behind o := by
  rcases List.eq_nil_or_concat' l with rfl | ⟨l, p, rfl⟩
  · rfl
  · rw [linkAfter_append, ← List.cons_append, linkAfter_append]
    rfl

/-- The state after the private node `o` became the head of its bucket. -/
def published (d : Db) (b o : Nat) : Db :=
  Db.setHead { d with store := d.store.setSlot o (·.withNext (d.runtimeHeads b)) } b o

/-- A private node in front of the chain. -/
theorem Owned.publish (hr : cfg.Ready)
    (h : Owned cfg d.store d.runtimeHeads chains (insert o ∅) ∅ ∅)
    (hhome : bucketOf cfg (d.store.slots o).key = b) :
    Owned cfg (published d b o).store (published d b o).runtimeHeads
      (Function.update chains b (o :: chains b)) ∅ ∅ ∅ ∧
    Same cfg Set.univ d.store (published d b o).store := by
  have hop : o ∈ (insert o ∅ : Set Nat) := Set.mem_insert o ∅
  have hle := h.head_le hr.valid b
  have hsame := same_setNext h.heap o hle
  have hseg : IsSegment (d.store.setSlot o (·.withNext (d.runtimeHeads b))).next
      ((chains b).headD 0) o [o] := by
    refine ⟨rfl, (h.heap.liveNode (Or.inr hop)).pos hr.valid h.heap.body, ?_⟩
    rw [next_setNext _ _ hle, Function.update_self]
    exact (h.chain b).head_eq
  have hhome' : ∀ x ∈ [o],
      bucketOf cfg ((d.store.setSlot o (·.withNext (d.runtimeHeads b))).slots x).key = b := by
    intro x hx
    rw [List.mem_singleton.mp hx, hsame.key (Set.mem_univ o)]
    exact hhome
  have hswing := (h.setPrivate hop hle).swing_head (show chains b = [] ++ chains b from rfl) hseg
    (by simp) hhome'
  have hempty : insert o ∅ \ {x | x ∈ [o]} ∪ {x | x ∈ ([] : List Nat)} = (∅ : Set Nat) := by
    ext x
    simp
  rw [hempty] at hswing
  exact ⟨hswing, hsame⟩

theorem putLoop_spec (hr : cfg.Ready)
    (h : Owned cfg d.store d.runtimeHeads chains (insert o ∅) ∅ ∅)
    (hpriv : PrivateNode cfg d.store o key (some value) blob) (replaceExisting : Bool)
    (hf : v = .fair → m.Enough cfg) :
    (putLoop cfg m (bucketOf cfg key) key (nodeAlloc cfg o) blob replaceExisting m.fuel 0).wp v t
      (fun res d' => Frame d d' ∧
        (res = .ok (putOutcome cfg (content cfg d.store chains) key value replaceExisting).1 ∧
          Holds cfg d'.store d'.runtimeHeads
            (putOutcome cfg (content cfg d.store chains) key value replaceExisting).2)) d := by
  have hb := bucketOf_lt hr.valid key
  have hop : o ∈ (insert o ∅ : Set Nat) := Set.mem_insert o ∅
  have hn := h.heap.liveNode (show o ∈ nodesOf chains (insert o ∅) from Or.inr hop)
  have hhome : bucketOf cfg (d.store.slots o).key = bucketOf cfg key :=
    congrArg (bucketOf cfg) (congrArg Prod.fst hpriv.entry)
  obtain ⟨hpub, hsame⟩ := h.publish hr hhome
  have hentry : entryAt cfg (published d (bucketOf cfg key) o).store o = (key, value) := by
    rw [(hsame o (Set.mem_univ o)).2]
    exact hpriv.entry
  have hcontent : content cfg _ chains = content cfg _ chains :=
    content_same hsame fun _ _ _ => Set.mem_univ _
  cases hfuel : m.fuel with
  | zero =>
    cases v with
    | fair => exact absurd (Machine.Enough.one hf rfl) (by omega)
    | any => exact rfl
  | succ fuel =>
    rw [putLoop, wp_bind, wp_attempt]
    refine find_spec hr h hb hf ?_
    intro f hlook
    rw [andThen_ok]
    cases hlook with
    | absent hl =>
      rw [putOutcome_absent (stack_absent hl)]
      dsimp only [nodeAlloc_offset]
      rw [if_neg (by simp), wp_bind, wp_attempt, wp_onStore,
        setPrivateNext_spec hr.valid h.heap.body hn hpriv.next (h.head_le hr.valid _), andThen_ok]
      dsimp only
      rw [checkHead_ok hb]
      dsimp only
      rw [wp_bind, casHead_spec hb (by rfl), andThen_ok, if_pos rfl, wp_pure]
      refine ⟨rfl, rfl, _, hpub, (content_push hentry).trans ?_⟩
      rw [hcontent]
    | found l r x hc hkey hl =>
      rw [putOutcome_found (stack_found hc hkey hl)]
      cases replaceExisting with
      | false =>
        dsimp only
        rw [if_pos ⟨Option.isSome_some, rfl⟩, if_neg (by decide), wp_bind, wp_onStore]
        refine wp_mono (releasePrivate_spec hr h.heap (Or.inr hop) hpriv.blob.symm
          (Machine.Enough.one hf)) ?_
        rintro _ s ⟨rfl, hdrop⟩
        have howned := h.drop hop hdrop
        rw [Set.insert_sdiff_self_of_notMem (Set.notMem_empty o)] at howned
        refine ⟨rfl, rfl, chains, howned, ?_⟩
        refine content_same hdrop.2.same fun b z hz => ⟨mem_nodesOf hz, ?_⟩
        rintro rfl
        exact h.priv_free b z hz hop
      | true =>
        dsimp only [nodeAlloc_offset]
        rw [if_pos rfl, if_neg (by simp), wp_bind, wp_attempt, wp_onStore,
          setPrivateNext_spec hr.valid h.heap.body hn hpriv.next (h.head_le hr.valid _), andThen_ok]
        dsimp only
        rw [checkHead_ok hb]
        dsimp only
        rw [wp_bind, casHead_spec hb (by rfl), andThen_ok, if_pos rfl, wp_bind,
          ← linkAfter_cons (bucketOf cfg key) o l]
        have hxo : x ≠ o := by
          rintro rfl
          exact h.priv_free (bucketOf cfg key) x (by simp [hc]) hop
        have hnode : nodeAt d.store x = nodeAt (published d (bucketOf cfg key) o).store x := by
          have hslot : (published d (bucketOf cfg key) o).store.slots x = d.store.slots x := by
            simp only [published, Db.setHead, setSlot_slots_ne d.store _ hxo]
          rw [nodeAt, nodeAt, hslot]
        have hc' : Function.update chains (bucketOf cfg key) (o :: chains (bucketOf cfg key))
            (bucketOf cfg key) = (o :: l) ++ x :: r := by
          rw [Function.update_self, hc, List.cons_append]
        rw [hnode]
        refine wp_mono (unlinkLink_spec (d := published d (bucketOf cfg key) o) hr hpub hc' hf) ?_
        rintro _ d' ⟨rfl, hframe, howned, hsame'⟩
        have hpubframe : Frame d (published d (bucketOf cfg key) o) := rfl
        refine ⟨hpubframe.trans hframe, rfl, _, howned, ?_⟩
        rw [← nodesOf_unlink hpub hc'] at hsame'
        rw [content_same hsame' fun b z hz => mem_nodesOf hz, Function.update_idem,
          List.cons_append, ← hcontent]
        -- as if the old node had been taken out before the new one came in
        have hout := content_unlink hc ((hsame.key (Set.mem_univ x)).trans hkey)
          fun z hz => by rw [hsame.key (Set.mem_univ z)]; exact hl z hz
        have hin : content cfg _ (Function.update (Function.update chains (bucketOf cfg key) (l ++ r))
          _ _) = _ := content_push hentry
        rw [Function.update_idem, Function.update_self, hout] at hin
        exact hin

theorem putInner_spec (hr : cfg.Ready) (hi : Idle d) (h : Holds cfg d.store d.runtimeHeads T)
    (hm : cfg.mode = .map) (key : Key) (value : List UInt8) (replaceExisting : Bool)
    (hf : v = .fair → m.Enough cfg) :
    (putInner cfg m key.toList (some value) replaceExisting).wp v t (fun res d' => Frame d d' ∧
      Outcome cfg v d (putOutcome cfg T key value replaceExisting).1
        (putOutcome cfg T key value replaceExisting).2 res d'.store d'.runtimeHeads) d := by
  obtain ⟨chains, howned, rfl⟩ := h
  have hfit : ValueFits cfg (some value) := Or.inr ⟨hm, rfl⟩
  refine wp_operation hi.quiescence (P := Outcome cfg v d _ _) ?_
  rw [validateKey_toList, wp_bind, wp_ofExcept, andThen_ok, validateValue_ok hfit, wp_bind,
    wp_ofExcept, andThen_ok, wp_bind, wp_onStore]
  refine wp_mono (allocatePrivate_owned hr howned hfit hf) ?_
  rintro _ s ⟨hsame, ⟨o, blob, rfl, hpriv, hnew, howned₁⟩ | ⟨e, rfl, he, howned₁⟩⟩
  · have hcontent : content cfg s chains = content cfg d.store chains :=
      content_same hsame fun b x hx => mem_nodesOf hx
    rw [andThen_ok]
    refine wp_mono (putLoop_spec (d := { d with store := s, quiescence := ⟨[t], none⟩ }) hr howned₁
      hpriv replaceExisting hf) ?_
    rintro _ d' ⟨hframe, rfl, hholds⟩
    dsimp only at hholds
    rw [hcontent] at hholds
    exact ⟨hframe, Or.inl ⟨by rw [hcontent], hholds⟩⟩
  · rw [andThen_error]
    exact ⟨rfl, Or.inr ⟨e, rfl, he, chains, howned, howned₁, hsame⟩⟩

/-- The result of `put` and the new contents. -/
def putModel (cfg : Config) (T : Nat → List (Key × List UInt8)) (key : Key) (value : List UInt8) :
    PutResult × (Nat → List (Key × List UInt8)) :=
  if (Buckets.stack (bucketOf cfg) T key).isEmpty then
    (.inserted, Buckets.push (bucketOf cfg) T key value)
  else (.replaced, Buckets.push (bucketOf cfg) (Buckets.drop (bucketOf cfg) T key) key value)

theorem put_spec (hr : cfg.Ready) (hi : Idle d) (h : Holds cfg d.store d.runtimeHeads T)
    (hm : cfg.mode = .map) (key : Key) (value : List UInt8) (hf : v = .fair → m.Enough cfg) :
    (put cfg m key.toList value).wp v t (fun res d' => Frame d d' ∧
      Outcome cfg v d (putModel cfg T key value).1 (putModel cfg T key value).2 res d'.store
        d'.runtimeHeads) d := by
  rw [put, requireMode_ok hm, wp_bind, wp_ofExcept, andThen_ok, wp_bind]
  refine wp_mono (putInner_spec hr hi h hm key value true hf) ?_
  rintro _ d' ⟨hframe, ⟨rfl, hholds⟩ | ⟨e, rfl, he, hholds⟩⟩
  · rw [andThen_ok]
    rw [putOutcome] at hholds ⊢
    rw [putModel]
    by_cases hempty : (Buckets.stack (bucketOf cfg) T key).isEmpty = true
    · rw [if_pos hempty] at hholds ⊢
      rw [if_pos hempty]
      exact ⟨hframe, Or.inl ⟨rfl, hholds⟩⟩
    · rw [if_neg hempty] at hholds ⊢
      rw [if_neg hempty]
      exact ⟨hframe, Or.inl ⟨rfl, hholds⟩⟩
  · exact ⟨hframe, Or.inr ⟨e, rfl, he, hholds⟩⟩

/-- The result of `put_new` and the new contents. -/
def putNewModel (cfg : Config) (T : Nat → List (Key × List UInt8)) (key : Key)
    (value : List UInt8) : Bool × (Nat → List (Key × List UInt8)) :=
  if (Buckets.stack (bucketOf cfg) T key).isEmpty then
    (true, Buckets.push (bucketOf cfg) T key value)
  else (false, T)

theorem putNew_spec (hr : cfg.Ready) (hi : Idle d) (h : Holds cfg d.store d.runtimeHeads T)
    (hm : cfg.mode = .map) (key : Key) (value : List UInt8) (hf : v = .fair → m.Enough cfg) :
    (putNew cfg m key.toList value).wp v t (fun res d' => Frame d d' ∧
      Outcome cfg v d (putNewModel cfg T key value).1 (putNewModel cfg T key value).2 res d'.store
        d'.runtimeHeads) d := by
  rw [putNew, requireMode_ok hm, wp_bind, wp_ofExcept, andThen_ok, wp_bind]
  refine wp_mono (putInner_spec hr hi h hm key value false hf) ?_
  rintro _ d' ⟨hframe, ⟨rfl, hholds⟩ | ⟨e, rfl, he, hholds⟩⟩
  · rw [andThen_ok]
    rw [putOutcome] at hholds ⊢
    rw [putNewModel]
    by_cases hempty : (Buckets.stack (bucketOf cfg) T key).isEmpty = true
    · rw [if_pos hempty] at hholds ⊢
      rw [if_pos hempty]
      exact ⟨hframe, Or.inl ⟨rfl, hholds⟩⟩
    · rw [if_neg hempty] at hholds ⊢
      rw [if_neg hempty]
      exact ⟨hframe, Or.inl ⟨rfl, hholds⟩⟩
  · exact ⟨hframe, Or.inr ⟨e, rfl, he, hholds⟩⟩

end Put

end FlorestaDb
