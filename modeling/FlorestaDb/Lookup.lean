import FlorestaDb.Lib.Cycles
import FlorestaDb.Headroom
import FlorestaDb.Snapshot
import Mathlib.Data.Set.Finite.Basic
import Mathlib.Order.WellFounded

/-! A lookup in runtime files of any content. `find` follows next pointers without counting
them, so it returns exactly when the chain of the bucket does not run into a cycle. -/
namespace FlorestaDb
open Program Program.Prog Allocator Relation

variable {cfg : Config} {v : Env} {t : Tid} {s : Store} {d : Db} {key : Key} {bucket o : Nat}

section Reads

/-- An answer, or a report of corrupt storage. -/
def Reported {α : Type} : Except Error α → Prop
  | .ok _ => True
  | .error e => ∃ message, e = .corrupt message

theorem readNext_readable (h : Readable cfg s o) {Q : Except Error Nat → Store → Prop} :
    (readNext cfg o).wp v t Q s ↔ Q (.ok (s.slots o).next) s := by
  obtain ⟨hstart, hcapacity, hmapped, hbound⟩ := dataRange_ok h.range
  have hsize : nodeSize = 32 := rfl
  have hpointer : nodePointerOffset = 24 := rfl
  have hrange : dataRange cfg.bodyLayout s.body (o + nodePointerOffset) 8 = .ok () :=
    dataRange_of (by omega) (by omega) (by omega) (by omega)
  rw [readNext, wp_bind, readPointerWord, checkedAdd_of_lt (by omega), okOr_some, wp_bind,
    wp_ofExcept, andThen_ok, wp_step, hrange]
  exact Iff.rfl

theorem readValue_reported (value : UInt64) :
    (readValue cfg value).wp v t (fun r s' => s' = s ∧ Reported r) s := by
  rw [readValue]
  by_cases hblob : isBlob value = true
  · rw [if_pos hblob, readBlob, wp_bind, wp_ofExcept, requireBlobs]
    by_cases hmode : cfg.mode = .map
    · rw [if_pos hmode, andThen_ok, wp_bind]
      refine readBlobBytes_total ?_ fun message => ⟨rfl, message, rfl⟩
      intro hrange
      have hbound := (dataRange_ok hrange).2.2.2
      rw [andThen_ok]
      generalize decodeBlobHeader (slice s.bytes (blobOffset value) blobHeaderSize) = header
      obtain ⟨length, expected⟩ := header
      simp only
      rw [wp_bind, wp_ofExcept, checkedAdd_of_lt hbound, okOr_some, andThen_ok, wp_bind]
      refine readBlobBytes_total ?_ fun message => ⟨rfl, message, rfl⟩
      intro _
      rw [andThen_ok]
      generalize slice s.bytes (blobOffset value + blobHeaderSize) length = bytes
      by_cases hsum : blobChecksum bytes ≠ expected
      · rw [if_pos hsum]
        exact ⟨rfl, _, rfl⟩
      · rw [if_neg hsum]
        exact ⟨rfl, trivial⟩
    · rw [if_neg hmode]
      exact ⟨rfl, _, rfl⟩
  · rw [if_neg hblob]
    exact ⟨rfl, trivial⟩

end Reads

section Walk

/-- The walk for `key` goes on from `o` to `o'`: the node at `o` can be read and is another
key's. -/
structure Follows (cfg : Config) (s : Store) (key : Key) (o o' : Nat) : Prop where
  readable : Readable cfg s o
  other : (s.slots o).key ≠ key
  next : o' = (s.slots o).next

/-- Every walk from `o` ends. -/
abbrev Ends (cfg : Config) (s : Store) (key : Key) (o : Nat) : Prop :=
  Acc (fun y x => Follows cfg s key x y) o

/-- No cycle of readable nodes with other keys can be reached from `o`. -/
def Acyclic (cfg : Config) (s : Store) (key : Key) (o : Nat) : Prop :=
  ∀ x, ReflTransGen (Follows cfg s key) o x → ¬TransGen (Follows cfg s key) x x

theorem reachable_finite (cfg : Config) (s : Store) (key : Key) (o : Nat) :
    {x | ReflTransGen (Follows cfg s key) o x}.Finite := by
  refine (Set.finite_le_nat (max o (2 ^ 48))).subset ?_
  intro x hx
  cases hx with
  | refl => exact Nat.le_max_left _ _
  | @tail y _ _ hstep =>
    have hle := Slot.next_le (s.slots y)
    have hmask : nodePointerMask.toNat = 2 ^ 48 - 1 := rfl
    rw [hstep.next]
    exact Nat.le_trans hle (by omega)

/-- A link of the walk, with the offset it holds. -/
inductive Reached (cfg : Config) (d : Db) (bucket : Nat) : Link → Nat → Prop where
  | head : Reached cfg d bucket (.head bucket) (d.runtimeHeads bucket)
  | node {p : Nat} (h : Readable cfg d.store p) :
      Reached cfg d bucket (.node p) (d.store.slots p).next

theorem linkValue_reached {link : Link} (hb : bucket < cfg.bucketCount)
    (h : Reached cfg d bucket link o) {Q : Except Error Nat → Db → Prop} :
    (linkValue cfg link).wp v t Q d ↔ Q (.ok o) d := by
  cases h with
  | head =>
    rw [linkValue, loadHead, wp_step, checkHead, if_neg (Nat.not_le.mpr hb)]
    exact Iff.rfl
  | node hread => rw [linkValue, wp_onStore, readNext_readable hread]

theorem observe_reached {link : Link} (hb : bucket < cfg.bucketCount)
    (h : Reached cfg d bucket link o) (hread : Readable cfg d.store o)
    {Q : Except Error (Option Node) → Db → Prop} :
    (observe cfg link o).wp v t Q d ↔ Q (.ok (some (nodeAt d.store o))) d := by
  rw [observe, wp_bind, wp_onStore, readNode_readable hread, andThen_ok, wp_bind,
    linkValue_reached hb h, andThen_ok, if_neg (not_not.mpr rfl), wp_bind, wp_onStore,
    readNext_readable hread, andThen_ok]
  rw [if_neg (show ¬(d.store.slots o).next ≠ (nodeAt d.store o).next from not_not.mpr rfl), wp_pure]

/-- One turn of the walk that finds another key. -/
theorem find_follows {link : Link} {root fuel : Nat} (hb : bucket < cfg.bucketCount)
    (h : Reached cfg d bucket link o) {o' : Nat} (hf : Follows cfg d.store key o o')
    {Q : Except Error Found → Db → Prop} :
    (find cfg bucket (hashOf cfg key) key (fuel + 1) (some ⟨root, link, o⟩)).wp v t Q d ↔
      (find cfg bucket (hashOf cfg key) key fuel (some ⟨root, .node o, o'⟩)).wp v t Q d := by
  obtain ⟨hread, hother, rfl⟩ := hf
  have hkey : ¬(hashOf cfg (nodeAt d.store o).key = hashOf cfg key ∧
      (nodeAt d.store o).key = key) := fun hk => hother hk.2
  rw [find]
  simp only
  rw [if_neg hread.pos, wp_bind, observe_reached hb h hread, andThen_ok]
  simp only
  rw [if_neg hkey]
  exact Iff.rfl

/-- A walk that ends returns, and leaves the database as it was. -/
theorem find_ends (hb : bucket < cfg.bucketCount) (hend : Ends cfg d.store key o) :
    ∃ n, ∀ link fuel, n ≤ fuel → Reached cfg d bucket link o →
      (find cfg bucket (hashOf cfg key) key fuel
        (some ⟨d.runtimeHeads bucket, link, o⟩)).wp v t (fun r d' => d' = d ∧ Reported r) d := by
  induction hend with
  | intro o _ ih =>
    by_cases hfollow : Follows cfg d.store key o (d.store.slots o).next
    · obtain ⟨n, hn⟩ := ih _ hfollow
      refine ⟨n + 1, ?_⟩
      intro link fuel hfuel h
      obtain ⟨fuel, rfl⟩ : ∃ k, fuel = k + 1 := ⟨fuel - 1, by omega⟩
      rw [find_follows hb h hfollow]
      exact hn _ fuel (by omega) (.node hfollow.readable)
    · refine ⟨1, ?_⟩
      intro link fuel hfuel h
      obtain ⟨fuel, rfl⟩ : ∃ k, fuel = k + 1 := ⟨fuel - 1, by omega⟩
      rw [find]
      simp only
      by_cases hnull : o = 0
      · rw [if_pos hnull, wp_bind, loadHead, wp_step, checkHead, if_neg (Nat.not_le.mpr hb)]
        simp only [Except.map, andThen_ok]
        rw [if_neg (not_not.mpr rfl)]
        exact ⟨rfl, trivial⟩
      · rw [if_neg hnull, wp_bind]
        by_cases hread : Readable cfg d.store o
        · have hkey : (d.store.slots o).key = key := by
            by_contra hother
            exact hfollow ⟨hread, hother, rfl⟩
          have hfound : hashOf cfg (nodeAt d.store o).key = hashOf cfg key ∧
              (nodeAt d.store o).key = key := ⟨congrArg (hashOf cfg) hkey, hkey⟩
          rw [observe_reached hb h hread, andThen_ok]
          simp only
          rw [if_pos hfound]
          exact ⟨rfl, trivial⟩
        · rw [observe, wp_bind, wp_onStore]
          refine readNode_total (fun hok => absurd hok hread) fun _ message => ?_
          exact ⟨rfl, message, rfl⟩

/-- A walk that does not end never returns, whatever its fuel. -/
theorem find_spins {link : Link} {root : Nat} (hb : bucket < cfg.bucketCount)
    (h : Reached cfg d bucket link o) (hend : ¬Ends cfg d.store key o) (fuel : Nat) :
    (find cfg bucket (hashOf cfg key) key fuel (some ⟨root, link, o⟩)).wp .any t
      (fun _ _ => False) d := by
  induction fuel generalizing link o with
  | zero => rfl
  | succ fuel ih =>
    obtain ⟨o', hend', hf⟩ := exists_not_acc_lt_of_not_acc hend
    rw [find_follows hb h hf]
    have hnext := hf.next
    subst hnext
    exact ih (.node hf.readable) hend'

end Walk

section Calls

/-- The head of the bucket of `key` in the heads file. -/
def Directory.head (cfg : Config) (dir : Directory) (key : Key) : Nat :=
  (dir.headsFile.words (headsStart + bucketOf cfg key * 8)).toNat

/-- The bucket's walk from the start of `find`. -/
theorem find_walk (hb : bucket < cfg.bucketCount) {fuel : Nat}
    {Q : Except Error Found → Db → Prop} :
    (find cfg bucket (hashOf cfg key) key (fuel + 1) none).wp v t Q d ↔
      (find cfg bucket (hashOf cfg key) key fuel
        (some ⟨d.runtimeHeads bucket, .head bucket, d.runtimeHeads bucket⟩)).wp v t Q d := by
  rw [find, wp_bind, linkValue_reached hb .head, andThen_ok]

/-- What `contains` and `get` do with the result of the walk returns as well. -/
theorem contains_ends {raw : List UInt8} {m : Machine} (hq : d.quiescence = RwLock.free)
    (hkey : validateKey raw = .ok key)
    (h : ∀ d', d' = { d with quiescence := ⟨[t], none⟩ } →
      (find cfg (bucketOf cfg key) (hashOf cfg key) key m.fuel none).wp v t
        (fun r d'' => d'' = d' ∧ Reported r) d') :
    (contains cfg m raw).wp v t (fun r _ => Reported r) d := by
  refine wp_shared hq ?_
  rw [hkey, wp_bind, wp_ofExcept, andThen_ok]
  refine wp_seq (h _ rfl) ?_
  rintro r d' ⟨rfl, hr⟩
  cases r with
  | error e => exact ⟨rfl, hr⟩
  | ok found => exact ⟨rfl, trivial⟩

theorem get_ends {raw : List UInt8} {m : Machine} (hq : d.quiescence = RwLock.free)
    (hkey : validateKey raw = .ok key) (hmode : cfg.mode = .map)
    (h : ∀ d', d' = { d with quiescence := ⟨[t], none⟩ } →
      (find cfg (bucketOf cfg key) (hashOf cfg key) key m.fuel none).wp v t
        (fun r d'' => d'' = d' ∧ Reported r) d') :
    (get cfg m raw).wp v t (fun r _ => Reported r) d := by
  refine wp_shared hq ?_
  rw [requireMode, if_neg (not_not.mpr hmode), wp_bind, wp_ofExcept, andThen_ok, hkey, wp_bind,
    wp_ofExcept, andThen_ok]
  refine wp_seq (h _ rfl) ?_
  rintro r d' ⟨rfl, hr⟩
  cases r with
  | error e => exact ⟨rfl, hr⟩
  | ok found =>
    rw [andThen_ok]
    cases found.node with
    | none => exact ⟨rfl, trivial⟩
    | some node =>
      simp only
      rw [wp_bind, wp_onStore]
      refine wp_mono (readValue_reported node.value) ?_
      rintro r s' ⟨rfl, hr⟩
      cases r with
      | error e => exact ⟨rfl, hr⟩
      | ok bytes => exact ⟨rfl, trivial⟩

/-- A lookup is not over before its walk is. -/
theorem contains_spins {raw : List UInt8} {m : Machine} (hq : d.quiescence = RwLock.free)
    (hkey : validateKey raw = .ok key)
    (h : ∀ d', d' = { d with quiescence := ⟨[t], none⟩ } →
      (find cfg (bucketOf cfg key) (hashOf cfg key) key m.fuel none).wp .any t
        (fun _ _ => False) d') :
    (contains cfg m raw).run t d = none := by
  refine run_none_of_wp (wp_shared hq ?_)
  rw [hkey, wp_bind, wp_ofExcept, andThen_ok]
  exact wp_seq (h _ rfl) fun _ _ => False.elim

theorem get_spins {raw : List UInt8} {m : Machine} (hq : d.quiescence = RwLock.free)
    (hkey : validateKey raw = .ok key) (hmode : cfg.mode = .map)
    (h : ∀ d', d' = { d with quiescence := ⟨[t], none⟩ } →
      (find cfg (bucketOf cfg key) (hashOf cfg key) key m.fuel none).wp .any t
        (fun _ _ => False) d') :
    (get cfg m raw).run t d = none := by
  refine run_none_of_wp (wp_shared hq ?_)
  rw [requireMode, if_neg (not_not.mpr hmode), wp_bind, wp_ofExcept, andThen_ok, hkey, wp_bind,
    wp_ofExcept, andThen_ok]
  exact wp_seq (h _ rfl) fun _ _ => False.elim

theorem get_set {raw : List UInt8} {m : Machine} (hq : d.quiescence = RwLock.free)
    (hmode : cfg.mode ≠ .map) :
    (get cfg m raw).wp v t
      (fun r _ => r = .error (.unsupported "get is available only for maps")) d := by
  refine wp_shared hq ?_
  rw [requireMode, if_pos hmode, wp_bind, wp_ofExcept, andThen_error]
  exact ⟨rfl, rfl⟩

/-- The handle that `open_runtime` makes looks at the files it opened. -/
structure Opened (cfg : Config) (dir : Directory) (d : Db) : Prop where
  valid : cfg.Valid
  unlocked : d.quiescence = RwLock.free
  heads : ∀ key, d.runtimeHeads (bucketOf cfg key) = dir.head cfg key
  slots : d.store.slots = dir.store.slots
  length : d.store.body.dataLength = dir.store.body.dataLength

theorem openStore_files {s' : Store} (h : openStore cfg s = .ok s') :
    s'.slots = s.slots ∧ s'.body.dataLength = s.body.dataLength := by
  obtain ⟨⟨L, c⟩, hbody, h⟩ := bind_ok h
  have hlength : c.dataLength = s.body.dataLength := by
    obtain ⟨_, -, hbody⟩ := bind_ok hbody
    obtain ⟨⟨data, count, blocks⟩, -, hbody⟩ := bind_ok hbody
    obtain ⟨_, -, hbody⟩ := bind_ok hbody
    obtain ⟨_, -, hbody⟩ := bind_ok hbody
    obtain ⟨_, -, hbody⟩ := bind_ok hbody
    obtain ⟨-, rfl⟩ := Prod.mk.inj (Except.ok.inj hbody)
    rfl
  by_cases hm : cfg.mode = .map
  · rw [if_pos hm] at h
    obtain ⟨_, -, h⟩ := bind_ok h
    obtain rfl := Except.ok.inj h
    exact ⟨rfl, hlength⟩
  · rw [if_neg hm] at h
    obtain rfl := Except.ok.inj h
    exact ⟨rfl, hlength⟩

theorem openRuntime_opened {dir : Directory} (h : openRuntime dir = .ok (cfg, d)) :
    Opened cfg dir d := by
  obtain ⟨_, -, h⟩ := bind_ok h
  obtain ⟨cfg', hconfig, h⟩ := bind_ok h
  obtain ⟨length, -, h⟩ := bind_ok h
  obtain ⟨-, h⟩ := guard_ok.mp h
  obtain ⟨store, hstore, h⟩ := bind_ok h
  obtain ⟨rfl, rfl⟩ := Prod.mk.inj (Except.ok.inj h)
  have hv := Config.validate_ok (readConfig_body hconfig).1
  obtain ⟨hslots, hlength⟩ := openStore_files hstore
  refine ⟨hv, rfl, ?_, hslots, hlength⟩
  intro key
  exact if_pos (bucketOf_lt hv key)

/-- The walk only looks at the slots and the length of the body file. -/
theorem Opened.follows {dir : Directory} (h : Opened cfg dir d) (key : Key) :
    Follows cfg d.store key = Follows cfg dir.store key := by
  have hread : ∀ o, Readable cfg d.store o ↔ Readable cfg dir.store o := by
    intro o
    have hrange : dataRange cfg.bodyLayout d.store.body o nodeSize =
        dataRange cfg.bodyLayout dir.store.body o nodeSize := by
      rw [dataRange, dataRange, h.length]
    constructor
    · rintro ⟨hpos, haligned, hr, hsum⟩
      exact ⟨hpos, haligned, hrange ▸ hr, h.slots ▸ hsum⟩
    · rintro ⟨hpos, haligned, hr, hsum⟩
      exact ⟨hpos, haligned, hrange.symm ▸ hr, h.slots.symm ▸ hsum⟩
  funext o o'
  apply propext
  constructor
  · rintro ⟨hr, hother, hnext⟩
    exact ⟨(hread o).mp hr, h.slots ▸ hother, h.slots ▸ hnext⟩
  · rintro ⟨hr, hother, hnext⟩
    exact ⟨(hread o).mpr hr, h.slots.symm ▸ hother, h.slots.symm ▸ hnext⟩

end Calls

section Termination
variable {dir : Directory}

theorem Opened.ends_iff (h : Opened cfg dir d) (key : Key) :
    Ends cfg d.store key (d.runtimeHeads (bucketOf cfg key)) ↔
      Acyclic cfg dir.store key (dir.head cfg key) := by
  rw [Ends, h.follows, h.heads]
  exact Cycles.acc_iff_acyclic (reachable_finite cfg dir.store key _)

/-- Both lookups return, on every fuel from some point on. A set has no values to get. -/
def LookupReturns (cfg : Config) (avx2 : Bool) (t : Tid) (d : Db) (key : Key) : Prop :=
  ∃ n, ∀ fuel, n ≤ fuel →
    (∃ r d', (contains cfg ⟨fuel, avx2⟩ key.toList).run t d = some (r, d') ∧ Reported r) ∧
    ∃ r d', (get cfg ⟨fuel, avx2⟩ key.toList).run t d = some (r, d') ∧
      (Reported r ∨
        cfg.mode ≠ .map ∧ r = .error (.unsupported "get is available only for maps"))

theorem lookup_returns (h : Opened cfg dir d) (hacyclic : Acyclic cfg dir.store key
    (dir.head cfg key)) (avx2 : Bool) (t : Tid) : LookupReturns cfg avx2 t d key := by
  have hb := bucketOf_lt h.valid key
  have hend := (h.ends_iff key).mpr hacyclic
  obtain ⟨n, hn⟩ := find_ends (v := .fair) (t := t) (d := { d with quiescence := ⟨[t], none⟩ })
    hb hend
  refine ⟨n + 1, ?_⟩
  intro fuel hfuel
  obtain ⟨fuel, rfl⟩ : ∃ k, fuel = k + 1 := ⟨fuel - 1, by omega⟩
  have hfind : ∀ d', d' = { d with quiescence := ⟨[t], none⟩ } →
      (find cfg (bucketOf cfg key) (hashOf cfg key) key (fuel + 1) none).wp .fair t
        (fun r d'' => d'' = d' ∧ Reported r) d' := by
    rintro _ rfl
    rw [find_walk hb]
    exact hn _ fuel (by omega) .head
  refine ⟨?_, ?_⟩
  · exact run_of_wp (contains_ends h.unlocked (validateKey_toList key) hfind)
  · by_cases hmode : cfg.mode = .map
    · obtain ⟨r, d', hrun, hr⟩ := run_of_wp (get_ends (m := ⟨fuel + 1, avx2⟩) h.unlocked
        (validateKey_toList key) hmode hfind)
      exact ⟨r, d', hrun, Or.inl hr⟩
    · obtain ⟨r, d', hrun, hr⟩ := run_of_wp (get_set (m := ⟨fuel + 1, avx2⟩) h.unlocked hmode)
      exact ⟨r, d', hrun, Or.inr ⟨hmode, hr⟩⟩

theorem lookup_spins (h : Opened cfg dir d) (hcycle : ¬Acyclic cfg dir.store key
    (dir.head cfg key)) (fuel : Nat) (avx2 : Bool) (t : Tid) :
    (contains cfg ⟨fuel, avx2⟩ key.toList).run t d = none ∧
      (cfg.mode = .map → (get cfg ⟨fuel, avx2⟩ key.toList).run t d = none) := by
  have hb := bucketOf_lt h.valid key
  have hend := mt (h.ends_iff key).mp hcycle
  have hfind : ∀ d', d' = { d with quiescence := ⟨[t], none⟩ } →
      (find cfg (bucketOf cfg key) (hashOf cfg key) key fuel none).wp .any t
        (fun _ _ => False) d' := by
    rintro _ rfl
    cases fuel with
    | zero => rfl
    | succ fuel =>
      rw [find_walk hb]
      exact find_spins (d := { d with quiescence := ⟨[t], none⟩ }) hb .head hend fuel
  exact ⟨contains_spins h.unlocked (validateKey_toList key) hfind,
    fun hmode => get_spins h.unlocked (validateKey_toList key) hmode hfind⟩

/-- Lookups in the files that `open_runtime` accepts return exactly when the bucket's chain
runs into no cycle, and otherwise never. -/
theorem lookup_returns_iff (hopen : openRuntime dir = .ok (cfg, d)) (key : Key) (avx2 : Bool)
    (t : Tid) :
    (LookupReturns cfg avx2 t d key ↔ Acyclic cfg dir.store key (dir.head cfg key)) ∧
      (¬Acyclic cfg dir.store key (dir.head cfg key) → ∀ fuel,
        (contains cfg ⟨fuel, avx2⟩ key.toList).run t d = none ∧
          (cfg.mode = .map → (get cfg ⟨fuel, avx2⟩ key.toList).run t d = none)) := by
  have h := openRuntime_opened hopen
  refine ⟨⟨?_, ?_⟩, ?_⟩
  · intro ⟨n, hn⟩
    by_contra hcycle
    obtain ⟨r, d', hrun, -⟩ := (hn n (Nat.le_refl n)).1
    rw [(lookup_spins h hcycle n avx2 t).1] at hrun
    cases hrun
  · intro hacyclic
    exact lookup_returns h hacyclic avx2 t
  · intro hcycle fuel
    exact lookup_spins h hcycle fuel avx2 t

/-- A map whose one node is its own successor: its checksum does not cover the pointer. -/
def Directory.looped : Directory where
  headsFile := (initializeHeader HeadsFile.zero Config.small).write headsStart 65536
  headsLength := 262144
  store :=
    { Store.created with
      body := { Cells.created with
        highWater := 1, counts := fun p => if p = 0 then 1 else 0
        countsLength := 131072, dataLength := 131072 }
      slots := fun _ => ⟨Vector.replicate 16 0, 0, freshPointer (Vector.replicate 16 0) 0 ||| 65536⟩ }

theorem looped_opens : ∃ d, openRuntime Directory.looped = .ok (Config.small, d) := by
  have hconfig : (openRuntime Directory.looped).map (·.1) = .ok Config.small := by
    decide +kernel
  cases hopen : openRuntime Directory.looped with
  | error e =>
    rw [hopen] at hconfig
    cases hconfig
  | ok r =>
    rw [hopen] at hconfig
    obtain ⟨cfg, d⟩ := r
    obtain rfl := Except.ok.inj hconfig
    exact ⟨d, rfl⟩

theorem looped_follows : Follows Config.small Directory.looped.store (Vector.replicate 16 1)
    65536 65536 := by
  refine ⟨⟨by decide, by decide, by decide, ?_⟩, by decide, ?_⟩
  · decide +kernel
  · decide +kernel

theorem looped_lookup_spins :
    ∃ d, openRuntime Directory.looped = .ok (Config.small, d) ∧
      ¬LookupReturns Config.small true 0 d (Vector.replicate 16 1) ∧
      ∀ fuel, (contains Config.small ⟨fuel, true⟩ (Vector.replicate 16 1).toList).run 0 d = none ∧
        (get Config.small ⟨fuel, true⟩ (Vector.replicate 16 1).toList).run 0 d = none := by
  obtain ⟨d, hopen⟩ := looped_opens
  have hhead : Directory.looped.head Config.small (Vector.replicate 16 1) = 65536 := by
    decide +kernel
  have hcycle : ¬Acyclic Config.small Directory.looped.store (Vector.replicate 16 1)
      (Directory.looped.head Config.small (Vector.replicate 16 1)) := by
    rw [hhead]
    exact fun h => h 65536 .refl (.single looped_follows)
  have hspins := lookup_spins (openRuntime_opened hopen) hcycle
  refine ⟨d, hopen, ?_, fun fuel => ⟨(hspins fuel true 0).1, (hspins fuel true 0).2 rfl⟩⟩
  intro ⟨n, hn⟩
  obtain ⟨r, d', hrun, -⟩ := (hn n (Nat.le_refl n)).1
  rw [(hspins n true 0).1] at hrun
  cases hrun

/-- The same files, asked for the key they do hold. -/
theorem lookup_returns_iff_looped :
    ∃ d, openRuntime Directory.looped = .ok (Config.small, d) ∧
      LookupReturns Config.small true 0 d (Vector.replicate 16 0) := by
  obtain ⟨d, hopen⟩ := looped_opens
  refine ⟨d, hopen, (lookup_returns_iff hopen (Vector.replicate 16 0) true 0).1.mpr ?_⟩
  intro x hx hcycle
  obtain ⟨y, hstep, -⟩ := TransGen.head'_iff.mp hcycle
  exact hstep.other rfl

end Termination

end FlorestaDb
