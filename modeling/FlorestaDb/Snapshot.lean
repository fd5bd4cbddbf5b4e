import FlorestaDb.Checkpoint

/-! What the validation of a snapshot establishes, whatever the files hold: every chain ends,
its nodes can be read and are in the right bucket, and no key occurs twice. -/
namespace FlorestaDb
open Program Program.Prog Allocator Chain

variable {cfg : Config} {m : Machine} {v : Env} {t : Tid} {s : Store} {w : Disk} {o : Nat}

section Focus
variable {α : Type}

theorem wp_onDb (p : TableM α) (Q : Except Error α → Disk → Prop) :
    (onDb p).wp v t Q w ↔ p.wp v t (fun r d => Q r { w with db := d }) w.db :=
  wp_focus Disk.db (fun d w => { w with db := d }) (fun _ _ => rfl) (fun _ _ _ => rfl)
    (fun _ => rfl) p Q w

@[simp] theorem Disk.store_setStore (w : Disk) (p : Place) (s : Store) :
    (w.setStore p s).store p = s := by
  cases p with
  | runtime => rfl
  | bank b => simp [Disk.setStore, Disk.setBank, Disk.store]

theorem Disk.store_setStore_ne (w : Disk) {p q : Place} (h : q ≠ p) (s : Store) :
    (w.setStore p s).store q = w.store q := by
  cases p with
  | runtime =>
    cases q with
    | runtime => exact absurd rfl h
    | bank b => rfl
  | bank b =>
    cases q with
    | runtime => rfl
    | bank b' =>
      have hne : b' ≠ b := fun heq => h (by rw [heq])
      simp [Disk.setStore, Disk.setBank, Disk.store, Function.update_of_ne hne]

theorem Disk.setStore_setStore (w : Disk) (p : Place) (s s' : Store) :
    (w.setStore p s).setStore p s' = w.setStore p s' := by
  cases p with
  | runtime => rfl
  | bank b => simp [Disk.setStore, Disk.setBank]

theorem Disk.setStore_self (w : Disk) (p : Place) : w.setStore p (w.store p) = w := by
  cases p with
  | runtime => rfl
  | bank b => simp [Disk.setStore, Disk.setBank, Disk.store]

theorem wp_onPlace (p : Place) (prog : StoreM α) (Q : Except Error α → Disk → Prop) :
    (onPlace p prog).wp v t Q w ↔ prog.wp v t (fun r s => Q r (w.setStore p s)) (w.store p) :=
  wp_focus (fun w => w.store p) (fun s w => w.setStore p s) (fun s w => w.store_setStore p s)
    (fun s s' w => w.setStore_setStore p s s') (fun w => w.setStore_self p) prog Q w

end Focus

section Peek

/-- The node at `o` passes the checks of `read_node`. -/
structure Readable (cfg : Config) (s : Store) (o : Nat) : Prop where
  pos : o ≠ 0
  aligned : o % nodeAlignment = 0
  range : dataRange cfg.bodyLayout s.body o nodeSize = .ok ()
  checksum : (s.slots o).checksum = nodeChecksum (s.slots o).key (s.slots o).value

theorem readNode_readable (h : Readable cfg s o) {Q : Except Error Node → Store → Prop} :
    (readNode cfg o).wp v t Q s ↔ Q (.ok (nodeAt s o)) s := by
  rw [readNode, if_neg h.pos, if_neg (not_not.mpr h.aligned), wp_bind, wp_step, h.range,
    andThen_ok, wp_bind, wp_step, andThen_ok, wp_bind, wp_step, andThen_ok, wp_bind, wp_step,
    andThen_ok, wp_bind, wp_step, andThen_ok]
  have hsum : ¬(s.slots o).pointer >>> nodeChecksumShift ≠
      nodeChecksum (s.slots o).key (s.slots o).value := not_not.mpr h.checksum
  simp only [Key.ofHalves_self]
  rw [if_neg hsum, wp_pure]
  rfl

/-- Reading a node at any offset: an error, or a node that is readable. -/
theorem readNode_total {Q : Except Error Node → Store → Prop}
    (hok : Readable cfg s o → Q (.ok (nodeAt s o)) s)
    (herr : ¬Readable cfg s o → ∀ message, Q (.error (.corrupt message)) s) :
    (readNode cfg o).wp v t Q s := by
  by_cases hreadable : Readable cfg s o
  · exact (readNode_readable hreadable).mpr (hok hreadable)
  · by_cases hpos : o = 0
    · rw [readNode, if_pos hpos, wp_throw]
      exact herr hreadable _
    · by_cases haligned : o % nodeAlignment ≠ 0
      · rw [readNode, if_neg hpos, if_pos haligned, wp_throw]
        exact herr hreadable _
      · cases hrange : dataRange cfg.bodyLayout s.body o nodeSize with
        | error e =>
          obtain ⟨message, rfl⟩ := dataRange_error hrange
          rw [readNode, if_neg hpos, if_neg haligned, wp_bind, wp_step, hrange, andThen_error]
          exact herr hreadable message
        | ok u =>
          have hsum : (s.slots o).pointer >>> nodeChecksumShift ≠
              nodeChecksum (s.slots o).key (s.slots o).value := fun hsum =>
            hreadable ⟨hpos, not_not.mp haligned, hrange, hsum⟩
          rw [readNode, if_neg hpos, if_neg haligned, wp_bind, wp_step, hrange, andThen_ok,
            wp_bind, wp_step, andThen_ok, wp_bind, wp_step, andThen_ok, wp_bind, wp_step,
            andThen_ok, wp_bind, wp_step, andThen_ok]
          simp only [Key.ofHalves_self]
          rw [if_pos hsum, wp_throw]
          exact herr hreadable _

theorem readBlobBytes_total {offset length : Nat} {Q : Except Error (List UInt8) → Store → Prop}
    (hok : dataRange cfg.blobLayout s.blobs offset length = .ok () →
      Q (.ok (slice s.bytes offset length)) s)
    (herr : ∀ message, Q (.error (.corrupt message)) s) :
    (readBlobBytes cfg offset length).wp v t Q s := by
  cases hrange : dataRange cfg.blobLayout s.blobs offset length with
  | error e =>
    obtain ⟨message, rfl⟩ := dataRange_error hrange
    rw [readBlobBytes, wp_bind, wp_step, hrange, andThen_error]
    exact herr message
  | ok u =>
    rw [readBlobBytes, wp_bind, wp_step, hrange, andThen_ok, loadBytes_spec]
    exact hok hrange

theorem readBlobBytes_ok {offset length : Nat}
    (h : dataRange cfg.blobLayout s.blobs offset length = .ok ())
    {Q : Except Error (List UInt8) → Store → Prop} :
    (readBlobBytes cfg offset length).wp v t Q s ↔ Q (.ok (slice s.bytes offset length)) s := by
  rw [readBlobBytes, wp_bind, wp_step, h, andThen_ok, loadBytes_spec]

end Peek

section Values

/-- A blob that the validator has accepted: a matching header, inside one page. -/
structure BlobOk (cfg : Config) (s : Store) (o : Nat) (bytes : List UInt8) : Prop where
  at_bytes : BlobAt s.bytes o bytes
  header : dataRange cfg.blobLayout s.blobs o blobHeaderSize = .ok ()
  content : dataRange cfg.blobLayout s.blobs (o + blobHeaderSize) bytes.length = .ok ()
  placed : ∃ x, allocationFor cfg.blobLayout o (blobHeaderSize + bytes.length) = .ok x
  short : blobHeaderSize + bytes.length < 2 ^ 32
  bound : o + blobHeaderSize < u64Bound

/-- The value word can be decoded: a set stores none, a map an inline word or a blob. -/
structure Decodes (cfg : Config) (s : Store) (value : UInt64) : Prop where
  set_value : cfg.mode = .set → value = 0
  blob : isBlob value = true → cfg.mode = .map ∧ ∃ bytes, BlobOk cfg s (blobOffset value) bytes

/-- A header that names the length and the checksum of some bytes is their header. -/
theorem headerOf_of_decode {header bytes : List UInt8} (hlen : header.length = blobHeaderSize)
    (hdecode : decodeBlobHeader header = (bytes.length, blobChecksum bytes)) :
    bytes.length < 2 ^ 32 ∧ header = headerOf bytes := by
  have hlen8 : header.length = 8 := hlen
  obtain ⟨h1, h2⟩ := Prod.mk.inj hdecode
  have htake : (header.take 4).length = 4 := by rw [List.length_take, hlen8]; rfl
  have hdrop : ((header.drop 4).take 4).length = 4 := by
    rw [List.length_take, List.length_drop, hlen8]
    rfl
  have hall : (header.drop 4).take 4 = header.drop 4 := by
    apply List.take_of_length_le
    rw [List.length_drop, hlen8]
  have hlt : bytes.length < 2 ^ 32 := by
    have hbound := Hash.leValue_lt (header.take 4)
    rw [htake, h1] at hbound
    exact hbound
  have hfirst : Hash.leBytes 4 bytes.length = header.take 4 := by
    have hself := Hash.leBytes_leValue (header.take 4)
    rw [htake, h1] at hself
    exact hself
  have hsecond : Hash.leBytes 4 (Hash.leValue ((header.drop 4).take 4)) = header.drop 4 := by
    have hself := Hash.leBytes_leValue ((header.drop 4).take 4)
    rw [hdrop] at hself
    rw [hself, hall]
  refine ⟨hlt, ?_⟩
  rw [headerOf, ← h2, hfirst, hsecond, List.take_append_drop]

/-- A header that names the length and the checksum of what follows it is its header. -/
theorem blobAt_of_decode {bytes : Nat → UInt8} {length : Nat}
    (hdecode : decodeBlobHeader (slice bytes o blobHeaderSize) =
      (length, blobChecksum (slice bytes (o + blobHeaderSize) length))) :
    BlobAt bytes o (slice bytes (o + blobHeaderSize) length) := by
  have hnamed : decodeBlobHeader (slice bytes o blobHeaderSize) =
      ((slice bytes (o + blobHeaderSize) length).length,
        blobChecksum (slice bytes (o + blobHeaderSize) length)) := by
    rw [slice_length, hdecode]
  obtain ⟨hlt, hheader⟩ := headerOf_of_decode (slice_length bytes o blobHeaderSize) hnamed
  exact ⟨hlt, hheader, by rw [slice_length]⟩

theorem validateSnapshotBlob_total (cfg : Config) (s : Store) (node : Node) :
    (validateSnapshotBlob cfg node).wp v t (fun r s' => s' = s ∧
      ∀ u, r = .ok u → Decodes cfg s node.value) s := by
  rw [validateSnapshotBlob]
  by_cases hm : cfg.mode = .set
  · rw [if_pos hm]
    by_cases hz : node.value = 0
    · rw [if_pos hz, wp_pure]
      refine ⟨rfl, fun _ _ => ⟨fun _ => hz, fun hblob => ?_⟩⟩
      rw [hz] at hblob
      cases hblob
    · rw [if_neg hz, wp_throw]
      exact ⟨rfl, fun _ h => by cases h⟩
  · rw [if_neg hm]
    have hmap : cfg.mode = .map := (mode_set_or_map cfg).resolve_left hm
    by_cases hblob : isBlob node.value = true
    · rw [if_neg (by simp [hblob]), wp_bind]
      refine readBlobBytes_total ?_ fun e => ⟨rfl, fun _ h => by cases h⟩
      intro hrange
      rw [andThen_ok]
      generalize hdec : decodeBlobHeader (slice s.bytes (blobOffset node.value) blobHeaderSize) = p
      obtain ⟨length, expected⟩ := p
      simp only
      by_cases hlong : blobHeaderSize + length ≥ 2 ^ 32
      · rw [if_pos hlong, wp_throw]
        exact ⟨rfl, fun _ h => by cases h⟩
      · rw [if_neg hlong, wp_bind, wp_ofExcept]
        cases halloc : allocationFor cfg.blobLayout (blobOffset node.value)
            (blobHeaderSize + length) with
        | error e =>
          rw [andThen_error]
          exact ⟨rfl, fun _ h => by cases h⟩
        | ok x =>
          rw [andThen_ok, wp_bind, wp_ofExcept]
          by_cases hsum : blobOffset node.value + blobHeaderSize < u64Bound
          · rw [checkedAdd_of_lt hsum, okOr_some, andThen_ok, wp_bind]
            refine readBlobBytes_total ?_ fun e => ⟨rfl, fun _ h => by cases h⟩
            intro hrange'
            rw [andThen_ok]
            by_cases hmatch : expected ≠ blobChecksum
                (slice s.bytes (blobOffset node.value + blobHeaderSize) length)
            · rw [if_pos hmatch, wp_throw]
              exact ⟨rfl, fun _ h => by cases h⟩
            · rw [if_neg hmatch, wp_pure]
              refine ⟨rfl, fun _ _ => ⟨fun h => absurd h hm, fun _ => ⟨hmap,
                slice s.bytes (blobOffset node.value + blobHeaderSize) length, ?_⟩⟩⟩
              refine ⟨?_, hrange, ?_, ⟨x, ?_⟩, ?_, hsum⟩
              · apply blobAt_of_decode
                rw [hdec, not_not.mp hmatch]
              · rw [slice_length]
                exact hrange'
              · rw [slice_length]
                exact halloc
              · rw [slice_length]
                exact Nat.not_le.mp hlong
          · rw [checkedAdd, if_neg hsum, okOr, andThen_error]
            exact ⟨rfl, fun _ h => by cases h⟩
    · rw [if_pos (by simpa using hblob), wp_pure]
      exact ⟨rfl, fun _ _ => ⟨fun h => absurd h hm, fun h => absurd h hblob⟩⟩

/-- What was accepted once is accepted again. -/
theorem validateSnapshotBlob_ok {node : Node} (h : Decodes cfg s node.value)
    {Q : Except Error Unit → Store → Prop} :
    (validateSnapshotBlob cfg node).wp v t Q s ↔ Q (.ok ()) s := by
  rw [validateSnapshotBlob]
  by_cases hm : cfg.mode = .set
  · rw [if_pos hm, if_pos (h.set_value hm), wp_pure]
  · rw [if_neg hm]
    by_cases hblob : isBlob node.value = true
    · obtain ⟨-, bytes, hok⟩ := h.blob hblob
      obtain ⟨x, hx⟩ := hok.placed
      have hshort : ¬blobHeaderSize + bytes.length ≥ 2 ^ 32 := Nat.not_le.mpr hok.short
      rw [if_neg (by simp [hblob]), wp_bind, readBlobBytes_ok hok.header, andThen_ok,
        hok.at_bytes.header, decodeBlobHeader_headerOf hok.at_bytes.length_lt]
      dsimp only
      rw [if_neg hshort, wp_bind, wp_ofExcept, hx, andThen_ok, wp_bind, wp_ofExcept,
        checkedAdd_of_lt hok.bound, okOr_some, andThen_ok, wp_bind, readBlobBytes_ok hok.content,
        andThen_ok, hok.at_bytes.content, if_neg (not_not.mpr rfl), wp_pure]
    · rw [if_pos (by simpa using hblob), wp_pure]

end Values

section Chains
variable {bucket root target left current : Nat} {key : Key} {l : List Nat}

/- A prefix check that finds nothing has seen the whole way to its target, whatever
   happens behind it. -/
theorem snapshotPrefixContains_total (cfg : Config) (s : Store) (target : Nat) (key : Key)
    (left current : Nat) :
    (snapshotPrefixContains cfg target key left current).wp v t (fun r s' => s' = s ∧
      (r = .ok false → ∀ pre, IsSegment s.next target current pre → target ∉ pre →
        ∀ o ∈ pre, (s.slots o).key ≠ key)) s := by
  induction left generalizing current with
  | zero =>
    rw [snapshotPrefixContains]
    by_cases htarget : current = target
    · rw [if_pos htarget, wp_pure]
      refine ⟨rfl, fun _ pre hpre hnot => ?_⟩
      cases pre with
      | nil => simp
      | cons o pre => exact absurd (htarget.symm.trans hpre.1) fun h => hnot (h ▸ List.mem_cons_self)
    · rw [if_neg htarget]
      by_cases hzero : current = 0
      · rw [if_pos hzero, wp_throw]
        exact ⟨rfl, fun h => by cases h⟩
      · rw [if_neg hzero, wp_throw]
        exact ⟨rfl, fun h => by cases h⟩
  | succ left ih =>
    rw [snapshotPrefixContains]
    by_cases htarget : current = target
    · rw [if_pos htarget, wp_pure]
      refine ⟨rfl, fun _ pre hpre hnot => ?_⟩
      cases pre with
      | nil => simp
      | cons o pre => exact absurd (htarget.symm.trans hpre.1) fun h => hnot (h ▸ List.mem_cons_self)
    · rw [if_neg htarget]
      by_cases hzero : current = 0
      · rw [if_pos hzero, wp_throw]
        exact ⟨rfl, fun h => by cases h⟩
      · rw [if_neg hzero, wp_bind]
        refine readNode_total ?_ fun _ _ => ⟨rfl, fun h => by cases h⟩
        intro _
        rw [andThen_ok]
        by_cases hkey : (nodeAt s current).key = key
        · rw [if_pos hkey, wp_pure]
          exact ⟨rfl, fun h => by cases h⟩
        · rw [if_neg hkey]
          refine wp_mono (ih (nodeAt s current).next) ?_
          rintro r s' ⟨rfl, hfalse⟩
          refine ⟨rfl, fun hr pre hpre hnot => ?_⟩
          cases pre with
          | nil => exact absurd hpre htarget
          | cons o pre =>
            obtain ⟨rfl, -, hpre⟩ := hpre
            intro x hx
            rcases List.mem_cons.mp hx with rfl | hx
            · exact hkey
            · exact hfalse hr pre hpre (fun h => hnot (List.mem_cons_of_mem current h)) x hx

theorem snapshotPrefixContains_ok {pre : List Nat} (h : IsSegment s.next target current pre)
    (hnot : target ∉ pre) (hread : ∀ o ∈ pre, Readable cfg s o)
    (hkeys : ∀ o ∈ pre, (s.slots o).key ≠ key) (hleft : pre.length ≤ left)
    {Q : Except Error Bool → Store → Prop} :
    (snapshotPrefixContains cfg target key left current).wp v t Q s ↔ Q (.ok false) s := by
  induction pre generalizing current left with
  | nil =>
    have hhere : current = target := h
    rw [snapshotPrefixContains.eq_def]
    dsimp only
    rw [if_pos hhere, wp_pure]
  | cons o pre ih =>
    obtain ⟨rfl, hne, h⟩ := h
    cases left with
    | zero => exact absurd hleft (Nat.not_succ_le_zero _)
    | succ left =>
      have htarget : current ≠ target := fun heq => hnot (heq ▸ List.mem_cons_self)
      have hkey : ¬(nodeAt s current).key = key := hkeys current List.mem_cons_self
      rw [snapshotPrefixContains, if_neg htarget, if_neg hne, wp_bind,
        readNode_readable (hread current List.mem_cons_self), andThen_ok, if_neg hkey]
      exact ih h (fun hm => hnot (List.mem_cons_of_mem _ hm))
        (fun x hx => hread x (List.mem_cons_of_mem _ hx))
        (fun x hx => hkeys x (List.mem_cons_of_mem _ hx)) (Nat.le_of_succ_le_succ hleft)

/-- A node that the validator has accepted. -/
structure NodeOk (cfg : Config) (s : Store) (bucket o : Nat) : Prop where
  readable : Readable cfg s o
  placed : ∃ x, allocationFor cfg.bodyLayout o nodeSize = .ok x
  bucket : bucketOf cfg (s.slots o).key = bucket
  decodes : Decodes cfg s (s.slots o).value

/-- A validated chain: it ends, its nodes are acceptable and their keys differ. -/
structure ChainOk (cfg : Config) (s : Store) (bucket root : Nat) (l : List Nat) : Prop where
  chain : IsChain s.next root l
  nodes : ∀ o ∈ l, NodeOk cfg s bucket o
  distinct : l.Pairwise fun o o' => (s.slots o).key ≠ (s.slots o').key
  length_le : l.length ≤ maximumNodes cfg

theorem chainChecksum_end (cfg : Config) (bucket root left : Nat) (checksum : UInt64) :
    chainChecksum cfg bucket root left 0 checksum = pure checksum := by
  rw [chainChecksum.eq_def]
  exact if_pos rfl

theorem chainChecksum_total (cfg : Config) (s : Store) (bucket root left current : Nat)
    (checksum : UInt64) :
    (chainChecksum cfg bucket root left current checksum).wp v t (fun r s' => s' = s ∧
      ∀ c, r = .ok c → ∃ l, IsChain s.next current l ∧ l.length ≤ left ∧
        ∀ o ∈ l, NodeOk cfg s bucket o ∧
          ∀ pre, IsSegment s.next o root pre → o ∉ pre →
            ∀ x ∈ pre, (s.slots x).key ≠ (s.slots o).key) s := by
  have herror : ∀ e : Error, s = s ∧ ∀ c, (.error e : Except Error UInt64) = .ok c →
      ∃ l, IsChain s.next current l ∧ l.length ≤ left ∧
        ∀ o ∈ l, NodeOk cfg s bucket o ∧
          ∀ pre, IsSegment s.next o root pre → o ∉ pre →
            ∀ x ∈ pre, (s.slots x).key ≠ (s.slots o).key := fun e => ⟨rfl, fun _ h => by cases h⟩
  by_cases hzero : current = 0
  · rw [hzero, chainChecksum_end, wp_pure]
    refine ⟨rfl, fun _ _ => ⟨[], rfl, Nat.zero_le _, by simp⟩⟩
  · induction left generalizing current checksum with
    | zero =>
      rw [chainChecksum, if_neg hzero, wp_throw]
      exact herror _
    | succ left ih =>
      rw [chainChecksum, if_neg hzero, wp_bind, wp_ofExcept]
      cases halloc : allocationFor cfg.bodyLayout current nodeSize with
      | error e => exact herror e
      | ok x =>
        rw [andThen_ok, wp_bind]
        refine readNode_total ?_ fun _ message => herror (.corrupt message)
        intro hreadable
        rw [andThen_ok]
        by_cases hbucket : bucketOf cfg (nodeAt s current).key ≠ bucket
        · rw [if_pos hbucket, wp_throw]
          exact herror _
        · rw [if_neg hbucket, wp_bind]
          refine wp_mono (snapshotPrefixContains_total cfg s current (nodeAt s current).key
            (maximumNodes cfg) root) ?_
          rintro (e | found) s ⟨rfl, hpre⟩
          · exact herror e
          · rw [andThen_ok]
            cases found with
            | true =>
              rw [if_pos rfl, wp_throw]
              exact herror _
            | false =>
              rw [if_neg (by decide), wp_bind]
              refine wp_mono (validateSnapshotBlob_total cfg s (nodeAt s current)) ?_
              rintro (e | u) s ⟨rfl, hdecodes⟩
              · exact herror e
              · have hnode : NodeOk cfg s bucket current :=
                  ⟨hreadable, ⟨x, halloc⟩, not_not.mp hbucket, hdecodes u rfl⟩
                rw [andThen_ok]
                by_cases hnext : (nodeAt s current).next = 0
                · rw [hnext, chainChecksum_end, wp_pure]
                  refine ⟨rfl, fun _ _ => ⟨[current], ⟨rfl, hzero, hnext⟩, by simp, ?_⟩⟩
                  intro o ho
                  rw [List.mem_singleton.mp ho]
                  exact ⟨hnode, hpre rfl⟩
                · refine wp_mono (ih (nodeAt s current).next _ (fun e => ⟨rfl, fun _ h => by cases h⟩)
                    hnext) ?_
                  rintro r s ⟨rfl, hrest⟩
                  refine ⟨rfl, fun c hc => ?_⟩
                  obtain ⟨l, hchain, hlen, hall⟩ := hrest c hc
                  refine ⟨current :: l, ⟨rfl, hzero, hchain⟩, Nat.succ_le_succ hlen, ?_⟩
                  intro o ho
                  rcases List.mem_cons.mp ho with rfl | ho
                  · exact ⟨hnode, hpre rfl⟩
                  · exact hall o ho

/-- No key twice on a chain of which every prefix was searched for the key behind it. -/
theorem pairwise_of_prefixes {next : Nat → Nat} (keys : Nat → Key) (h : IsChain next root l)
    (hpre : ∀ o ∈ l, ∀ pre, IsSegment next o root pre → o ∉ pre → ∀ x ∈ pre, keys x ≠ keys o) :
    l.Pairwise fun o o' => keys o ≠ keys o' := by
  rw [List.pairwise_iff_forall_sublist]
  intro x y hsub
  obtain ⟨l₁, r₁, rfl, hx, hy⟩ := List.cons_sublist_iff.mp hsub
  obtain ⟨mid, r, rfl⟩ := List.append_of_mem (List.singleton_sublist.mp hy)
  have hfull : l₁ ++ (mid ++ y :: r) = (l₁ ++ mid) ++ y :: r := (List.append_assoc _ _ _).symm
  rw [hfull] at h hpre
  refine hpre y (by simp) (l₁ ++ mid) h.split.1 ?_ x (List.mem_append_left mid hx)
  intro hmem
  exact (List.nodup_append.mp h.nodup).2.2 y hmem y List.mem_cons_self rfl

theorem chainChecksum_root (cfg : Config) (s : Store) (bucket root : Nat)
    (checksum : UInt64) :
    (chainChecksum cfg bucket root (maximumNodes cfg) root checksum).wp v t (fun r s' => s' = s ∧
      ∀ c, r = .ok c → ∃ l, ChainOk cfg s bucket root l) s := by
  refine wp_mono (chainChecksum_total cfg s bucket root (maximumNodes cfg) root checksum) ?_
  rintro r s ⟨rfl, hok⟩
  refine ⟨rfl, fun c hc => ?_⟩
  obtain ⟨l, hchain, hlen, hall⟩ := hok c hc
  have hdistinct := pairwise_of_prefixes (fun o => (s.slots o).key) hchain
    fun o ho => (hall o ho).2
  exact ⟨l, hchain, fun o ho => (hall o ho).1, hdistinct, hlen⟩

/-- The checksum of a chain, as a function of its nodes. -/
def mixChain (s : Store) (checksum : UInt64) (l : List Nat) : UInt64 :=
  l.foldl (fun checksum o => mixNode checksum (nodeAt s o)) checksum

theorem chainChecksum_ok (h : ChainOk cfg s bucket root l) (checksum : UInt64)
    {Q : Except Error UInt64 → Store → Prop} :
    (chainChecksum cfg bucket root (maximumNodes cfg) root checksum).wp v t Q s ↔
      Q (.ok (mixChain s checksum l)) s := by
  -- the rest of the chain, behind the nodes that were checked already
  have hrest : ∀ pre post current left checksum, l = pre ++ post → IsChain s.next current post →
      post.length ≤ left →
      ((chainChecksum cfg bucket root left current checksum).wp v t Q s ↔
        Q (.ok (mixChain s checksum post)) s) := by
    intro pre post
    induction post generalizing pre with
    | nil =>
      intro current left checksum _ hchain _
      have hend : current = 0 := hchain
      rw [hend, chainChecksum_end, wp_pure]
      rfl
    | cons o post ih =>
      intro current left checksum heq hchain hleft
      obtain ⟨rfl, hne, hchain⟩ := hchain
      have hmem : current ∈ l := by simp [heq]
      have hnode := h.nodes current hmem
      have hchain' := h.chain
      have hpair := h.distinct
      have hlen := h.length_le
      rw [heq] at hchain' hpair hlen
      have hnot : current ∉ pre := fun hm =>
        (List.nodup_append.mp hchain'.nodup).2.2 current hm current List.mem_cons_self rfl
      obtain ⟨x, hx⟩ := hnode.placed
      have hbucket : ¬bucketOf cfg (nodeAt s current).key ≠ bucket := not_not.mpr hnode.bucket
      cases left with
      | zero => exact absurd hleft (Nat.not_succ_le_zero _)
      | succ left =>
        rw [List.length_append] at hlen
        have hread : ∀ x ∈ pre, Readable cfg s x := fun x hx =>
          (h.nodes x (by rw [heq]; exact List.mem_append_left _ hx)).readable
        have hkeys : ∀ x ∈ pre, (s.slots x).key ≠ (nodeAt s current).key := fun x hx =>
          (List.pairwise_append.mp hpair).2.2 x hx current List.mem_cons_self
        rw [chainChecksum, if_neg hne, wp_bind, wp_ofExcept, hx, andThen_ok, wp_bind,
          readNode_readable hnode.readable, andThen_ok, if_neg hbucket, wp_bind,
          snapshotPrefixContains_ok hchain'.split.1 hnot hread hkeys
            (Nat.le_trans (Nat.le_add_right _ _) hlen), andThen_ok, if_neg (by decide), wp_bind,
          validateSnapshotBlob_ok hnode.decodes, andThen_ok]
        exact ih (pre ++ [current]) (nodeAt s current).next left _ (by simp [heq]) hchain
          (Nat.le_of_succ_le_succ hleft)
  exact hrest [] l root (maximumNodes cfg) checksum rfl h.chain h.length_le

end Chains

section Banks

/-- The snapshot root of a bucket; a bank without a place for it has none. -/
def snapshotRoot (cfg : Config) (f : HeadsFile) (bank bucket : Nat) : Nat :=
  match rootOffset cfg bank bucket with
  | .ok offset => (f.words offset).toNat
  | .error _ => 0

theorem readRoot_ok {bank bucket offset : Nat} (h : rootOffset cfg bank bucket = .ok offset)
    {Q : Except Error Nat → Disk → Prop} :
    (readRoot cfg bank bucket).wp v t Q w ↔ Q (.ok (snapshotRoot cfg w.db.headsFile bank bucket)) w := by
  rw [readRoot, wp_bind, wp_ofExcept, h, andThen_ok, wp_step, snapshotRoot, h]

/- A validated snapshot: every bucket has a root in the heads file, and from it a validated
   chain in the files of the bank. -/
structure SnapshotOk (cfg : Config) (w : Disk) (bank : Nat) (buckets : List Nat)
    (chains : Nat → List Nat) : Prop where
  root : ∀ b ∈ buckets, ∃ offset, rootOffset cfg bank b = .ok offset
  chain : ∀ b ∈ buckets, ChainOk cfg (w.banks bank).store b
    (snapshotRoot cfg w.db.headsFile bank b) (chains b)

/-- The checksum of the buckets, as a function of their chains. -/
def mixBuckets (cfg : Config) (w : Disk) (bank : Nat) (chains : Nat → List Nat)
    (buckets : List Nat) (checksum : UInt64) : UInt64 :=
  buckets.foldl (fun checksum b => mixChain (w.banks bank).store
    (mixChecksum (mixChecksum checksum (UInt64.ofNat b))
      (UInt64.ofNat (snapshotRoot cfg w.db.headsFile bank b))) (chains b)) checksum

theorem bucketsChecksum_total (cfg : Config) (w : Disk) (bank : Nat) (buckets : List Nat)
    (checksum : UInt64) :
    (bucketsChecksum cfg bank buckets checksum).wp v t (fun r w' => w' = w ∧
      ∀ c, r = .ok c → ∀ b ∈ buckets, (∃ offset, rootOffset cfg bank b = .ok offset) ∧
        ∃ l, ChainOk cfg (w.banks bank).store b (snapshotRoot cfg w.db.headsFile bank b) l) w := by
  induction buckets generalizing checksum with
  | nil =>
    rw [bucketsChecksum, wp_pure]
    exact ⟨rfl, by simp⟩
  | cons bucket rest ih =>
    rw [bucketsChecksum, wp_bind]
    cases hroot : rootOffset cfg bank bucket with
    | error e =>
      rw [readRoot, wp_bind, wp_ofExcept, hroot]
      exact ⟨rfl, fun _ h => by cases h⟩
    | ok offset =>
      rw [readRoot_ok hroot, andThen_ok, wp_bind, wp_onPlace]
      refine wp_mono (chainChecksum_root cfg (w.store (.bank bank)) bucket _ _) ?_
      rintro (e | c) s ⟨hs, hok⟩
      · rw [andThen_error, hs]
        exact ⟨w.setStore_self _, fun _ h => by cases h⟩
      · rw [andThen_ok, hs, w.setStore_self]
        refine wp_mono (ih c) ?_
        rintro r w' ⟨rfl, hrest⟩
        refine ⟨rfl, fun c' hc' b hb => ?_⟩
        rcases List.mem_cons.mp hb with rfl | hb
        · exact ⟨⟨offset, hroot⟩, hok c rfl⟩
        · exact hrest c' hc' b hb

theorem bucketsChecksum_ok {bank : Nat} {buckets : List Nat} {chains : Nat → List Nat}
    (h : SnapshotOk cfg w bank buckets chains) (checksum : UInt64)
    {Q : Except Error UInt64 → Disk → Prop} :
    (bucketsChecksum cfg bank buckets checksum).wp v t Q w ↔
      Q (.ok (mixBuckets cfg w bank chains buckets checksum)) w := by
  induction buckets generalizing checksum with
  | nil =>
    rw [bucketsChecksum, wp_pure]
    rfl
  | cons bucket rest ih =>
    obtain ⟨offset, hroot⟩ := h.root bucket List.mem_cons_self
    have hchain : ChainOk cfg (w.store (.bank bank)) bucket _ _ :=
      h.chain bucket List.mem_cons_self
    have hrest : SnapshotOk cfg w bank rest chains :=
      ⟨fun b hb => h.root b (List.mem_cons_of_mem _ hb),
        fun b hb => h.chain b (List.mem_cons_of_mem _ hb)⟩
    rw [bucketsChecksum, wp_bind, readRoot_ok hroot, andThen_ok, wp_bind, wp_onPlace,
      chainChecksum_ok hchain, andThen_ok, w.setStore_self, ih hrest]
    rfl

/-- All buckets of the bank. -/
def Validated (cfg : Config) (w : Disk) (bank : Nat) (chains : Nat → List Nat) : Prop :=
  SnapshotOk cfg w bank (List.range cfg.bucketCount) chains

/-- The checksum of a validated snapshot. -/
def checksumOf (cfg : Config) (w : Disk) (bank : Nat) (chains : Nat → List Nat) : UInt64 :=
  mixBuckets cfg w bank chains (List.range cfg.bucketCount) manifestMagic

theorem snapshotChecksum_ok {bank : Nat} {chains : Nat → List Nat} (h : Validated cfg w bank chains)
    {Q : Except Error UInt64 → Disk → Prop} :
    (snapshotChecksum cfg bank).wp v t Q w ↔ Q (.ok (checksumOf cfg w bank chains)) w :=
  bucketsChecksum_ok h manifestMagic

/-- Whatever the files hold, the validator returns, and it accepts only validated snapshots. -/
theorem snapshotChecksum_total (cfg : Config) (w : Disk) (bank : Nat) :
    (snapshotChecksum cfg bank).wp v t (fun r w' => w' = w ∧
      ∀ c, r = .ok c → ∃ chains, Validated cfg w bank chains ∧
        c = checksumOf cfg w bank chains) w := by
  have htotal := bucketsChecksum_total (v := v) (t := t) cfg w bank (List.range cfg.bucketCount)
    manifestMagic
  -- the value is known once the chains are
  by_cases hall : ∀ b ∈ List.range cfg.bucketCount, (∃ offset, rootOffset cfg bank b = .ok offset) ∧
      ∃ l, ChainOk cfg (w.banks bank).store b (snapshotRoot cfg w.db.headsFile bank b) l
  · choose! chains hchains using fun b hb => (hall b hb).2
    have hok : Validated cfg w bank chains := ⟨fun b hb => (hall b hb).1, hchains⟩
    refine (snapshotChecksum_ok hok).mpr ⟨rfl, fun c hc => ⟨chains, hok, (Except.ok.inj hc).symm⟩⟩
  · refine wp_mono htotal ?_
    rintro r w' ⟨rfl, hr⟩
    exact ⟨rfl, fun c hc => absurd (hr c hc) hall⟩

end Banks

end FlorestaDb
