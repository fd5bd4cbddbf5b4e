import FlorestaDb.HeadsFormat
import FlorestaDb.Lib.Interference
import FlorestaDb.Opening
import FlorestaDb.PartialChains
import FlorestaDb.Operations

/-! A checkpoint among other calls: whatever they do to the runtime between two of its steps,
what it leaves in the files of its bank is packed in the order in which `open` reads it. -/
namespace FlorestaDb
open Program Program.Prog Allocator Chain

variable {cfg : Config} {m : Machine} {t : Tid} {w w₁ w₂ : Disk} {bank b : Nat}

section Roots
variable {length size offset : Nat}

/-- Where the root of a bucket lies, for a bank and a bucket that are in range. -/
theorem rootOffset_ok (hg : Mapped.Geometry cfg.bucketCount length size)
    (h : rootOffset cfg bank b = .ok offset) :
    bank ≤ 1 ∧ b < cfg.bucketCount ∧ offset = headsStart + size + bank * size + b * 8 := by
  have hb : b < cfg.bucketCount := by
    by_contra hge
    rw [rootOffset, if_pos (Nat.not_lt.mp hge)] at h
    cases h
  rw [rootOffset, if_neg (Nat.not_le.mpr hb)] at h
  obtain ⟨start, hstart, h⟩ := bind_ok h
  have hbank : bank ≤ 1 := by
    by_contra hgt
    rw [snapshotBankStart, if_pos (Nat.not_le.mp hgt)] at hstart
    cases hstart
  rw [hg.start bank hbank] at hstart
  obtain rfl := Except.ok.inj hstart
  obtain ⟨product, hmul, hadd⟩ := Option.bind_eq_some_iff.mp (okOr_ok h)
  obtain ⟨-, rfl⟩ := checkedMul_some hmul
  obtain ⟨-, rfl⟩ := checkedAdd_some hadd
  exact ⟨hbank, hb, rfl⟩

theorem Config.Accepted.geometry (ha : cfg.Accepted) :
    ∃ length size, Mapped.Geometry cfg.bucketCount length size := by
  obtain ⟨length, hlength, -⟩ := ha.heads
  obtain ⟨size, hg⟩ := Mapped.geometry_of_headsLength hlength
  exact ⟨length, size, hg⟩

/-- A root lies behind the header, the manifests and the runtime heads. -/
theorem rootOffset_behind (ha : cfg.Accepted) (h : rootOffset cfg bank b = .ok offset) :
    headsStart ≤ offset ∧ ∀ b' < cfg.bucketCount, offset ≠ headsStart + b' * 8 := by
  obtain ⟨length, size, hg⟩ := ha.geometry
  obtain ⟨-, -, rfl⟩ := rootOffset_ok hg h
  have hholds := hg.holds
  refine ⟨by omega, ?_⟩
  intro b' hb'
  omega

/-- Different buckets have different places. -/
theorem rootOffset_ne (ha : cfg.Accepted) {b' offset' : Nat} (h : rootOffset cfg bank b = .ok offset)
    (h' : rootOffset cfg bank b' = .ok offset') (hne : b' ≠ b) : offset' ≠ offset := by
  obtain ⟨length, size, hg⟩ := ha.geometry
  obtain ⟨-, -, rfl⟩ := rootOffset_ok hg h
  obtain ⟨-, -, rfl⟩ := rootOffset_ok hg h'
  omega

/-- The snapshot roots of a bank are as they were. -/
def SameRoots (cfg : Config) (bank : Nat) (f f' : HeadsFile) : Prop :=
  ∀ b, snapshotRoot cfg f' bank b = snapshotRoot cfg f bank b

theorem sameRoots_of_words {f f' : HeadsFile}
    (h : ∀ b offset, rootOffset cfg bank b = .ok offset → f'.words offset = f.words offset) :
    SameRoots cfg bank f f' := by
  intro b
  rw [snapshotRoot, snapshotRoot]
  cases hroot : rootOffset cfg bank b with
  | error e => rfl
  | ok offset => exact congrArg UInt64.toNat (h b offset hroot)

theorem HeadsKept.roots (ha : cfg.Accepted) {f f' : HeadsFile} (h : HeadsKept cfg f f') (bank : Nat) :
    SameRoots cfg bank f f' :=
  sameRoots_of_words fun _ offset hroot => h offset (rootOffset_behind ha hroot).2

end Roots

section Others
variable {α : Type}

/- What other calls may do between two steps of a checkpoint: anything to the runtime, but
   they have no access to the snapshot files, and in the heads file they write runtime heads
   only. -/
structure Others (cfg : Config) (w w₁ : Disk) : Prop where
  banks : w₁.banks = w.banks
  heads : HeadsKept cfg w.db.headsFile w₁.db.headsFile
  generation : w₁.db.checkpointGeneration = w.db.checkpointGeneration

theorem Others.refl (cfg : Config) (w : Disk) : Others cfg w w := ⟨rfl, fun _ _ => rfl, rfl⟩

/-- While `bank` is written, the first page of the heads file and the other bank stay. -/
structure Steady (bank : Nat) (w w₁ : Disk) : Prop where
  words : ∀ offset < headsStart, w₁.db.headsFile.words offset = w.db.headsFile.words offset
  banks : ∀ b, b ≠ bank → (w₁.banks b).store = (w.banks b).store ∧
    (w₁.banks b).present = (w.banks b).present
  present : (w₁.banks bank).present = (w.banks bank).present
  generation : w₁.db.checkpointGeneration = w.db.checkpointGeneration

theorem Steady.refl (bank : Nat) (w : Disk) : Steady bank w w :=
  ⟨fun _ _ => rfl, fun _ _ => ⟨rfl, rfl⟩, rfl, rfl⟩

theorem Steady.trans (h : Steady bank w w₁) (h' : Steady bank w₁ w₂) : Steady bank w w₂ where
  words := fun offset hlt => (h'.words offset hlt).trans (h.words offset hlt)
  banks := fun b hb => ⟨(h'.banks b hb).1.trans (h.banks b hb).1,
    (h'.banks b hb).2.trans (h.banks b hb).2⟩
  present := h'.present.trans h.present
  generation := h'.generation.trans h.generation

/-- Steps that leave the roots of the bank alone as well. -/
structure Rooted (cfg : Config) (bank : Nat) (w w₁ : Disk) : Prop where
  steady : Steady bank w w₁
  roots : SameRoots cfg bank w.db.headsFile w₁.db.headsFile

theorem Rooted.refl (cfg : Config) (bank : Nat) (w : Disk) : Rooted cfg bank w w :=
  ⟨.refl bank w, fun _ => rfl⟩

theorem Rooted.trans (h : Rooted cfg bank w w₁) (h' : Rooted cfg bank w₁ w₂) :
    Rooted cfg bank w w₂ := ⟨h.steady.trans h'.steady, fun b => (h'.roots b).trans (h.roots b)⟩

theorem rooted_setStore (cfg : Config) (bank : Nat) (w : Disk) (s : Store) :
    Rooted cfg bank w (w.setStore (.bank bank) s) := by
  refine ⟨⟨fun _ _ => rfl, fun b hb => ?_, ?_, rfl⟩, fun _ => rfl⟩
  · have hother : (w.setStore (.bank bank) s).banks b = w.banks b := Function.update_of_ne hb _ _
    rw [hother]
    exact ⟨rfl, rfl⟩
  · simp [Disk.setStore, Disk.setBank]

/-- Steps that leave the roots and the store of the bank alone. -/
structure Aside (cfg : Config) (bank : Nat) (w w₁ : Disk) : Prop where
  store : (w₁.banks bank).store = (w.banks bank).store
  rooted : Rooted cfg bank w w₁

theorem Aside.refl (cfg : Config) (bank : Nat) (w : Disk) : Aside cfg bank w w :=
  ⟨rfl, .refl cfg bank w⟩

theorem Aside.trans (h : Aside cfg bank w w₁) (h' : Aside cfg bank w₁ w₂) : Aside cfg bank w w₂ :=
  ⟨h'.store.trans h.store, h.rooted.trans h'.rooted⟩

theorem Others.aside (ha : cfg.Accepted) (h : Others cfg w w₁) (bank : Nat) : Aside cfg bank w w₁ := by
  refine ⟨by rw [h.banks], ⟨?_, ?_, ?_, h.generation⟩, h.heads.roots ha bank⟩
  · intro offset hlt
    exact h.heads offset fun b _ => by omega
  · intro b _
    rw [h.banks]
    exact ⟨rfl, rfl⟩
  · rw [h.banks]

/-- The files of the bank are worked on as in a sequential run. -/
theorem wlp_bank (ha : cfg.Accepted) {p : StoreM α} {Q : Except Error α → Store → Prop}
    (h : p.wp .any t Q (w.banks bank).store) :
    (onPlace (.bank bank) p).wlp (Others cfg) t
      (fun r w' => Q r (w'.banks bank).store ∧ Rooted cfg bank w w') w := by
  have hseq : p.wlp (fun s s₁ => s₁ = s) t Q (w.store (.bank bank)) := wlp_of_wp (fun _ _ h => h) h
  have hothers : ∀ w w₁, Others cfg w w₁ →
      w₁.store (.bank bank) = w.store (.bank bank) ∧ Rooted cfg bank w w₁ := by
    intro w w₁ hR
    have haside := hR.aside ha bank
    exact ⟨haside.store, haside.rooted⟩
  exact wlp_focus (fun w => w.store (.bank bank)) (fun s w => w.setStore (.bank bank) s)
    (fun s w => w.store_setStore (.bank bank) s) (Rooted.refl cfg bank) Rooted.trans
    hothers (fun w s => rooted_setStore cfg bank w s) hseq

/-- What is read from the runtime is whatever the others put there. -/
theorem wlp_runtime (ha : cfg.Accepted) (bank : Nat) {p : StoreM α} {Q : Except Error α → Store → Prop}
    (h : ∀ s, p.wlp (fun _ _ => True) t Q s) :
    (onPlace .runtime p).wlp (Others cfg) t
      (fun r w' => (∃ s, Q r s) ∧ Aside cfg bank w w') w := by
  refine wlp_mono (wlp_focus (F := Aside cfg bank) (fun w => w.store .runtime)
    (fun s w => w.setStore .runtime s) (fun s w => w.store_setStore .runtime s)
    (Aside.refl cfg bank) Aside.trans (fun w w₁ hR => ⟨trivial, hR.aside ha bank⟩)
    (fun w s => ⟨rfl, ⟨fun _ _ => rfl, fun _ _ => ⟨rfl, rfl⟩, rfl, rfl⟩, fun _ => rfl⟩)
    (h (w.store .runtime))) ?_
  intro r w' hr
  exact ⟨⟨_, hr.1⟩, hr.2⟩

theorem wlp_readRuntime (ha : cfg.Accepted) (bank : Nat) (p : StoreM α) :
    (onPlace .runtime p).wlp (Others cfg) t (fun _ w' => Aside cfg bank w w') w :=
  wlp_mono (wlp_runtime ha bank (Q := fun _ _ => True) fun _ => wlp_trivial _ fun _ _ => trivial)
    fun _ _ hr => hr.2

theorem wlp_loadHead (ha : cfg.Accepted) (bank : Nat) :
    (onDb (loadHead cfg b)).wlp (Others cfg) t (fun _ w' => Aside cfg bank w w') w := by
  intro w₁ hR x hx
  obtain ⟨y, hy, rfl⟩ := Option.map_eq_some_iff.mp hx
  obtain rfl := Option.some.inj hy
  exact hR.aside ha bank

end Others

section Copy
variable {nodes before cur : List Nat} {encoded : UInt64} {node : Node} {next root tail fuel : Nat}

/-- The bytes that are read are as many as were asked for, whatever they are. -/
theorem loadBytes_length {R : Store → Store → Prop} (n o : Nat) (s : Store) :
    (loadBytes n o).wlp R t (fun r _ => ∀ bytes, r = .ok bytes → bytes.length = n) s := by
  induction n generalizing o s with
  | zero =>
    intro bytes heq
    cases heq
    rfl
  | succ n ih =>
    refine Yields.seq (P := fun _ _ => True) (wlp_trivial _ fun _ _ _ _ => trivial) ?_
    intro byte s₁ _
    refine Yields.seq (P := fun bytes _ => bytes.length = n) (ih (o + 1) s₁) ?_
    intro bytes s₂ hlen
    apply yields_pure
    rw [List.length_cons, hlen]

theorem readBlobBytes_length {R : Store → Store → Prop} (offset length : Nat) (s : Store) :
    (readBlobBytes cfg offset length).wlp R t
      (fun r _ => ∀ bytes, r = .ok bytes → bytes.length = length) s := by
  refine Yields.seq (P := fun _ _ => True) (wlp_trivial _ fun _ _ _ _ => trivial) ?_
  intro _ s₁ _
  exact loadBytes_length length offset s₁

theorem wlp_readBlob (ha : cfg.Accepted) (bank offset length : Nat) :
    (onPlace .runtime (readBlobBytes cfg offset length)).Yields (Others cfg) t
      (fun bytes w' => bytes.length = length ∧ Aside cfg bank w w') w := by
  refine wlp_mono (wlp_runtime ha bank fun s => readBlobBytes_length offset length s) ?_
  intro r w' hr bytes heq
  obtain ⟨⟨s, hlen⟩, haside⟩ := hr
  exact ⟨hlen bytes heq, haside⟩

/-- A value that is torn between its reads is refused by its checksum, or it is a value. -/
theorem copyBlob_amid (ha : cfg.Accepted) (hc : Copies cfg (w.banks bank).store nodes none) :
    (copyBlob cfg m .runtime (.bank bank) encoded).Yields (Others cfg) t
      (fun x w' => Rooted cfg bank w w' ∧
        ∃ bytes, Moved cfg (w.banks bank).store (w'.banks bank).store nodes encoded bytes x.1 x.2) w := by
  rw [copyBlob]
  cases hb : isBlob encoded with
  | false =>
    rw [if_pos (by rfl)]
    exact yields_pure ⟨.refl cfg bank w, [], moved_inline hc hb⟩
  | true =>
    rw [if_neg (by decide)]
    apply yields_ofExcept
    intro _ hrequire
    have hm : cfg.mode = .map := by
      by_contra hm
      rw [requireBlobs, if_neg hm] at hrequire
      cases hrequire
    have hL := ha.ready.blob hm
    refine (wlp_readBlob ha bank _ _).seq ?_
    intro header w₁ hheader
    obtain ⟨hlen, haside⟩ := hheader
    generalize hdec : decodeBlobHeader header = p
    obtain ⟨length, expected⟩ := p
    apply yields_ofExcept
    intro valueOffset _
    refine (wlp_readBlob ha bank _ _).seq ?_
    intro bytes w₂ hbytes
    obtain ⟨rfl, haside'⟩ := hbytes
    have hbefore := haside.trans haside'
    by_cases hsum : expected ≠ blobChecksum bytes
    · rw [if_pos hsum]
      exact yields_throw _
    · rw [if_neg hsum]
      rw [not_not.mp hsum] at hdec
      obtain ⟨hlt, rfl⟩ := headerOf_of_decode hlen hdec
      apply yields_ofExcept
      intro _ _
      have hc₂ : Copies cfg (w₂.banks bank).store nodes none := by
        rw [hbefore.store]
        exact hc
      refine yields_seq (wlp_bank ha (allocateBlob_copies hL hc₂ fun hv => by cases hv)) ?_
      intro x w₃ hx
      obtain ⟨⟨hs₃, hout⟩, hroots₃⟩ := hx
      cases hout with
      | inr herror =>
        obtain ⟨e, heq, -⟩ := herror
        cases heq
      | inl hok =>
        obtain ⟨x', heq, hfresh, hc₃⟩ := hok
        obtain rfl := Except.ok.inj heq
        refine yields_seq (wlp_bank ha (writeFreshBlob_copies hL hc₃ hfresh.length_eq hlt)) ?_
        intro _ w₄ hwritten
        obtain ⟨⟨-, hs₄, hat, hc₄, hk⟩, hroots₄⟩ := hwritten
        apply yields_pure
        rw [hbefore.store] at hs₃ hfresh
        exact ⟨(hbefore.rooted.trans hroots₃).trans hroots₄, bytes,
          moved_blob hm hL hb hs₃ hfresh hs₄ hat hc₄ hk⟩

theorem copyNode_amid (ha : cfg.Accepted) (hc : Copies cfg (w.banks bank).store nodes none)
    (hn : next ≤ nodePointerMask.toNat) :
    (copyNode cfg m .runtime (.bank bank) node next).Yields (Others cfg) t
      (fun o w' => Rooted cfg bank w w' ∧
        ∃ bytes, CopiedNode cfg (w.banks bank).store (w'.banks bank).store nodes node bytes o next) w := by
  have hr := ha.ready
  rw [copyNode]
  refine (copyBlob_amid ha hc).seq ?_
  intro x w₁ hx
  obtain ⟨value, blob⟩ := x
  obtain ⟨hroots₁, bytes, hmove⟩ := hx
  refine yields_attempt (wlp_bank ha (allocateNode_copies hr.valid hmove.copies hmove.word hmove.uses
    fun hv => by cases hv)) ?_
  intro r w₂ hout
  obtain ⟨hout, hroots₂⟩ := hout
  cases hout with
  | inr herror =>
    obtain ⟨e, rfl, -⟩ := herror
    exact yields_cleanup _ e
  | inl hok =>
    obtain ⟨o, rfl, hnot, hs₂, hfresh, hc₂, hk⟩ := hok
    have ho : o ∈ nodes ++ [o] := List.mem_append_right _ (List.mem_singleton.mpr rfl)
    have hself : ((w₂.banks bank).store.slots o).next = 0 := by
      rw [hs₂, setSlot_slots_self]
      exact fresh_next
    have hset := (setPrivateNext_spec (v := .any) (t := t) hr.valid hc₂.body (hc₂.liveNode ho) hself hn
      (Q := fun r s => r = .ok () ∧ s = (w₂.banks bank).store.setSlot o (·.withNext next))).mpr ⟨rfl, rfl⟩
    refine yields_attempt (wlp_bank ha hset) ?_
    intro r w₃ hout
    obtain ⟨⟨rfl, hs₃⟩, hroots₃⟩ := hout
    apply yields_pure
    refine ⟨(hroots₁.trans hroots₂).trans hroots₃, bytes, ?_⟩
    rw [hs₃]
    exact hmove.copied hnot hs₂ hfresh hc₂ hk hn

/- The part of a chain that is copied already, behind the nodes `before` of the buckets that
   are done. -/
structure Underway (cfg : Config) (s : Store) (before : List Nat) (root tail : Nat)
    (cur : List Nat) : Prop where
  copies : Copies cfg s (before ++ cur) none
  chain : IsChain s.next root cur
  last : ∀ l p, cur = l ++ [p] → tail = p

/-- The nodes of the buckets that are done, and the roots, are as they were. -/
structure Beside (cfg : Config) (bank : Nat) (before : List Nat) (w w₁ : Disk) : Prop where
  keeps : Keeps cfg {o | o ∈ before} (w.banks bank).store (w₁.banks bank).store
  rooted : Rooted cfg bank w w₁

theorem Beside.trans (h : Beside cfg bank before w w₁) (h' : Beside cfg bank before w₁ w₂) :
    Beside cfg bank before w w₂ := ⟨h.keeps.trans h'.keeps, h.rooted.trans h'.rooted⟩

theorem Aside.beside (h : Aside cfg bank w w₁) (before : List Nat) : Beside cfg bank before w w₁ := by
  refine ⟨?_, h.rooted⟩
  rw [h.store]
  exact .refl cfg _ _

theorem underway_nil {s : Store} (h : Copies cfg s before none) : Underway cfg s before 0 0 [] where
  copies := by
    rw [List.append_nil]
    exact h
  chain := rfl
  last := by
    intro l p h
    simp at h

theorem keeps_setNext {s : Store} {p q : Nat} (hp : p ∉ before)
    (hentry : ∀ z, entryAt cfg (s.setSlot p (·.withNext q)) z = entryAt cfg s z) :
    Keeps cfg {o | o ∈ before} s (s.setSlot p (·.withNext q)) := by
  intro z hz
  refine ⟨?_, hentry z⟩
  exact setSlot_slots_ne s _ fun heq => hp (heq ▸ hz)

/-- The copied node is the first of its chain. -/
theorem underway_first {s s' : Store} {bytes : List UInt8} {o : Nat} (hv : cfg.Valid)
    (hcopied : CopiedNode cfg s s' (before ++ []) node bytes o 0) :
    Underway cfg s' before o o [o] := by
  have hcopies := hcopied.copies
  rw [List.append_nil] at hcopies
  have ho : o ≠ 0 := (hcopies.liveNode (by simp)).pos hv hcopies.body
  refine ⟨hcopies, ⟨rfl, ho, hcopied.next⟩, ?_⟩
  intro l p heq
  have hlast := congrArg List.getLast? heq
  simp at hlast
  exact hlast

/-- The copied node is linked behind the last one. -/
theorem Underway.behind {s s' : Store} {bytes : List UInt8} {o : Nat} (hv : cfg.Valid)
    (h : Underway cfg s before root tail cur) (hne : cur ≠ [])
    (hcopied : CopiedNode cfg s s' (before ++ cur) node bytes o 0) :
    (s'.slots tail).next = 0 ∧ tail ∈ cur ∧ o ≤ nodePointerMask.toNat ∧
      LiveNode cfg s' tail ∧ Underway cfg (s'.setSlot tail (·.withNext o)) before root o (cur ++ [o]) ∧
      ∀ z, entryAt cfg (s'.setSlot tail (·.withNext o)) z = entryAt cfg s' z := by
  obtain ⟨l, p, hcur⟩ : ∃ l p, cur = l ++ [p] := ⟨cur.dropLast, cur.getLast hne,
    (List.dropLast_append_getLast hne).symm⟩
  obtain rfl := h.last l p hcur
  have htail : tail ∈ cur := by simp [hcur]
  have hnot : o ∉ cur := fun hm => hcopied.fresh (List.mem_append_right _ hm)
  have hslots : ∀ z ∈ cur, s'.slots z = s.slots z := by
    intro z hz
    exact hcopied.others z fun heq => hnot (heq ▸ hz)
  have hchain : IsChain s'.next root (l ++ [tail]) := by
    rw [← hcur]
    exact h.chain.congr fun z hz => congrArg Slot.next (hslots z hz)
  have hend : (s'.slots tail).next = 0 := by
    have hsplit := hchain.split
    exact hsplit.2.2
  have hcopies := hcopied.copies
  have hlive : LiveNode cfg s' o := hcopies.liveNode (by simp)
  have hmask : o ≤ nodePointerMask.toNat := ((hlive.bounds hv hcopies.body).2.2).le
  have hne' : tail ≠ o := fun heq => hnot (heq ▸ htail)
  obtain ⟨hcopies', hchain', hentry⟩ := hcopies.linked hchain (hlive.pos hv hcopies.body)
    hcopied.next hne' hmask
  refine ⟨hend, htail, hmask, hcopies.liveNode (by simp [htail]), ⟨?_, ?_, ?_⟩, hentry⟩
  · rw [← List.append_assoc]
    exact hcopies'
  · rw [hcur]
    exact hchain'
  · intro l' p' heq
    have hlast := congrArg List.getLast? heq
    simp at hlast
    exact hlast

theorem appendNode_amid (ha : cfg.Accepted)
    (h : Underway cfg (w.banks bank).store before root tail cur) :
    (appendNode cfg m bank node root tail).Yields (Others cfg) t
      (fun x w' => Beside cfg bank before w w' ∧
        ∃ cur', Underway cfg (w'.banks bank).store before x.1 x.2 cur') w := by
  have hv := ha.ready.valid
  have hread : ∀ o ∈ cur, Readable cfg (w.banks bank).store o := fun o ho =>
    h.copies.readable hv (List.mem_append_right _ ho)
  rw [appendNode]
  refine yields_seq (wlp_bank ha (snapshotChainContains_spec hread h.chain fun hv => by cases hv)) ?_
  intro found w₁ hfound
  obtain ⟨⟨hs₁, -⟩, hroots₁⟩ := hfound
  have haside : Aside cfg bank w w₁ := ⟨hs₁, hroots₁⟩
  rw [← hs₁] at h
  cases found with
  | true =>
    rw [if_pos rfl]
    exact yields_pure ⟨haside.beside before, cur, h⟩
  | false =>
    rw [if_neg (by decide)]
    refine yields_attempt (copyNode_amid ha h.copies (Nat.zero_le _)) ?_
    intro r w₂ hr
    cases r with
    | error e => exact yields_cleanup _ e
    | ok o =>
      obtain ⟨hroots₂, bytes, hcopied⟩ := hr o rfl
      have hkeeps : Keeps cfg {o | o ∈ before} (w₁.banks bank).store (w₂.banks bank).store :=
        hcopied.keeps.mono fun z hz => List.mem_append_left _ hz
      have hbeside := (haside.beside before).trans ⟨hkeeps, hroots₂⟩
      dsimp only
      by_cases hzero : root = 0
      · have hnil : cur = [] := by
          cases cur with
          | nil => rfl
          | cons z zs =>
            obtain ⟨rfl, hne, -⟩ := h.chain
            exact absurd hzero hne
        rw [if_pos hzero]
        rw [hnil] at hcopied
        exact yields_pure ⟨hbeside, [o], underway_first hv hcopied⟩
      · have hne : cur ≠ [] := by
          intro hnil
          rw [hnil] at h
          exact hzero h.chain
        rw [if_neg hzero]
        obtain ⟨hend, htail, hmask, hlive, hunder, hentry⟩ := h.behind hv hne hcopied
        have hfree : tail ∉ before := fun hm =>
          (List.nodup_append.mp h.copies.nodup).2.2 tail hm tail htail rfl
        have hset := (setPrivateNext_spec (v := .any) (t := t) hv hcopied.copies.body hlive hend hmask
          (Q := fun r s => r = .ok () ∧
            s = (w₂.banks bank).store.setSlot tail (·.withNext o))).mpr ⟨rfl, rfl⟩
        refine yields_attempt (wlp_bank ha hset) ?_
        intro r w₃ hout
        obtain ⟨⟨rfl, hs₃⟩, hroots₃⟩ := hout
        have hlinked : Beside cfg bank before w₂ w₃ := by
          refine ⟨?_, hroots₃⟩
          rw [hs₃]
          exact keeps_setNext hfree hentry
        refine yields_pure ⟨hbeside.trans hlinked, cur ++ [o], ?_⟩
        rw [hs₃]
        exact hunder

/-- What one pass over a chain leaves in the bank: a copy, or nothing. -/
def Walked (cfg : Config) (s : Store) (before : List Nat) : Option Nat → Prop
  | none => Copies cfg s before none
  | some root => ∃ cur, Copies cfg s (before ++ cur) none ∧ IsChain s.next root cur

theorem releaseChain_amid (ha : cfg.Accepted) (h : Copies cfg (w.banks bank).store (before ++ cur) none)
    (hchain : IsChain (w.banks bank).store.next root cur) :
    (onPlace (.bank bank) (releaseSnapshotChain cfg m fuel root)).Yields (Others cfg) t
      (fun _ w' => Beside cfg bank before w w' ∧ Copies cfg (w'.banks bank).store before none) w := by
  refine wlp_mono (wlp_bank ha (releaseSnapshotChain_spec ha.ready h hchain fun hv => by cases hv)) ?_
  intro r w' hr _ _
  obtain ⟨⟨-, hs, hcopies⟩, hroots⟩ := hr
  refine ⟨⟨?_, hroots⟩, hcopies⟩
  intro z _
  rw [hs]
  exact ⟨rfl, rfl⟩

theorem copyChain_amid (ha : cfg.Accepted) {current : Nat}
    (h : Underway cfg (w.banks bank).store before root tail cur) :
    (copyChain cfg m bank fuel current root tail).Yields (Others cfg) t
      (fun x w' => Beside cfg bank before w w' ∧ Walked cfg (w'.banks bank).store before x) w := by
  induction fuel generalizing w current root tail cur with
  | zero => trivial
  | succ fuel ih =>
    have hhere : Beside cfg bank before w w := (Aside.refl cfg bank w).beside before
    rw [copyChain]
    by_cases hend : current = 0
    · rw [if_pos hend]
      exact yields_pure ⟨hhere, cur, h.copies, h.chain⟩
    · rw [if_neg hend]
      refine yields_attempt (wlp_readRuntime ha bank _) ?_
      intro r w₁ haside
      rw [← haside.store] at h
      cases r with
      | error e => exact yields_cleanup _ e
      | ok node =>
        refine (appendNode_amid ha h).seq ?_
        intro x w₂ hx
        obtain ⟨root', tail'⟩ := x
        obtain ⟨hbeside₂, cur', h₂⟩ := hx
        refine yields_seq (wlp_readRuntime ha bank _) ?_
        intro next w₃ haside₃
        rw [← haside₃.store] at h₂
        have hbefore := ((haside.beside before).trans hbeside₂).trans (haside₃.beside before)
        by_cases hmoved : next ≠ node.next
        · rw [if_pos hmoved]
          refine (releaseChain_amid ha h₂.copies h₂.chain).seq ?_
          intro _ w₄ hreleased
          exact yields_pure ⟨hbefore.trans hreleased.1, hreleased.2⟩
        · rw [if_neg hmoved]
          refine (ih h₂).mono ?_
          intro x w₄ hx
          exact ⟨hbefore.trans hx.1, hx.2⟩

theorem copyBucketToSnapshot_amid (ha : cfg.Accepted) {bucket : Nat}
    (h : Copies cfg (w.banks bank).store before none) :
    (copyBucketToSnapshot cfg m bank bucket fuel).Yields (Others cfg) t
      (fun root w' => Beside cfg bank before w w' ∧
        Walked cfg (w'.banks bank).store before (some root)) w := by
  induction fuel generalizing w with
  | zero => trivial
  | succ fuel ih =>
    have hagain : ∀ w₁, Beside cfg bank before w w₁ → Copies cfg (w₁.banks bank).store before none →
        (copyBucketToSnapshot cfg m bank bucket fuel).Yields (Others cfg) t
          (fun root w' => Beside cfg bank before w w' ∧
            Walked cfg (w'.banks bank).store before (some root)) w₁ := by
      intro w₁ hbeside h₁
      refine (ih h₁).mono ?_
      intro root w' hroot
      exact ⟨hbeside.trans hroot.1, hroot.2⟩
    rw [copyBucketToSnapshot]
    refine yields_seq (wlp_loadHead ha bank) ?_
    intro sourceRoot w₁ haside₁
    refine yields_seq (wlp_loadHead ha bank) ?_
    intro observed w₂ haside₂
    have haside := haside₁.trans haside₂
    rw [← haside.store] at h
    by_cases hmoved : observed ≠ sourceRoot
    · rw [if_pos hmoved]
      exact hagain w₂ (haside.beside before) h
    · rw [if_neg hmoved]
      refine (copyChain_amid ha (underway_nil h)).seq ?_
      intro x w₃ hx
      obtain ⟨hbeside₃, hpassed⟩ := hx
      have hbefore := (haside.beside before).trans hbeside₃
      cases x with
      | none => exact hagain w₃ hbefore hpassed
      | some root =>
        refine yields_seq (wlp_loadHead ha bank) ?_
        intro again w₄ haside₄
        have hbefore₄ := hbefore.trans (haside₄.beside before)
        rw [← haside₄.store] at hpassed
        by_cases hmoved' : again ≠ sourceRoot
        · obtain ⟨cur, hcopies, hchain⟩ := hpassed
          rw [if_pos hmoved']
          refine (releaseChain_amid ha hcopies hchain).seq ?_
          intro _ w₅ hreleased
          exact hagain w₅ (hbefore₄.trans hreleased.1) hreleased.2
        · rw [if_neg hmoved']
          exact yields_pure ⟨hbefore₄, hpassed⟩

end Copy

end FlorestaDb
