import FlorestaDb.BankOnly
import FlorestaDb.Lookup
import FlorestaDb.Ownership
import FlorestaDb.Saved
import FlorestaDb.Faults

/-! A checkpoint that runs alone: of every bucket it captures the newest record of each key, and
where the nodes of the runtime have room, those of the snapshot have room too. -/
namespace FlorestaDb
open Program Program.Prog Allocator Chain

variable {cfg : Config} {m : Machine} {t : Tid} {w w₁ w₂ : Disk} {bank b : Nat}

section Source
variable {s : Store} {heads : Nat → Nat} {chains : Nat → List Nat} {priv : Set Nat}
  {bare bareBlobs : Set Allocation} {o : Nat}

theorem Owned.readable (hv : cfg.Valid) (h : Owned cfg s heads chains priv bare bareBlobs)
    (ho : o ∈ chains b) : Readable cfg s o where
  pos := (h.liveNode ho).pos hv h.heap.body
  aligned := (h.liveNode ho).aligned
  range := (h.liveNode ho).range hv h.heap.body (Nat.le_refl _) (Nat.le_refl _)
  checksum := (h.heap.entry o (mem_nodesOf ho)).checksum

theorem Owned.decodes (hr : cfg.Ready) (h : Owned cfg s heads chains priv bare bareBlobs)
    (ho : o ∈ chains b) : Decodes cfg s (s.slots o).value where
  set_value := (h.heap.entry o (mem_nodesOf ho)).set_value
  blob := by
    intro hb
    obtain ⟨bytes, hlive⟩ := h.heap.liveBlob (mem_nodesOf ho) hb
    exact ⟨mode_of_live_blob hr h.heap.blobs hlive.live, bytes, hlive.blobOk hr h.heap.blobs⟩

end Source

section Steps
variable {α : Type} {p : StoreM α} {place : Place}

/-- A step on the files of one place. -/
theorem wlp_place {Q : Except Error α → Store → Prop} (h : p.wp .any t Q (w.store place)) :
    (onPlace place p).wlp Alone t (fun r w' => ∃ s', w' = w.setStore place s' ∧ Q r s') w := by
  apply wlp_alone
  apply (wp_onPlace place p _).mpr
  exact wp_mono h fun r s' hq => ⟨s', rfl, hq⟩

/-- A step that only reads them. -/
theorem wlp_peek {a : α} (h : p.wp .any t (fun r s' => r = .ok a ∧ s' = w.store place) (w.store place)) :
    (onPlace place p).wlp Alone t (fun r w' => r = .ok a ∧ w' = w) w := by
  refine wlp_mono (wlp_place h) ?_
  intro r w' hr
  obtain ⟨s', rfl, hr, rfl⟩ := hr
  exact ⟨hr, w.setStore_self place⟩

end Steps

section Capture
variable {before cur : List Nat} {root tail fuel : Nat} {seen : List (Key × List UInt8)} {s : Store}
  {fits : Prop}

/-- A system call failed, or there is no room where none is promised. -/
def Declined (fits : Prop) (e : Error) : Prop := e = .io ∨ e.isCapacity = true ∧ ¬fits

/- The copied part of a chain, when nothing was given back: it says what the newest records of
   the nodes that were seen say, and in set mode nothing behind their keys. -/
structure Tracking (cfg : Config) (s : Store) (before : List Nat) (root tail : Nat) (cur : List Nat)
    (seen : List (Key × List UInt8)) : Prop where
  underway : Underway cfg s before root tail cur
  stocked : Stocked cfg s
  content : cur.map (entryAt cfg s) = Buckets.firsts seen
  blank : cfg.mode = .set → ∀ o ∈ cur, (s.slots o).value = 0

/-- There is room for one more node. -/
def OneMore (cfg : Config) (s : Store) : Prop :=
  ∃ rest, Packs cfg.bodyLayout nodeAlignment (lengths s.body ++ nodeSize :: rest)

theorem tracking_nil (h : Copies cfg s before none) (hs : Stocked cfg s) :
    Tracking cfg s before 0 0 [] [] := ⟨underway_nil h, hs, rfl, by simp⟩

theorem Tracking.seen_key (h : Tracking cfg s before root tail cur seen) {key : Key} :
    (∃ o ∈ cur, (s.slots o).key = key) ↔ ∃ e ∈ seen, e.1 = key := by
  rw [← Buckets.mem_firsts_key, ← h.content]
  simp [entryAt]

/-- What a copied node adds to what was seen. -/
theorem Tracking.grown (h : Tracking cfg s before root tail cur seen) {s' : Store} {root' tail' o : Nat}
    {e : Key × List UInt8} (hnew : ¬∃ x ∈ seen, x.1 = e.1)
    (hunder : Underway cfg s' before root' tail' (cur ++ [o])) (hstocked : Stocked cfg s')
    (hold : ∀ z ∈ cur, (s'.slots z).value = (s.slots z).value ∧ entryAt cfg s' z = entryAt cfg s z)
    (hblank : cfg.mode = .set → (s'.slots o).value = 0) (hentry : entryAt cfg s' o = e) :
    Tracking cfg s' before root' tail' (cur ++ [o]) (seen ++ [e]) := by
  refine ⟨hunder, hstocked, ?_, ?_⟩
  · rw [Buckets.firsts_concat, if_neg hnew, List.map_append, List.map_congr_left fun z hz => (hold z hz).2,
      h.content]
    simp [hentry]
  · intro hset z hz
    cases List.mem_append.mp hz with
    | inl hin => exact (hold z hin).1.trans (h.blank hset z hin)
    | inr hlast =>
      rw [List.mem_singleton.mp hlast]
      exact hblank hset

theorem stocked_setNext {o next : Nat} (h : Stocked cfg s) :
    Stocked cfg (s.setSlot o (·.withNext next)) := ⟨h.body, h.blobs⟩

theorem Tracking.refused (h : Tracking cfg s before root tail cur seen) (hv : cfg.Valid) {node : Node}
    {length : Nat} {e : Error} (hshort : Shortfall cfg .any s node length e)
    (hinline : isBlob node.value = false) (hroom : OneMore cfg s) : e = .io := by
  cases hshort with
  | blob hb _ =>
    rw [hinline] at hb
    cases hb
  | body refused =>
    obtain ⟨pages, page, hfill⟩ := h.stocked.body
    obtain ⟨rest, hpacks⟩ := hroom
    exact (refused_io hv.bodyLayout_ok (by decide) hfill hpacks (by decide) refused).2

theorem Tracking.declined (h : Tracking cfg s before root tail cur seen) (hv : cfg.Valid) {node : Node}
    {length : Nat} {e : Error} (hshort : Shortfall cfg .any s node length e)
    (hroom : fits → isBlob node.value = false ∧ OneMore cfg s) : Declined fits e := by
  by_cases hfits : fits
  · obtain ⟨hinline, hmore⟩ := hroom hfits
    exact Or.inl (h.refused hv hshort hinline hmore)
  · cases hshort.refusal with
    | inl hcapacity => exact Or.inr ⟨hcapacity, hfits⟩
    | inr hio => exact Or.inl hio.2

/-- The partial chain can be given back, so the error is the one the copy was abandoned for. -/
theorem abandonChain_alone {α : Type} {E : Error → Prop} {P : α → Disk → Prop} {e : Error}
    (hr : cfg.Ready) (hcopies : Copies cfg (w.banks bank).store (before ++ cur) none)
    (hchain : IsChain (w.banks bank).store.next root cur) (he : E e) :
    (abandonChain cfg m bank root e : DiskM α).Ends Alone t E P w := by
  rw [abandonChain]
  refine ends_seq (wlp_place (releaseSnapshotChain_spec hr hcopies hchain fun hv => by cases hv)) ?_ ?_
  · intro e' w' hreleased
    obtain ⟨s', -, hok, -⟩ := hreleased
    cases hok
  · exact fun _ _ _ => ends_throw he

theorem appendNode_alone (ha : cfg.Accepted) {node : Node}
    (h : Tracking cfg (w.banks bank).store before root tail cur seen)
    (hdec : Decodes cfg w.db.store node.value)
    (hroom : fits → isBlob node.value = false ∧ OneMore cfg (w.banks bank).store) :
    (appendNode cfg m bank node root tail).Ends Alone t (Declined fits)
      (fun x w' => ∃ s' cur', w' = w.setStore (.bank bank) s' ∧
        Keeps cfg {z | z ∈ before} (w.banks bank).store s' ∧ cur'.length ≤ cur.length + 1 ∧
        Tracking cfg s' before x.1 x.2 cur'
          (seen ++ [(node.key, valueAt cfg w.db.store node.value)])) w := by
  have hv := ha.ready.valid
  have hunder := h.underway
  have hread : ∀ o ∈ cur, Readable cfg (w.banks bank).store o := fun o ho =>
    hunder.copies.readable hv (List.mem_append_right _ ho)
  have hsearch : (snapshotChainContains cfg node.key m.fuel root).wp .any t
      (fun r s' => r = .ok (decide (∃ o ∈ cur, ((w.banks bank).store.slots o).key = node.key)) ∧
        s' = w.store (.bank bank)) (w.store (.bank bank)) :=
    wp_mono (snapshotChainContains_spec hread hunder.chain fun hv => by cases hv)
      fun r s' hr => ⟨hr.2, hr.1⟩
  rw [appendNode]
  refine ends_seq (wlp_peek hsearch) (fun e w' he => by cases he.1) ?_
  intro found w' hfound
  obtain ⟨hfound, rfl⟩ := hfound
  obtain rfl := Except.ok.inj hfound
  by_cases hseen : ∃ e ∈ seen, e.1 = node.key
  · have hin : ∃ o ∈ cur, ((w'.banks bank).store.slots o).key = node.key := h.seen_key.mpr hseen
    rw [if_pos (decide_eq_true hin)]
    refine ends_pure ⟨(w'.banks bank).store, cur, (w'.setStore_self (.bank bank)).symm, .refl cfg _ _,
      Nat.le_succ _, hunder, h.stocked, ?_, h.blank⟩
    rw [Buckets.firsts_concat, if_pos hseen]
    exact h.content
  · have hout : ¬∃ o ∈ cur, ((w'.banks bank).store.slots o).key = node.key :=
      fun hin => hseen (h.seen_key.mp hin)
    rw [if_neg (by simpa using hout)]
    refine ends_attempt (wlp_alone (copyNode_spec (v := .any) (w := w') (p := .runtime) (q := .bank bank)
      ha.ready (by simp) hdec hunder.copies (Nat.zero_le _) fun hv => by cases hv)) ?_
    intro r w₁ hr
    obtain ⟨s₁, rfl, hr⟩ := hr
    cases hr with
    | inr herror =>
      obtain ⟨e, rfl, hshort, hcopies, hkeeps⟩ := herror
      have hhere : ((w'.setStore (.bank bank) s₁).banks bank).store = s₁ := w'.store_setStore (.bank bank) s₁
      have hchain : IsChain s₁.next root cur := hunder.chain.congr fun z hz =>
        congrArg Slot.next (hkeeps z (List.mem_append_right _ hz)).1
      exact abandonChain_alone ha.ready (hhere.symm ▸ hcopies) (hhere.symm ▸ hchain)
        (h.declined hv hshort hroom)
    | inl hok =>
      obtain ⟨o, rfl, hcopied⟩ := hok
      have hnew : ¬∃ x ∈ seen, x.1 = (node.key, valueAt cfg w'.db.store node.value).1 := hseen
      have hentry : entryAt cfg s₁ o = (node.key, valueAt cfg w'.db.store node.value) :=
        hcopied.entry w'.db.store fun _ => rfl
      have hold : ∀ z ∈ cur, (s₁.slots z).value = ((w'.banks bank).store.slots z).value ∧
          entryAt cfg s₁ z = entryAt cfg (w'.banks bank).store z := by
        intro z hz
        obtain ⟨hslot, hsame⟩ := hcopied.keeps z (List.mem_append_right _ hz)
        exact ⟨congrArg Slot.value hslot, hsame⟩
      have hblank : cfg.mode = .set → (s₁.slots o).value = 0 := by
        intro hset
        have hzero := hdec.set_value hset
        have hinline : isBlob node.value = false := by
          rw [hzero]
          rfl
        exact (hcopied.inline hinline).1.trans hzero
      have hkeeps : Keeps cfg {z | z ∈ before} (w'.banks bank).store s₁ :=
        hcopied.keeps.mono fun z hz => List.mem_append_left _ hz
      have hstocked := hcopied.stocked h.stocked
      dsimp only
      by_cases hzero : root = 0
      · have hnil : cur = [] := by
          cases cur with
          | nil => rfl
          | cons z zs =>
            obtain ⟨rfl, hne, -⟩ := hunder.chain
            exact absurd hzero hne
        subst hnil
        rw [if_pos hzero]
        have hfirst := underway_first hv hcopied
        exact ends_pure ⟨s₁, [o], rfl, hkeeps, Nat.le_refl _, h.grown hnew hfirst hstocked hold hblank hentry⟩
      · have hne : cur ≠ [] := by
          intro hnil
          rw [hnil] at hunder
          exact hzero hunder.chain
        rw [if_neg hzero]
        obtain ⟨hend, htail, hmask, hlive, hunder', hsame⟩ := hunder.behind hv hne hcopied
        have hfree : tail ∉ before := fun hm =>
          (List.nodup_append.mp hunder.copies.nodup).2.2 tail hm tail htail rfl
        have hset := (setPrivateNext_spec (v := .any) (t := t) hv hcopied.copies.body hlive hend hmask
          (Q := fun r s => r = .ok () ∧ s = s₁.setSlot tail (·.withNext o))).mpr ⟨rfl, rfl⟩
        have hhere : (w'.setStore (.bank bank) s₁).store (.bank bank) = s₁ := w'.store_setStore _ s₁
        rw [← hhere] at hset
        refine ends_attempt (wlp_place hset) ?_
        intro r w₂ hr
        obtain ⟨s₂, rfl, rfl, rfl⟩ := hr
        rw [hhere, w'.setStore_setStore]
        refine ends_pure ⟨_, cur ++ [o], rfl, hkeeps.trans (keeps_setNext hfree hsame), by simp, ?_⟩
        have hvalue := fun z => (setNext_said s₁ tail o z).2
        refine h.grown hnew hunder' (stocked_setNext hstocked) (fun z hz => ?_) ?_ ?_
        · rw [hvalue z, hsame z]
          exact hold z hz
        · rw [hvalue o]
          exact hblank
        · rw [hsame o, hentry]

/-- The nodes of a bank take up a node each. -/
theorem Copies.lengths_body {nodes : List Nat} (h : Copies cfg s nodes none) :
    lengths s.body = List.replicate nodes.length nodeSize := by
  have hconst : Allocation.length ∘ nodeAlloc cfg = fun _ => nodeSize := rfl
  rw [lengths, h.live, List.map_map, hconst, List.map_const']

theorem Tracking.oneMore (h : Tracking cfg s before root tail cur seen) {count : Nat}
    (hpacks : Packs cfg.bodyLayout nodeAlignment (List.replicate count nodeSize))
    (hcount : before.length + cur.length < count) : OneMore cfg s := by
  refine ⟨List.replicate (count - (before.length + cur.length) - 1) nodeSize, ?_⟩
  have hsplit : count = before.length + cur.length + (count - (before.length + cur.length) - 1 + 1) := by
    omega
  rw [hsplit, List.replicate_add, List.replicate_succ] at hpacks
  rw [h.underway.copies.lengths_body, List.length_append]
  exact hpacks

/-- The nodes `l` have inline values, and `count` nodes have room. -/
structure Roomy (cfg : Config) (s : Store) (l : List Nat) (count : Nat) : Prop where
  inline : ∀ o ∈ l, isBlob (s.slots o).value = false
  packs : Packs cfg.bodyLayout nodeAlignment (List.replicate count nodeSize)

theorem copyChain_alone (ha : cfg.Accepted) {l : List Nat} {current count : Nat}
    (h : Tracking cfg (w.banks bank).store before root tail cur seen)
    (hchain : IsChain w.db.store.next current l)
    (hread : ∀ o ∈ l, Readable cfg w.db.store o ∧ Decodes cfg w.db.store (w.db.store.slots o).value)
    (hroom : fits → Roomy cfg w.db.store l count)
    (hcount : before.length + cur.length + l.length ≤ count) :
    (copyChain cfg m bank fuel current root tail).Ends Alone t (Declined fits)
      (fun x w' => ∃ s' root' tail' cur', x = some root' ∧ w' = w.setStore (.bank bank) s' ∧
        Keeps cfg {z | z ∈ before} (w.banks bank).store s' ∧ cur'.length ≤ cur.length + l.length ∧
        Tracking cfg s' before root' tail' cur' (seen ++ l.map (entryAt cfg w.db.store))) w := by
  induction fuel generalizing w current root tail cur seen l with
  | zero => trivial
  | succ fuel ih =>
    rw [copyChain]
    cases l with
    | nil =>
      have hend : current = 0 := hchain
      rw [if_pos hend]
      refine ends_pure ⟨_, root, tail, cur, rfl, (w.setStore_self (.bank bank)).symm, .refl cfg _ _, ?_, ?_⟩
      · exact Nat.le_refl _
      · rw [List.map_nil, List.append_nil]
        exact h
    | cons o l =>
      obtain ⟨rfl, hne, hrest⟩ := hchain
      obtain ⟨hreadable, hdec⟩ := hread current List.mem_cons_self
      rw [if_neg hne]
      have hnode : (readNode cfg current).wp .any t
          (fun r s' => r = .ok (nodeAt w.db.store current) ∧ s' = w.store .runtime) (w.store .runtime) :=
        (readNode_readable hreadable).mpr ⟨rfl, rfl⟩
      refine ends_attempt (wlp_peek hnode) ?_
      intro r w' hr
      obtain ⟨rfl, rfl⟩ := hr
      dsimp only
      rw [List.length_cons] at hcount
      refine (appendNode_alone ha h hdec ?_).seq ?_
      · intro hfits
        have hroomy := hroom hfits
        exact ⟨hroomy.inline current List.mem_cons_self, h.oneMore hroomy.packs (by omega)⟩
      intro x w₁ hx
      obtain ⟨s₁, cur₁, rfl, hkeeps₁, hlen₁, h₁⟩ := hx
      have hnext : (readNext cfg current).wp .any t
          (fun r s' => r = .ok (nodeAt w'.db.store current).next ∧
            s' = (w'.setStore (.bank bank) s₁).store .runtime)
          ((w'.setStore (.bank bank) s₁).store .runtime) :=
        (readNext_readable hreadable).mpr ⟨rfl, rfl⟩
      refine ends_seq (wlp_peek hnext) (fun e _ he => by cases he.1) ?_
      intro next w₂ hnext
      obtain ⟨hnext, rfl⟩ := hnext
      obtain rfl := Except.ok.inj hnext
      rw [if_neg (not_not.mpr rfl)]
      have hhere : ((w'.setStore (.bank bank) s₁).banks bank).store = s₁ :=
        w'.store_setStore (.bank bank) s₁
      have h₁' : Tracking cfg ((w'.setStore (.bank bank) s₁).banks bank).store before x.1 x.2 cur₁
          (seen ++ [entryAt cfg w'.db.store current]) := by
        rw [hhere]
        exact h₁
      refine (ih h₁' hrest (fun o ho => hread o (List.mem_cons_of_mem _ ho)) ?_ (by omega)).mono ?_
      · intro hfits
        have hroomy := hroom hfits
        exact ⟨fun o ho => hroomy.inline o (List.mem_cons_of_mem _ ho), hroomy.packs⟩
      intro x' w₂ hx'
      obtain ⟨s₂, root', tail', cur₂, rfl, rfl, hkeeps₂, hlen₂, h₂⟩ := hx'
      rw [hhere] at hkeeps₂
      rw [w'.setStore_setStore]
      refine ⟨s₂, root', tail', cur₂, rfl, rfl, hkeeps₁.trans hkeeps₂, ?_, ?_⟩
      · rw [List.length_cons]
        omega
      · rw [List.map_cons, List.append_cons]
        exact h₂

theorem copyBucketToSnapshot_alone (ha : cfg.Accepted) {chains : Nat → List Nat} {count : Nat}
    (howned : Owned cfg w.db.store w.db.runtimeHeads chains ∅ ∅ ∅) (hb : b < cfg.bucketCount)
    (hcopies : Copies cfg (w.banks bank).store before none) (hstocked : Stocked cfg (w.banks bank).store)
    (hroom : fits → Roomy cfg w.db.store (chains b) count)
    (hcount : before.length + (chains b).length ≤ count) :
    (copyBucketToSnapshot cfg m bank b fuel).Ends Alone t (Declined fits)
      (fun root w' => ∃ s' tail cur, w' = w.setStore (.bank bank) s' ∧
        Keeps cfg {z | z ∈ before} (w.banks bank).store s' ∧ cur.length ≤ (chains b).length ∧
        Tracking cfg s' before root tail cur (content cfg w.db.store chains b)) w := by
  have hr := ha.ready
  have hhead : ∀ w' : Disk, w'.db = w.db → (onDb (loadHead cfg b)).wlp Alone t
      (fun r w'' => r = .ok (w.db.runtimeHeads b) ∧ w'' = w') w' := by
    intro w' hdb
    apply wlp_alone
    rw [wp_onDb, loadHead_spec hb, hdb]
    exact ⟨rfl, by rw [← hdb]⟩
  cases fuel with
  | zero => trivial
  | succ fuel =>
    rw [copyBucketToSnapshot]
    refine ends_seq (hhead w rfl) (fun e _ he => by cases he.1) ?_
    intro sourceRoot w' hroot
    obtain ⟨hroot, rfl⟩ := hroot
    obtain rfl := Except.ok.inj hroot
    refine ends_seq (hhead w' rfl) (fun e _ he => by cases he.1) ?_
    intro observed w'' hobserved
    obtain ⟨hobserved, rfl⟩ := hobserved
    obtain rfl := Except.ok.inj hobserved
    rw [if_neg (not_not.mpr rfl)]
    refine (copyChain_alone ha (tracking_nil hcopies hstocked) (howned.chain b)
      (fun o ho => ⟨howned.readable hr.valid ho, howned.decodes hr ho⟩) hroom ?_).seq ?_
    · rw [List.length_nil]
      omega
    intro x w₁ hx
    obtain ⟨s', root', tail', cur', rfl, rfl, hkeeps, hlen, h⟩ := hx
    dsimp only
    refine ends_seq (hhead _ rfl) (fun e _ he => by cases he.1) ?_
    intro again w₂ hagain
    obtain ⟨hagain, rfl⟩ := hagain
    obtain rfl := Except.ok.inj hagain
    rw [if_neg (not_not.mpr rfl)]
    rw [List.length_nil, Nat.zero_add] at hlen
    exact ends_pure ⟨s', tail', cur', rfl, hkeeps, hlen, h⟩

end Capture

section Roots
variable {root : Nat} {E : Error → Prop} {α : Type}

theorem others_alone (w w₁ : Disk) (h : Alone w w₁) : Others cfg w w₁ := by
  obtain rfl : w₁ = w := h
  exact .refl cfg w₁

/-- What is known of a call, together with what all of its steps keep. -/
theorem confined_ends {p : DiskM α} {P : α → Disk → Prop} (h : p.Ends Alone t E P w)
    (hp : Within (BankOnly cfg bank) p) :
    p.Ends Alone t E (fun a w' => P a w' ∧ BankOnly cfg bank w w') w := by
  refine wlp_mono (wlp_and h (wlp_within (BankOnly.refl cfg bank) BankOnly.trans hp)) ?_
  intro r w' hr
  cases r with
  | ok a => exact hr
  | error e => exact hr.1

theorem casRoot_alone (ha : cfg.Accepted) (hbank : bank ≤ 1) (hb : b < cfg.bucketCount)
    (hroot : root < 2 ^ 64) (hzero : snapshotRoot cfg w.db.headsFile bank b = 0) :
    (casRoot cfg bank b root).Ends Alone t E
      (fun won w' => (won = true ∧ RootSet cfg bank b root w w') ∧ BankOnly cfg bank w w') w := by
  obtain ⟨offset, hoffset⟩ := exists_rootOffset ha hbank hb
  have hword : w.db.headsFile.words offset = 0 := by
    rw [snapshotRoot, hoffset] at hzero
    exact UInt64.toNat_inj.mp hzero
  have hwins : (casRoot cfg bank b root).wlp Alone t (fun r _ => r = .ok true) w := by
    apply wlp_alone
    rw [casRoot, hoffset]
    exact (wp_atomic _).mpr ⟨_, _, if_pos hword, rfl⟩
  refine confined_ends ?_ (BankOnly.admits.casRoot b root)
  refine wlp_mono (wlp_and hwins (wlp_rely others_alone (casRoot_amid ha hroot))) ?_
  intro r w' hr
  obtain ⟨rfl, hset⟩ := hr
  exact ⟨rfl, hset true rfl rfl⟩

theorem snapshotRoot_clear {offset : Nat} (h : snapshotRoot cfg w.db.headsFile bank b = 0 ∨
    rootOffset cfg bank b = .ok offset) : snapshotRoot cfg (w.poke offset 0).db.headsFile bank b = 0 := by
  rw [snapshotRoot] at h ⊢
  cases hroot : rootOffset cfg bank b with
  | error e => rfl
  | ok o =>
    rw [hroot] at h
    by_cases ho : o = offset
    · subst ho
      simp [Disk.poke, HeadsFile.write]
    · cases h with
      | inl hzero => simpa [Disk.poke, HeadsFile.write, Function.update_of_ne ho] using hzero
      | inr heq => exact absurd (Except.ok.inj heq) ho

theorem clearBuckets_alone (ha : cfg.Accepted) (hbank : bank ≤ 1) {done buckets : List Nat}
    (hlt : ∀ b ∈ buckets, b < cfg.bucketCount)
    (hdone : ∀ b ∈ done, snapshotRoot cfg w.db.headsFile bank b = 0) :
    (clearBuckets cfg bank buckets).Ends Alone t E
      (fun _ w' => ∀ b ∈ done ++ buckets, snapshotRoot cfg w'.db.headsFile bank b = 0) w := by
  induction buckets generalizing w done with
  | nil =>
    rw [clearBuckets, List.append_nil]
    exact ends_pure hdone
  | cons b rest ih =>
    obtain ⟨offset, hoffset⟩ := exists_rootOffset ha hbank (hlt b List.mem_cons_self)
    have hstep : (casReplace offset 0).wlp Alone t (fun r w' => r = .ok () ∧ w' = w.poke offset 0) w :=
      wlp_alone ((wp_atomic _).mpr ⟨_, _, rfl, rfl, rfl⟩)
    rw [clearBuckets, hoffset, List.append_cons]
    refine ends_ofExcept (fun e he => by cases he) fun _ heq => ?_
    obtain rfl := Except.ok.inj heq
    refine ends_seq hstep (fun e _ he => by cases he.1) ?_
    intro _ w' hw'
    obtain ⟨-, rfl⟩ := hw'
    apply ih fun b' hb' => hlt b' (List.mem_cons_of_mem _ hb')
    intro b' hb'
    cases List.mem_append.mp hb' with
    | inl hin => exact snapshotRoot_clear (Or.inl (hdone b' hin))
    | inr hlast =>
      rw [List.mem_singleton.mp hlast]
      exact snapshotRoot_clear (Or.inr hoffset)

theorem createSnapshot_alone (ha : cfg.Accepted) : (createSnapshot cfg bank).Ends Alone t OfSystem
    (fun _ w' => w' = w.setBank bank fun _ => ⟨Store.created, true, true, true⟩) w := by
  rw [createSnapshot, ha.store]
  intro failed
  cases failed with
  | true => exact rfl
  | false => exact wlp_alone ((wp_atomic _).mpr ⟨_, _, rfl, rfl⟩)

end Roots

section Buckets
variable {chains schains : Nat → List Nat} {done rest : List Nat} {root count : Nat} {fits : Prop}

/-- The buckets that are done hold the newest records of the runtime; the others have no root. -/
structure Mirrored (cfg : Config) (bank : Nat) (done : List Nat) (schains chains : Nat → List Nat)
    (w : Disk) : Prop where
  captured : Captured cfg w bank done schains
  stocked : Stocked cfg (w.banks bank).store
  newest : ∀ b ∈ done, content cfg (w.banks bank).store schains b =
    Buckets.firsts (content cfg w.db.store chains b)
  blank : cfg.mode = .set → ∀ o ∈ done.flatMap schains, ((w.banks bank).store.slots o).value = 0
  unset : ∀ b < cfg.bucketCount, b ∉ done → snapshotRoot cfg w.db.headsFile bank b = 0

theorem Mirrored.push {s' : Store} {cur : List Nat} {tail : Nat} (h : Mirrored cfg bank done schains chains w)
    (hb : b ∉ done) (hkeeps : Keeps cfg {z | z ∈ done.flatMap schains} (w.banks bank).store s')
    (htrack : Tracking cfg s' (done.flatMap schains) root tail cur (content cfg w.db.store chains b))
    (hset : RootSet cfg bank b root (w.setStore (.bank bank) s') w₂) (hdb : w₂.db.store = w.db.store) :
    Mirrored cfg bank (done ++ [b]) (Function.update schains b cur) chains w₂ := by
  have hhere : ((w.setStore (.bank bank) s').banks bank).store = s' := w.store_setStore (.bank bank) s'
  have hbeside : Beside cfg bank (done.flatMap schains) w (w.setStore (.bank bank) s') :=
    ⟨hhere.symm ▸ hkeeps, rooted_setStore cfg bank w s'⟩
  have hcaptured := h.captured.push hb hbeside (hhere.symm ▸ htrack.underway.copies)
    (hhere.symm ▸ htrack.underway.chain) hset
  have hstore : (w₂.banks bank).store = s' := hset.store.trans hhere
  refine ⟨hcaptured, hstore ▸ htrack.stocked, ?_, ?_, ?_⟩
  · intro b' hb'
    rw [hstore, hdb]
    cases List.mem_append.mp hb' with
    | inl hin =>
      have hne : b' ≠ b := fun heq => hb (heq ▸ hin)
      rw [← h.newest b' hin, content, content, Function.update_of_ne hne]
      exact List.map_congr_left fun o ho => (hkeeps o (List.mem_flatMap.mpr ⟨b', hin, ho⟩)).2
    | inr hhere' =>
      rw [List.mem_singleton.mp hhere', content, Function.update_self]
      exact htrack.content
  · intro hmode o ho
    rw [flatMap_push hb] at ho
    rw [hstore]
    cases List.mem_append.mp ho with
    | inl hin => exact (congrArg Slot.value (hkeeps o hin).1).trans (h.blank hmode o hin)
    | inr hcur => exact htrack.blank hmode o hcur
  · intro b' hlt hnot
    have hne : b' ≠ b := fun heq => hnot (List.mem_append_right _ (List.mem_singleton.mpr heq))
    exact (hset.others b' hne).trans (h.unset b' hlt fun hin => hnot (List.mem_append_left _ hin))

/-- A bank with the newest records of the runtime passes the validator. -/
theorem Mirrored.validated (ha : cfg.Accepted) (hbank : bank ≤ 1)
    (howned : Owned cfg w.db.store w.db.runtimeHeads chains ∅ ∅ ∅)
    (h : Mirrored cfg bank (List.range cfg.bucketCount) schains chains w) : Validated cfg w bank schains := by
  have hr := ha.ready
  have hcopies := h.captured.copies
  refine ⟨fun b hb => exists_rootOffset ha hbank (List.mem_range.mp hb), ?_⟩
  intro b hb
  have hcontent := h.newest b hb
  refine ⟨h.captured.chain b hb, ?_, ?_, ?_⟩
  · intro o ho
    have hmem : o ∈ (List.range cfg.bucketCount).flatMap schains := List.mem_flatMap.mpr ⟨b, hb, ho⟩
    obtain ⟨hfits, hblock⟩ := hcopies.body.pages.fits _ (hcopies.mem_live hmem)
    have hplaced := allocationFor_fits hr.valid.bodyLayout_ok hfits
      (Nat.lt_of_lt_of_le hblock hcopies.body.pages.pages_le)
    -- its key is that of a node of the runtime chain
    have hsource : ∃ e ∈ content cfg w.db.store chains b, e.1 = ((w.banks bank).store.slots o).key := by
      rw [← Buckets.mem_firsts_key, ← hcontent]
      exact ⟨entryAt cfg (w.banks bank).store o, List.mem_map.mpr ⟨o, ho, rfl⟩, rfl⟩
    obtain ⟨e, he, hkey⟩ := hsource
    obtain ⟨x, hx, rfl⟩ := List.mem_map.mp he
    have hhome : bucketOf cfg ((w.banks bank).store.slots o).key = b := by
      rw [← hkey]
      exact howned.home b x hx
    exact ⟨hcopies.readable hr.valid hmem, ⟨_, hplaced⟩, hhome,
      hcopies.decodes hr hmem fun hmode => h.blank hmode o hmem⟩
  · have hdistinct := Buckets.firsts_distinct (content cfg w.db.store chains b)
    rw [← hcontent, content, List.pairwise_map] at hdistinct
    exact hdistinct
  · have hlength := congrArg List.length hcontent
    have hle := Buckets.firsts_length_le (content cfg w.db.store chains b)
    have hchain := howned.chain_length hr.valid b
    have hsource : (content cfg w.db.store chains b).length = (chains b).length := List.length_map _
    rw [content, List.length_map] at hlength
    rw [maximumNodes]
    omega

theorem copyBuckets_alone (ha : cfg.Accepted)
    (howned : Owned cfg w.db.store w.db.runtimeHeads chains ∅ ∅ ∅)
    (hbank : bank ≤ 1) (h : Mirrored cfg bank done schains chains w) (hnd : (done ++ rest).Nodup)
    (hlt : ∀ b ∈ rest, b < cfg.bucketCount)
    (hroom : fits → Roomy cfg w.db.store (rest.flatMap chains) count)
    (hcount : (done.flatMap schains).length + (rest.flatMap chains).length ≤ count) :
    (copyBuckets cfg m bank rest).Ends Alone t (Declined fits)
      (fun _ w' => BankOnly cfg bank w w' ∧ (w'.banks bank).present = (w.banks bank).present ∧
        ∃ schains', Mirrored cfg bank (done ++ rest) schains' chains w') w := by
  induction rest generalizing w done schains with
  | nil =>
    rw [copyBuckets, List.append_nil]
    exact ends_pure ⟨.refl cfg bank w, rfl, schains, h⟩
  | cons b rest ih =>
    have hb : b ∉ done := by
      intro hmem
      exact (List.nodup_append.mp hnd).2.2 b hmem b List.mem_cons_self rfl
    rw [List.flatMap_cons] at hroom
    rw [List.flatMap_cons, List.length_append] at hcount
    rw [copyBuckets]
    have hhere : fits → Roomy cfg w.db.store (chains b) count := by
      intro hfits
      have hroomy := hroom hfits
      exact ⟨fun o ho => hroomy.inline o (List.mem_append_left _ ho), hroomy.packs⟩
    refine (copyBucketToSnapshot_alone ha howned (hlt b List.mem_cons_self) h.captured.copies h.stocked hhere
      (by omega)).seq ?_
    intro root w₁ hroot
    obtain ⟨s', tail, cur, rfl, hkeeps, hlen, htrack⟩ := hroot
    have hzero : snapshotRoot cfg (w.setStore (.bank bank) s').db.headsFile bank b = 0 :=
      h.unset b (hlt b List.mem_cons_self) hb
    refine (casRoot_alone ha hbank (hlt b List.mem_cons_self)
      (root_lt ha.ready.valid htrack.underway.copies htrack.underway.chain) hzero).seq ?_
    intro won w₂ hwon
    obtain ⟨⟨rfl, hset⟩, hconfined⟩ := hwon
    have hdb : w₂.db.store = w.db.store ∧ w₂.db.runtimeHeads = w.db.runtimeHeads := by
      rw [hconfined.db]
      exact ⟨rfl, rfl⟩
    rw [if_pos rfl]
    rw [List.append_cons] at hnd ⊢
    have hpushed := h.push hb hkeeps htrack hset hdb.1
    refine (ih (w := w₂) (by rw [hdb.1, hdb.2]; exact howned) hpushed hnd
      (fun b' hb' => hlt b' (List.mem_cons_of_mem _ hb')) ?_ ?_).mono ?_
    · intro hfits
      have hroomy := hroom hfits
      rw [hdb.1]
      exact ⟨fun o ho => hroomy.inline o (List.mem_append_right _ ho), hroomy.packs⟩
    · rw [flatMap_push hb, List.length_append]
      omega
    intro _ w' hw'
    obtain ⟨hconfined', hpresent, schains', htaken⟩ := hw'
    have hcopied : BankOnly cfg bank w (w.setStore (.bank bank) s') :=
      confined_setBank fun bank => { bank with store := s' }
    have hkept := (rooted_setStore cfg bank w s').steady.trans hset.steady
    exact ⟨(hcopied.trans hconfined).trans hconfined', hpresent.trans hkept.present, schains', htaken⟩

end Buckets

end FlorestaDb
