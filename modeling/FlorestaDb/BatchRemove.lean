import FlorestaDb.BatchFetch

/-! The batch removals: distinct keys, one walk per bucket under its lock that unlinks the
first node of each key and goes on from the link it has just swung. -/
namespace FlorestaDb
open Program Program.Prog Allocator Chain

variable {cfg : Config} {m : Machine} {v : Env} {t : Tid} {d : Db} {chains : Nat → List Nat}
  {b : Nat} {l r : List Nat} {keys : List Key} {prepared g : List PreparedKey}
  {T : Nat → List (Key × List UInt8)}

section Unique

theorem hasDuplicate_iff (l : List PreparedKey) :
    hasDuplicate l = true ↔ ¬(l.map (·.key)).Nodup := by
  induction l with
  | nil => simp [hasDuplicate]
  | cons e l ih =>
    rw [hasDuplicate, Bool.or_eq_true, ih, List.map_cons, List.nodup_cons, not_and_or, not_not,
      List.any_eq_true, List.mem_map]
    refine or_congr ⟨?_, ?_⟩ Iff.rfl
    · rintro ⟨x, hx, heq⟩
      exact ⟨x, hx, (of_decide_eq_true heq).symm⟩
    · rintro ⟨x, hx, heq⟩
      exact ⟨x, hx, decide_eq_true heq.symm⟩

/-- The class in which the check looks for duplicates. -/
def hashClass (e : PreparedKey) : Nat × UInt64 := (e.bucket, e.hash)

theorem hashClass_convex (x y z : PreparedKey) (hxy : x.le y = true) (hyz : y.le z = true)
    (h : hashClass x = hashClass z) : hashClass y = hashClass x := by
  simp only [hashClass, Prod.mk.injEq, ← UInt64.toNat_inj] at h ⊢
  simp only [PreparedKey.le, Bool.or_eq_true, Bool.and_eq_true, decide_eq_true_eq,
    UInt64.lt_iff_toNat_lt, ← UInt64.toNat_inj] at hxy hyz
  omega

/-- Equal keys fall into one run, so looking inside the runs finds every duplicate. -/
theorem any_hasDuplicate (groups : List (List PreparedKey))
    (hne : ∀ g ∈ groups, g ≠ [])
    (hrun : ∀ g ∈ groups, List.IsChain (fun a b => decide (hashClass a = hashClass b) = true) g)
    (hcut : List.IsChain (fun a b => ∃ ha hb,
      decide (hashClass (a.getLast ha) = hashClass (b.head hb)) = false) groups)
    (hsorted : groups.flatten.Pairwise fun a b => a.le b = true)
    (hclass : ∀ x ∈ groups.flatten, ∀ y ∈ groups.flatten, x.key = y.key →
      hashClass x = hashClass y) :
    groups.any hasDuplicate = hasDuplicate groups.flatten := by
  induction groups with
  | nil => rfl
  | cons g groups ih =>
    have hapart := Groups.class_ne_of_runs hne (hrun g (by simp)) hcut hsorted hashClass_convex
    rw [List.flatten_cons] at hsorted hclass ⊢
    have hrest := ih (fun g' hg' => hne g' (List.mem_cons_of_mem _ hg'))
      (fun g' hg' => hrun g' (List.mem_cons_of_mem _ hg')) hcut.tail
      (List.pairwise_append.mp hsorted).2.1
      fun x hx y hy => hclass x (List.mem_append_right _ hx) y (List.mem_append_right _ hy)
    rw [List.any_cons, hrest, Bool.eq_iff_iff, Bool.or_eq_true, hasDuplicate_iff, hasDuplicate_iff,
      hasDuplicate_iff, List.map_append, List.nodup_append]
    constructor
    · rintro (h | h) ⟨h1, h2, -⟩
      · exact h h1
      · exact h h2
    · intro h
      by_contra hcon
      rw [not_or, not_not, not_not] at hcon
      refine h ⟨hcon.1, hcon.2, ?_⟩
      intro k hk k' hk' heq
      obtain ⟨x, hx, rfl⟩ := List.mem_map.mp hk
      obtain ⟨y, hy, rfl⟩ := List.mem_map.mp hk'
      exact hapart x hx y hy (hclass x (List.mem_append_left _ hx) y (List.mem_append_right _ hy) heq)

theorem validateUniqueBatchKeys_eq (hp : Prepared cfg keys prepared) :
    validateUniqueBatchKeys prepared = if keys.Nodup then .ok () else
      .error (.invalidConfig "destructive batch keys must be globally unique") := by
  have hpred : (fun a b : PreparedKey => decide (a.bucket = b.bucket) && decide (a.hash = b.hash)) =
      fun a b => decide (hashClass a = hashClass b) := by
    funext x y
    simp [hashClass]
  rw [validateUniqueBatchKeys, hpred]
  have hflat := List.flatten_splitBy (fun a b : PreparedKey =>
    decide (hashClass a = hashClass b)) prepared
  have hclass : ∀ x ∈ prepared, ∀ y ∈ prepared, x.key = y.key → hashClass x = hashClass y := by
    intro x hx y hy heq
    rw [hashClass, hashClass, hp.bucket x hx, hp.bucket y hy, hp.hash x hx, hp.hash y hy, heq]
  have hany := any_hasDuplicate (prepared.splitBy fun a b => decide (hashClass a = hashClass b))
    (fun g hg => List.ne_nil_of_mem_splitBy hg) (fun g hg => List.isChain_of_mem_splitBy hg)
    (List.isChain_getLast_head_splitBy (fun a b => decide (hashClass a = hashClass b)) prepared)
    (by rw [hflat]; exact hp.sorted) (by rw [hflat]; exact hclass)
  rw [hany, hflat]
  by_cases hnd : keys.Nodup
  · rw [if_pos hnd, if_neg]
    rw [hasDuplicate_iff, not_not]
    exact hp.perm.nodup_iff.mpr hnd
  · rw [if_neg hnd, if_pos]
    rw [hasDuplicate_iff]
    exact fun h => hnd (hp.perm.nodup_iff.mp h)

end Unique

section Matching
variable {α : Type} {pending : Option α → Bool} {results : List α} {node : Node} {e : PreparedKey}

theorem find?_dropWhile {β : Type} {p q : β → Bool} (h : ∀ x, q x = true → p x = false)
    (l : List β) : (l.dropWhile q).find? p = l.find? p := by
  induction l with
  | nil => rfl
  | cons x l ih =>
    by_cases hq : q x = true
    · rw [List.dropWhile_cons_of_pos hq, ih, List.find?_cons_of_neg (by simp [h x hq])]
    · rw [List.dropWhile_cons_of_neg hq]

/-- The entry found is the first pending one of the node's key in the whole group. -/
theorem matchingEntry_eq (hash : UInt64) :
    matchingEntry pending results g node hash = g.find? fun e =>
      decide (e.hash = hash) && pending results[e.order]? && decide (e.key = node.key) := by
  refine find?_dropWhile ?_ g
  intro e he
  have hlt : e.hash < hash := by simpa using he
  have hne : ¬e.hash = hash := fun heq => UInt64.lt_irrefl _ (heq ▸ hlt)
  simp [hne]

theorem matchingEntry_some {hash : UInt64}
    (h : matchingEntry pending results g node hash = some e) :
    e ∈ g ∧ pending results[e.order]? = true ∧ e.key = node.key := by
  rw [matchingEntry_eq] at h
  have hprop := List.find?_some h
  simp only [Bool.and_eq_true, decide_eq_true_eq] at hprop
  exact ⟨List.mem_of_find?_eq_some h, hprop.1.2, hprop.2⟩

theorem matchingEntry_none (hg : Group cfg b g)
    (h : matchingEntry pending results g node (hashOf cfg node.key) = none) :
    ∀ e ∈ g, pending results[e.order]? = true → e.key ≠ node.key := by
  rw [matchingEntry_eq, List.find?_eq_none] at h
  intro e he hp hk
  refine h e he ?_
  simp [hg.hash e he, hp, hk]

end Matching

section Delete
variable {removed : List Key} {deleted : List Bool}

/-- The bookkeeping of `batch_delete`: exactly the keys in `removed` are marked. -/
structure Marked (cfg : Config) (prepared : List PreparedKey)
    (T : Nat → List (Key × List UInt8)) (removed : List Key) (deleted : List Bool) : Prop where
  length : deleted.length = prepared.length
  marks : ∀ e ∈ prepared, deleted[e.order]? = some (decide (e.key ∈ removed))
  nodup : removed.Nodup
  known : ∀ key ∈ removed, key ∈ prepared.map (·.key)
  tops : ∀ key ∈ removed, Buckets.stack (bucketOf cfg) T key ≠ []

theorem Marked.pending (h : Marked cfg prepared T removed deleted) {e : PreparedKey}
    (he : e ∈ prepared) : stillPresent deleted[e.order]? = decide (e.key ∉ removed) := by
  rw [h.marks e he, stillPresent, Option.getD_some, decide_not]

/-- A walk that has passed the whole chain has found all that is there. -/
theorem stack_exhausted {s : Store} (hnd : removed.Nodup)
    (hT : content cfg s chains = Buckets.dropAll (bucketOf cfg) T removed) {key : Key}
    (hkey : key ∉ removed) (hl : ∀ x ∈ chains (bucketOf cfg key), (s.slots x).key ≠ key) :
    Buckets.stack (bucketOf cfg) T key = [] := by
  have hempty : Buckets.stack (bucketOf cfg) (content cfg s chains) key = [] := stack_absent hl
  rw [hT, Buckets.stack_dropAll hnd, if_neg hkey] at hempty
  exact hempty

/-- A key that still has a node had one to begin with. -/
theorem stack_pending {s : Store} {o : Nat} (hnd : removed.Nodup)
    (hT : content cfg s chains = Buckets.dropAll (bucketOf cfg) T removed)
    (hc : chains (bucketOf cfg (s.slots o).key) = l ++ o :: r)
    (hl : ∀ x ∈ l, (s.slots x).key ≠ (s.slots o).key) (hkey : (s.slots o).key ∉ removed) :
    (Buckets.stack (bucketOf cfg) T (s.slots o).key).head? = some (entryAt cfg s o).2 := by
  have htop : (Buckets.stack (bucketOf cfg) (content cfg s chains) _).head? = _ :=
    stack_found hc rfl hl
  rw [hT, Buckets.stack_dropAll hnd, if_neg hkey] at htop
  exact htop

theorem Marked.mark (h : Marked cfg prepared T removed deleted)
    (horders : (prepared.map (·.order)).Nodup) (hkeys : (prepared.map (·.key)).Nodup)
    {e : PreparedKey} (he : e ∈ prepared) (hnew : e.key ∉ removed)
    (htop : Buckets.stack (bucketOf cfg) T e.key ≠ []) :
    Marked cfg prepared T (removed ++ [e.key]) (deleted.set e.order true) := by
  have hlt : e.order < deleted.length := (List.getElem?_eq_some_iff.mp (h.marks e he)).1
  refine ⟨by rw [List.length_set, h.length], ?_, ?_, ?_, ?_⟩
  · intro x hx
    by_cases hxe : x = e
    · subst hxe
      rw [List.getElem?_set_self hlt]
      simp
    · have hkne : x.key ≠ e.key := fun hk => hxe (List.inj_on_of_nodup_map hkeys hx he hk)
      rw [set_other horders he hx hxe, h.marks x hx]
      simp [hkne]
  · exact List.nodup_append.mpr ⟨h.nodup, List.nodup_singleton _, by
      intro k hk k' hk' heq
      rw [List.mem_singleton] at hk'
      subst hk' heq
      exact hnew hk⟩
  · intro k hk
    rcases List.mem_append.mp hk with hk | hk
    · exact h.known k hk
    · rw [List.mem_singleton.mp hk]
      exact List.mem_map_of_mem he
  · intro k hk
    rcases List.mem_append.mp hk with hk | hk
    · exact h.tops k hk
    · rw [List.mem_singleton.mp hk]
      exact htop

/-- The head a walk expects after an unlink is the new head. -/
theorem expected_head {w : Removal} {heads heads' : Nat → Nat} {next next' : Nat → Nat} {o : Nat}
    (hlink : w.link = linkAfter b l) (hw : w.expectedHead = heads b)
    (hold : IsChain next (heads b) (l ++ o :: r)) (hnew : IsChain next' (heads' b) (l ++ r)) :
    w.expected (r.headD 0) = heads' b := by
  rw [Removal.expected, hlink, hnew.head_eq]
  rcases List.eq_nil_or_concat' l with rfl | ⟨l, p, rfl⟩
  · rfl
  · rw [linkAfter_append]
    dsimp only
    rw [hw, hold.head_eq]
    cases l with
    | nil => rfl
    | cons x l => rfl

/-- What a removing walk over the entries `g` leaves behind. -/
structure Swept (cfg : Config) (prepared g : List PreparedKey) (T : Nat → List (Key × List UInt8))
    (removed : List Key) (res : Except Error (List Bool)) (s : Store) (heads : Nat → Nat) :
    Prop where
  result : ∃ removed' deleted', res = .ok deleted' ∧ Marked cfg prepared T removed' deleted' ∧
    (∀ key ∈ removed, key ∈ removed') ∧
    (∀ e ∈ g, e.key ∉ removed' → Buckets.stack (bucketOf cfg) T e.key = []) ∧
    Holds cfg s heads (Buckets.dropAll (bucketOf cfg) T removed')

/-- The rest of a walk that has passed the places `l`. -/
theorem delete_rest (hr : cfg.Ready) (hp : Prepared cfg keys prepared) (hkeys : keys.Nodup)
    (hg : Group cfg b g) (hsub : ∀ e ∈ g, e ∈ prepared) (hb : b < cfg.bucketCount)
    (h : Owned cfg d.store d.runtimeHeads chains ∅ ∅ ∅)
    (hT : content cfg d.store chains = Buckets.dropAll (bucketOf cfg) T removed)
    (hm : Marked cfg prepared T removed deleted) (hc : chains b = l ++ r)
    (hl : ∀ x ∈ l, ∀ e ∈ g, e.key ∉ removed → (d.store.slots x).key ≠ e.key) {remaining fuel : Nat}
    (hrem : remaining = g.countP fun e => stillPresent deleted[e.order]?)
    (hfuel : v = .fair → r.length + 1 ≤ fuel) (hf : v = .fair → m.Enough cfg) :
    (deleteBucketBatch cfg m b g fuel deleted
      (some ⟨linkAfter b l, r.headD 0, d.runtimeHeads b, remaining⟩)).wp v t
      (fun res d' => Frame d d' ∧
        Swept cfg prepared g T removed res d'.store d'.runtimeHeads) d := by
  induction r generalizing l fuel d chains removed deleted remaining with
  | nil =>
    cases fuel with
    | zero =>
      cases v with
      | fair => exact absurd (hfuel rfl) (by simp)
      | any => exact rfl
    | succ fuel =>
      rw [List.append_nil] at hc
      rw [deleteBucketBatch]
      dsimp only
      rw [if_pos List.headD_nil, wp_bind, loadHead_spec hb, andThen_ok, if_pos rfl, wp_pure]
      refine ⟨rfl, removed, deleted, rfl, hm, fun _ hk => hk, ?_, chains, h, hT⟩
      intro e he hnot
      refine stack_exhausted hm.nodup hT hnot ?_
      rw [hg.home e he, hc]
      exact fun x hx => hl x hx e he hnot
  | cons o r ih =>
    cases fuel with
    | zero =>
      cases v with
      | fair => exact absurd (hfuel rfl) (by simp)
      | any => exact rfl
    | succ fuel =>
      have ho : o ∈ chains b := by simp [hc]
      have hne : ¬o = 0 := (h.chain b).ne_zero o ho
      have hchain := h.chain b
      rw [hc] at hchain
      have hnext : (nodeAt d.store o).next = r.headD 0 := hchain.split.2.2.head_eq
      have hfuel' : v = .fair → r.length + 1 ≤ fuel := by
        intro hv
        have := hfuel hv
        simp only [List.length_cons] at this
        omega
      rw [deleteBucketBatch]
      dsimp only
      rw [List.headD_cons, if_neg hne, wp_bind]
      refine observe_spec hr h hb hc ?_
      rw [andThen_ok]
      dsimp only
      cases hmatch : matchingEntry stillPresent deleted g (nodeAt d.store o)
          (hashOf cfg (nodeAt d.store o).key) with
      | none =>
        dsimp only
        rw [hnext, ← linkAfter_append b l o]
        refine ih h hT hm (by simp [hc]) ?_ hrem hfuel'
        intro x hx e he hnot
        rcases List.mem_append.mp hx with hx | hx
        · exact hl x hx e he hnot
        · rw [List.mem_singleton.mp hx]
          refine (matchingEntry_none hg hmatch e he ?_).symm
          rw [hm.pending (hsub e he)]
          exact decide_eq_true hnot
      | some e =>
        obtain ⟨he, hpend, hkey⟩ := matchingEntry_some hmatch
        have hpend' := hpend
        rw [hm.pending (hsub e he), decide_eq_true_eq] at hpend
        have hkey' : (d.store.slots o).key = e.key := hkey.symm
        have hbucket : bucketOf cfg (d.store.slots o).key = b := h.home b o ho
        have hl' : ∀ x ∈ l, (d.store.slots x).key ≠ (d.store.slots o).key := by
          intro x hx
          rw [hkey']
          exact hl x hx e he hpend
        have htop : (Buckets.stack (bucketOf cfg) T (d.store.slots o).key).head? = _ :=
          stack_pending hm.nodup hT (by rw [hbucket]; exact hc) hl' (by rw [hkey']; exact hpend)
        have hm' : Marked cfg prepared T (removed ++ [e.key]) (deleted.set e.order true) := by
          refine hm.mark hp.orders (hp.perm.nodup_iff.mpr hkeys) (hsub e he) hpend ?_
          intro hnil
          rw [hkey', hnil] at htop
          cases htop
        have hlt : e.order < deleted.length := by
          rw [hm.length]
          exact hp.order_lt (hsub e he)
        have hcount := countP_set (p := stillPresent) hg.orders he hlt hpend' (x := true) rfl
        have hpos : 1 ≤ remaining := by
          rw [hrem, ← hcount]
          exact Nat.le_add_left 1 _
        have hrem' : remaining - 1 = g.countP fun e' =>
            stillPresent (deleted.set e.order true)[e'.order]? := by
          rw [hrem, ← hcount, Nat.add_sub_cancel]
        dsimp only
        rw [wp_bind, wp_attempt]
        refine wp_mono (unlinkLink_spec hr h hc hf) ?_
        rintro _ d₁ ⟨rfl, hframe, howned, hsame⟩
        rw [andThen_ok]
        dsimp only
        rw [if_neg (Nat.not_le.mpr hlt), checkedSub_of_le hpos]
        dsimp only
        rw [← nodesOf_unlink h hc] at hsame
        have hT' : content cfg d₁.store (Function.update chains b (l ++ r)) =
            Buckets.dropAll (bucketOf cfg) T (removed ++ [e.key]) := by
          have hunlink : content cfg d.store (Function.update chains
              (bucketOf cfg (d.store.slots o).key) (l ++ r)) = _ :=
            content_unlink (by rw [hbucket]; exact hc) rfl hl'
          rw [hbucket] at hunlink
          rw [content_same hsame fun b x hx => mem_nodesOf hx, hunlink, hT, hkey',
            Buckets.dropAll_concat]
        have hkeep : ∀ key ∈ removed, key ∈ removed ++ [e.key] :=
          fun _ hk => List.mem_append_left _ hk
        by_cases hzero : remaining - 1 = 0
        · rw [if_pos hzero, wp_pure]
          refine ⟨hframe, removed ++ [e.key], _, rfl, hm', hkeep, ?_, _, howned, hT'⟩
          intro e' he' hnot
          rw [hzero] at hrem'
          have hall := List.countP_eq_zero.mp hrem'.symm e' he'
          rw [hm'.pending (hsub e' he')] at hall
          exact absurd (decide_eq_true hnot) hall
        · rw [if_neg hzero, hnext]
          have hhead := expected_head (w := ⟨linkAfter b l, o, d.runtimeHeads b, remaining⟩) rfl rfl
            hchain (by simpa using howned.chain b)
          rw [hhead]
          have hl₁ : ∀ x ∈ l, ∀ e' ∈ g, e'.key ∉ removed ++ [e.key] →
              (d₁.store.slots x).key ≠ e'.key := by
            intro x hx e' he' hnot
            have hx' : x ∈ Function.update chains b (l ++ r) b := by simp [hx]
            rw [hsame.key (mem_nodesOf hx')]
            exact hl x hx e' he' fun hmem => hnot (List.mem_append_left _ hmem)
          refine wp_mono (ih howned hT' hm' (by simp) hl₁ hrem' hfuel') ?_
          rintro res d' ⟨hframe', removed', deleted', rfl, hmarked, hkeep', hdone, hholds⟩
          exact ⟨hframe.trans hframe', removed', deleted', rfl, hmarked,
            fun k hk => hkeep' k (hkeep k hk), hdone, hholds⟩

/-- One bucket of `batch_delete` under its lock. -/
theorem deleteBucketBatch_spec (hr : cfg.Ready) (hp : Prepared cfg keys prepared)
    (hkeys : keys.Nodup) (hg : Group cfg b g) (hsub : ∀ e ∈ g, e ∈ prepared)
    (hb : b < cfg.bucketCount)
    (h : Holds cfg d.store d.runtimeHeads (Buckets.dropAll (bucketOf cfg) T removed))
    (hm : Marked cfg prepared T removed deleted) (hf : v = .fair → m.Enough cfg) :
    (deleteBucketBatch cfg m b g m.fuel deleted none).wp v t (fun res d' => Frame d d' ∧
      Swept cfg prepared g T removed res d'.store d'.runtimeHeads) d := by
  obtain ⟨chains, howned, hT⟩ := h
  have hlen := howned.chain_length hr.valid b
  cases hfuel : m.fuel with
  | zero =>
    cases v with
    | fair => exact absurd (Machine.Enough.one hf rfl) (by omega)
    | any => exact rfl
  | succ fuel =>
    rw [deleteBucketBatch]
    by_cases hzero : (g.countP fun e => stillPresent deleted[e.order]?) = 0
    · rw [if_pos hzero, wp_pure]
      refine ⟨rfl, removed, deleted, rfl, hm, fun _ hk => hk, ?_, chains, howned, hT⟩
      intro e he hnot
      have hall := List.countP_eq_zero.mp hzero e he
      rw [hm.pending (hsub e he)] at hall
      exact absurd (decide_eq_true hnot) hall
    · rw [if_neg hzero, wp_bind, loadHead_spec hb, andThen_ok]
      have hhead := (howned.chain b).head_eq
      nth_rewrite 1 [hhead]
      rw [← linkAfter_nil b]
      refine delete_rest hr hp hkeys hg hsub hb howned hT hm (List.nil_append _).symm (by simp) rfl
        ?_ hf
      intro hv
      have henough := hf hv
      rw [Machine.Enough, hfuel] at henough
      exact Nat.le_of_succ_le_succ (Nat.le_trans (Nat.add_le_add hlen (by decide : 2 ≤ 4)) henough)

theorem deleteBuckets_spec (hr : cfg.Ready) (hp : Prepared cfg keys prepared)
    (hkeys : keys.Nodup) (hlocks : ∀ b, d.deleteLocks b = 0) (hf : v = .fair → m.Enough cfg)
    {groups : List (List PreparedKey)} (hruns : Runs prepared groups)
    (h : Holds cfg d.store d.runtimeHeads (Buckets.dropAll (bucketOf cfg) T removed))
    (hm : Marked cfg prepared T removed deleted) :
    (deleteBuckets cfg m groups deleted).wp v t (fun res d' => Frame d d' ∧
      Swept cfg prepared groups.flatten T removed res d'.store d'.runtimeHeads) d := by
  induction groups generalizing d removed deleted with
  | nil => exact ⟨rfl, removed, deleted, rfl, hm, fun _ hk => hk, by simp, h⟩
  | cons g groups ih =>
    cases g with
    | nil =>
      rw [deleteBuckets, List.flatten_cons, List.nil_append]
      exact ih hlocks hruns.tail h hm
    | cons first rest =>
      obtain ⟨hg, hmem⟩ := hruns.group hp
      have hb : first.bucket < cfg.bucketCount := by
        rw [← hg.home first (by simp)]
        exact bucketOf_lt hr.valid _
      rw [deleteBuckets, wp_bind]
      refine wp_mono (wp_withDeleteLock hb hlocks (Machine.Enough.one hf)
        (P := fun res s heads => Swept cfg prepared (first :: rest) T removed res s heads) ?_) ?_
      · exact deleteBucketBatch_spec (d := d.setLock first.bucket 1) hr hp hkeys hg hmem hb h hm hf
      · rintro _ d₁ ⟨hframe, removed₁, deleted₁, rfl, hm₁, hkeep₁, hdone₁, hholds₁⟩
        rw [andThen_ok]
        have hlocks₁ : ∀ b, d₁.deleteLocks b = 0 := by
          rw [Frame] at hframe
          rw [hframe]
          exact hlocks
        refine wp_mono (ih hlocks₁ hruns.tail hholds₁ hm₁) ?_
        rintro _ d₂ ⟨hframe₂, removed₂, deleted₂, rfl, hm₂, hkeep₂, hdone₂, hholds₂⟩
        refine ⟨hframe.trans hframe₂, removed₂, deleted₂, rfl, hm₂,
          fun k hk => hkeep₂ k (hkeep₁ k hk), ?_, hholds₂⟩
        intro e he hnot
        rw [List.flatten_cons] at he
        rcases List.mem_append.mp he with he | he
        · exact hdone₁ e he fun hmem => hnot (hkeep₂ _ hmem)
        · exact hdone₂ e he hnot

/-- Dropping the keys that have a value is dropping all of them. -/
theorem stack_removed (hnd : removed.Nodup) (hkeys : keys.Nodup)
    (hsub : ∀ key ∈ removed, key ∈ keys)
    (hdone : ∀ key ∈ keys, key ∉ removed → Buckets.stack (bucketOf cfg) T key = []) :
    Buckets.stack (bucketOf cfg) (Buckets.dropAll (bucketOf cfg) T removed) =
      Buckets.stack (bucketOf cfg) (Buckets.dropAll (bucketOf cfg) T keys) := by
  funext k
  rw [Buckets.stack_dropAll hnd, Buckets.stack_dropAll hkeys]
  by_cases hk : k ∈ removed
  · rw [if_pos hk, if_pos (hsub k hk)]
  · rw [if_neg hk]
    by_cases hk' : k ∈ keys
    · rw [if_pos hk', hdone k hk' hk]
      rfl
    · rw [if_neg hk']

/-- Removing each of the keys once: the stacks it leaves. -/
def Removed (cfg : Config) (T : Nat → List (Key × List UInt8)) (keys : List Key) (s : Store)
    (heads : Nat → Nat) : Prop :=
  ∃ T', Holds cfg s heads T' ∧ Buckets.stack (bucketOf cfg) T' =
    Buckets.stack (bucketOf cfg) (Buckets.dropAll (bucketOf cfg) T keys)

theorem batchDelete_spec (hr : cfg.Ready) (hi : Idle d) (h : Holds cfg d.store d.runtimeHeads T)
    {input : List (List UInt8)} (hinput : validateKeys input = .ok keys) (hkeys : keys.Nodup)
    (hf : v = .fair → m.Enough cfg) :
    (batchDelete cfg m input).wp v t (fun res d' => Frame d d' ∧
      (res = .ok (keys.map fun key => !(Buckets.stack (bucketOf cfg) T key).isEmpty) ∧
        Removed cfg T keys d'.store d'.runtimeHeads)) d := by
  have hp := prepared_sorted cfg keys
  refine wp_operation hi.quiescence (P := fun res s heads => res = _ ∧ Removed cfg T keys s heads) ?_
  rw [prepareKeys_eq hinput, wp_bind, wp_ofExcept, andThen_ok, validateUniqueBatchKeys_eq hp,
    if_pos hkeys, wp_bind, wp_ofExcept, andThen_ok]
  have hm : Marked cfg ((preparedKeys cfg keys).mergeSort PreparedKey.le) T []
      (List.replicate ((preparedKeys cfg keys).mergeSort PreparedKey.le).length false) := by
    refine ⟨List.length_replicate, ?_, List.nodup_nil, by simp, by simp⟩
    intro e he
    rw [List.getElem?_replicate, if_pos (hp.order_lt he)]
    rfl
  refine wp_mono (deleteBuckets_spec (d := { d with quiescence := ⟨[t], none⟩ }) hr hp hkeys
    hi.locks hf (runs_bucketGroups _) (show Holds cfg _ _ (Buckets.dropAll _ T []) from h) hm) ?_
  rintro _ d' ⟨hframe, removed, deleted, rfl, hm', -, hdone, hholds⟩
  rw [bucketGroups, List.flatten_splitBy] at hdone
  have hmem : ∀ key, key ∈ keys ↔ key ∈ ((preparedKeys cfg keys).mergeSort PreparedKey.le).map
      (·.key) := fun key => (hp.perm.mem_iff).symm
  refine ⟨hframe, ?_, _, hholds, stack_removed hm'.nodup hkeys
    (fun key hk => (hmem key).mpr (hm'.known key hk)) ?_⟩
  · refine congrArg Except.ok (hp.collect hm'.length ?_)
    intro e he
    rw [hm'.marks e he]
    refine congrArg some ?_
    by_cases hk : e.key ∈ removed
    · have htop := hm'.tops e.key hk
      simp [hk, htop]
    · simp [hk, hdone e he hk]
  · intro key hkey hnot
    obtain ⟨e, he, rfl⟩ := List.mem_map.mp ((hmem key).mp hkey)
    exact hdone e he hnot

end Delete

section Pop
variable {s s' : Store} {taken : List Nat} {acc : Popped}

def keysAt (s : Store) (l : List Nat) : List Key := l.map fun o => (s.slots o).key

theorem lookupWord_none {key : Key} : lookupWord s l key = none ↔ key ∉ keysAt s l := by
  rw [lookupWord, Option.map_eq_none_iff, List.find?_eq_none, keysAt, List.mem_map]
  constructor
  · rintro h ⟨o, ho, hk⟩
    exact h o ho (decide_eq_true hk)
  · intro h o ho hk
    exact h ⟨o, ho, of_decide_eq_true hk⟩

/-- The bookkeeping of `batch_pop`: the nodes at `taken` are detached and still allocated. -/
structure Taken (cfg : Config) (prepared : List PreparedKey) (T : Nat → List (Key × List UInt8))
    (s : Store) (taken : List Nat) (acc : Popped) : Prop where
  length : acc.encoded.length = prepared.length
  words : ∀ e ∈ prepared, acc.encoded[e.order]? = some (lookupWord s taken e.key)
  nodup : (keysAt s taken).Nodup
  known : ∀ key ∈ keysAt s taken, key ∈ prepared.map (·.key)
  tops : ∀ o ∈ taken, (Buckets.stack (bucketOf cfg) T (s.slots o).key).head? =
    some (entryAt cfg s o).2
  detached : List.Forall₂ (fun o x => x.body = nodeAlloc cfg o ∧
    optSet x.blob = blobSet cfg s (s.slots o).value) taken acc.detached

theorem Taken.pending (h : Taken cfg prepared T s taken acc) {e : PreparedKey}
    (he : e ∈ prepared) : stillUnread acc.encoded[e.order]? = decide (e.key ∉ keysAt s taken) := by
  rw [h.words e he, stillUnread, Option.bind_some, id]
  by_cases hk : e.key ∈ keysAt s taken
  · cases hl : lookupWord s taken e.key with
    | none => exact absurd hk (lookupWord_none.mp hl)
    | some word => simp [hk]
  · rw [lookupWord_none.mpr hk]
    simp [hk]

theorem Same.keysAt_eq (h : Same cfg Set.univ s s') (l : List Nat) : keysAt s' l = keysAt s l :=
  List.map_congr_left fun o _ => h.key (Set.mem_univ o)

theorem Same.lookupWord_eq (h : Same cfg Set.univ s s') (l : List Nat) (key : Key) :
    lookupWord s' l key = lookupWord s l key := by
  have hkey : ∀ o, (s'.slots o).key = (s.slots o).key := fun o => h.key (Set.mem_univ o)
  have hvalue : ∀ o, (s'.slots o).value = (s.slots o).value := fun o => (h o (Set.mem_univ o)).1
  simp only [lookupWord, hkey, hvalue]

/-- Swinging a link changes nothing that the bookkeeping knows about. -/
theorem Taken.same (h : Taken cfg prepared T s taken acc) (hs : Same cfg Set.univ s s')
    (hok : ∀ o ∈ taken, EntryOk cfg s o) : Taken cfg prepared T s' taken acc where
  length := h.length
  words := fun e he => by
    rw [hs.lookupWord_eq]
    exact h.words e he
  nodup := by
    rw [hs.keysAt_eq]
    exact h.nodup
  known := by
    rw [hs.keysAt_eq]
    exact h.known
  tops := fun o ho => by
    rw [hs.key (Set.mem_univ o), (hs o (Set.mem_univ o)).2]
    exact h.tops o ho
  detached := by
    refine List.Forall₂.imp ?_ ((List.forall₂_and_left _ _).mpr ⟨hok, h.detached⟩)
    rintro o x ⟨ho, hbody, hset⟩
    exact ⟨hbody, by rw [hs.blobSet_eq (Set.mem_univ o) ho]; exact hset⟩

theorem Taken.take (h : Taken cfg prepared T s taken acc)
    (horders : (prepared.map (·.order)).Nodup) (hkeys : (prepared.map (·.key)).Nodup)
    {e : PreparedKey} (he : e ∈ prepared) {o : Nat} (hkey : (s.slots o).key = e.key)
    (hnew : e.key ∉ keysAt s taken)
    (htop : (Buckets.stack (bucketOf cfg) T (s.slots o).key).head? = some (entryAt cfg s o).2)
    {blob : Option Allocation} (hset : optSet blob = blobSet cfg s (s.slots o).value) :
    Taken cfg prepared T s (taken ++ [o]) ⟨acc.encoded.set e.order (some (s.slots o).value),
      acc.detached ++ [⟨nodeAlloc cfg o, blob⟩]⟩ := by
  have hlt : e.order < acc.encoded.length := (List.getElem?_eq_some_iff.mp (h.words e he)).1
  have hkeysAt : keysAt s (taken ++ [o]) = keysAt s taken ++ [e.key] := by
    rw [keysAt, List.map_append, List.map_singleton, hkey]
    rfl
  refine ⟨by rw [List.length_set, h.length], ?_, ?_, ?_, ?_, ?_⟩
  · intro x hx
    rw [lookupWord_append, lookupWord_single]
    by_cases hxe : x = e
    · subst hxe
      rw [List.getElem?_set_self hlt, lookupWord_none.mpr hnew, if_pos hkey]
      rfl
    · have hkne : ¬(s.slots o).key = x.key := fun hk =>
        hxe (List.inj_on_of_nodup_map hkeys hx he (hk.symm.trans hkey))
      rw [set_other horders he hx hxe, h.words x hx, if_neg hkne, Option.or_none]
  · rw [hkeysAt]
    exact List.nodup_append.mpr ⟨h.nodup, List.nodup_singleton _, by
      intro k hk k' hk' heq
      rw [List.mem_singleton] at hk'
      subst hk' heq
      exact hnew hk⟩
  · rw [hkeysAt]
    intro k hk
    rcases List.mem_append.mp hk with hk | hk
    · exact h.known k hk
    · rw [List.mem_singleton.mp hk]
      exact List.mem_map_of_mem he
  · intro x hx
    rcases List.mem_append.mp hx with hx | hx
    · exact h.tops x hx
    · rw [List.mem_singleton.mp hx]
      exact htop
  · exact List.rel_append h.detached (.cons ⟨rfl, hset⟩ .nil)

/-- The state between two walks of `batch_pop`. -/
structure Popping (cfg : Config) (prepared : List PreparedKey) (T : Nat → List (Key × List UInt8))
    (s : Store) (heads : Nat → Nat) (chains : Nat → List Nat) (taken : List Nat) (acc : Popped) :
    Prop where
  owned : Owned cfg s heads chains {o | o ∈ taken} ∅ ∅
  content : content cfg s chains = Buckets.dropAll (bucketOf cfg) T (keysAt s taken)
  taken : Taken cfg prepared T s taken acc

/-- What a walk of `batch_pop` over the entries `g` leaves behind. -/
structure Drawn (cfg : Config) (prepared g : List PreparedKey) (T : Nat → List (Key × List UInt8))
    (removed : List Key) (res : Except Error (Popped × Except Error Unit)) (s : Store)
    (heads : Nat → Nat) : Prop where
  result : ∃ chains taken acc, res = .ok (acc, .ok ()) ∧
    Popping cfg prepared T s heads chains taken acc ∧ (∀ key ∈ removed, key ∈ keysAt s taken) ∧
    ∀ e ∈ g, e.key ∉ keysAt s taken → Buckets.stack (bucketOf cfg) T e.key = []

/-- The rest of a walk that has passed the places `l`. -/
theorem pop_rest (hr : cfg.Ready) (hp : Prepared cfg keys prepared) (hkeys : keys.Nodup)
    (hg : Group cfg b g) (hsub : ∀ e ∈ g, e ∈ prepared) (hb : b < cfg.bucketCount)
    (h : Popping cfg prepared T d.store d.runtimeHeads chains taken acc) (hc : chains b = l ++ r)
    (hl : ∀ x ∈ l, ∀ e ∈ g, e.key ∉ keysAt d.store taken → (d.store.slots x).key ≠ e.key)
    {remaining fuel : Nat}
    (hrem : remaining = g.countP fun e => stillUnread acc.encoded[e.order]?)
    (hfuel : v = .fair → r.length + 1 ≤ fuel) (hf : v = .fair → m.Enough cfg) :
    (popBucketBatch cfg m b g fuel acc
      (some ⟨linkAfter b l, r.headD 0, d.runtimeHeads b, remaining⟩)).wp v t
      (fun res d' => Frame d d' ∧
        Drawn cfg prepared g T (keysAt d.store taken) res d'.store d'.runtimeHeads) d := by
  induction r generalizing l fuel d chains taken acc remaining with
  | nil =>
    cases fuel with
    | zero =>
      cases v with
      | fair => exact absurd (hfuel rfl) (by simp)
      | any => exact rfl
    | succ fuel =>
      rw [List.append_nil] at hc
      rw [popBucketBatch]
      dsimp only
      rw [if_pos List.headD_nil, wp_bind, wp_attempt, loadHead_spec hb, andThen_ok]
      dsimp only
      rw [if_pos rfl, wp_pure]
      refine ⟨rfl, chains, taken, acc, rfl, h, fun _ hk => hk, ?_⟩
      intro e he hnot
      refine stack_exhausted h.taken.nodup h.content hnot ?_
      rw [hg.home e he, hc]
      exact fun x hx => hl x hx e he hnot
  | cons o r ih =>
    cases fuel with
    | zero =>
      cases v with
      | fair => exact absurd (hfuel rfl) (by simp)
      | any => exact rfl
    | succ fuel =>
      have ho : o ∈ chains b := by simp [hc]
      have hne : ¬o = 0 := (h.owned.chain b).ne_zero o ho
      have hchain := h.owned.chain b
      rw [hc] at hchain
      have hnext : (nodeAt d.store o).next = r.headD 0 := hchain.split.2.2.head_eq
      have hfuel' : v = .fair → r.length + 1 ≤ fuel := by
        intro hv
        have := hfuel hv
        simp only [List.length_cons] at this
        omega
      rw [popBucketBatch]
      dsimp only
      rw [List.headD_cons, if_neg hne, wp_bind, wp_attempt]
      refine observe_spec hr h.owned hb hc ?_
      rw [andThen_ok]
      dsimp only
      cases hmatch : matchingEntry stillUnread acc.encoded g (nodeAt d.store o)
          (hashOf cfg (nodeAt d.store o).key) with
      | none =>
        dsimp only
        rw [hnext, ← linkAfter_append b l o]
        refine ih h (by simp [hc]) ?_ hrem hfuel'
        intro x hx e he hnot
        rcases List.mem_append.mp hx with hx | hx
        · exact hl x hx e he hnot
        · rw [List.mem_singleton.mp hx]
          refine (matchingEntry_none hg hmatch e he ?_).symm
          rw [h.taken.pending (hsub e he)]
          exact decide_eq_true hnot
      | some e =>
        obtain ⟨he, hpend, hkey⟩ := matchingEntry_some hmatch
        have hpend' := hpend
        rw [h.taken.pending (hsub e he), decide_eq_true_eq] at hpend
        have hkey' : (d.store.slots o).key = e.key := hkey.symm
        have hbucket : bucketOf cfg (d.store.slots o).key = b := h.owned.home b o ho
        have hl' : ∀ x ∈ l, (d.store.slots x).key ≠ (d.store.slots o).key := by
          intro x hx
          rw [hkey']
          exact hl x hx e he hpend
        have htop : (Buckets.stack (bucketOf cfg) T (d.store.slots o).key).head? = _ :=
          stack_pending h.taken.nodup h.content (by rw [hbucket]; exact hc) hl'
            (by rw [hkey']; exact hpend)
        have hlt : e.order < acc.encoded.length := by
          rw [h.taken.length]
          exact hp.order_lt (hsub e he)
        have hcount := countP_set (p := stillUnread) hg.orders he hlt hpend'
          (x := some (nodeAt d.store o).value) rfl
        have hpos : 1 ≤ remaining := by
          rw [hrem, ← hcount]
          exact Nat.le_add_left 1 _
        have hrem' : remaining - 1 = g.countP fun e' =>
            stillUnread (acc.encoded.set e.order (some (nodeAt d.store o).value))[e'.order]? := by
          rw [hrem, ← hcount, Nat.add_sub_cancel]
        dsimp only
        rw [wp_bind, wp_attempt]
        refine wp_mono (detachLink_spec hr h.owned hc hf) ?_
        rintro _ d₁ ⟨⟨blob, rfl, hset⟩, hframe, howned, hsame⟩
        rw [andThen_ok]
        dsimp only
        rw [if_neg (Nat.not_le.mpr hlt), checkedSub_of_le hpos]
        dsimp only
        have hvalue : (nodeAt d.store o).value = (d₁.store.slots o).value :=
          ((hsame o (Set.mem_univ o)).1).symm
        have htaken : Taken cfg prepared T d₁.store (taken ++ [o])
            ⟨acc.encoded.set e.order (some (nodeAt d.store o).value),
              acc.detached ++ [⟨nodeAlloc cfg o, blob⟩]⟩ := by
          have hsame' := h.taken.same hsame fun x hx => h.owned.heap.entry x (Or.inr hx)
          rw [hvalue]
          refine hsame'.take hp.orders (hp.perm.nodup_iff.mpr hkeys) (hsub e he)
            ((hsame.key (Set.mem_univ o)).trans hkey') ?_ ?_ hset
          · rw [hsame.keysAt_eq]
            exact hpend
          · rw [hsame.key (Set.mem_univ o), (hsame o (Set.mem_univ o)).2]
            exact htop
        have hkeysAt : keysAt d₁.store (taken ++ [o]) = keysAt d.store taken ++ [e.key] := by
          rw [hsame.keysAt_eq, ← hkey']
          exact List.map_append
        have hpriv : {x | x ∈ taken ++ [o]} = insert o {x | x ∈ taken} := by
          ext x
          simp [or_comm]
        have hpopping : Popping cfg prepared T d₁.store d₁.runtimeHeads
            (Function.update chains b (l ++ r)) (taken ++ [o])
            ⟨acc.encoded.set e.order (some (nodeAt d.store o).value),
              acc.detached ++ [⟨nodeAlloc cfg o, blob⟩]⟩ := by
          refine ⟨?_, ?_, htaken⟩
          · rw [hpriv]
            exact howned
          · have hunlink : content cfg d.store (Function.update chains
                (bucketOf cfg (d.store.slots o).key) (l ++ r)) = _ :=
              content_unlink (by rw [hbucket]; exact hc) rfl hl'
            rw [hbucket] at hunlink
            rw [content_same hsame fun _ _ _ => Set.mem_univ _, hunlink, h.content, hkey', hkeysAt,
              Buckets.dropAll_concat]
        have hkeep : ∀ key ∈ keysAt d.store taken, key ∈ keysAt d₁.store (taken ++ [o]) := by
          rw [hkeysAt]
          exact fun _ hk => List.mem_append_left _ hk
        by_cases hzero : remaining - 1 = 0
        · rw [if_pos hzero, wp_pure]
          refine ⟨hframe, _, _, _, rfl, hpopping, hkeep, ?_⟩
          intro e' he' hnot
          rw [hzero] at hrem'
          have hall := List.countP_eq_zero.mp hrem'.symm e' he'
          rw [htaken.pending (hsub e' he')] at hall
          exact absurd (decide_eq_true hnot) hall
        · rw [if_neg hzero, hnext]
          have hhead := expected_head (w := ⟨linkAfter b l, o, d.runtimeHeads b, remaining⟩) rfl rfl
            hchain (by simpa using howned.chain b)
          rw [hhead]
          have hl₁ : ∀ x ∈ l, ∀ e' ∈ g, e'.key ∉ keysAt d₁.store (taken ++ [o]) →
              (d₁.store.slots x).key ≠ e'.key := by
            intro x hx e' he' hnot
            rw [hsame.key (Set.mem_univ x)]
            exact hl x hx e' he' fun hmem => hnot (hkeep _ hmem)
          refine wp_mono (ih hpopping (by simp) hl₁ hrem' hfuel') ?_
          rintro res d' ⟨hframe', chains', taken', acc', rfl, hpop', hkeep', hdone⟩
          exact ⟨hframe.trans hframe', chains', taken', acc', rfl, hpop',
            fun k hk => hkeep' k (hkeep k hk), hdone⟩

/-- One bucket of `batch_pop` under its lock. -/
theorem popBucketBatch_spec (hr : cfg.Ready) (hp : Prepared cfg keys prepared)
    (hkeys : keys.Nodup) (hg : Group cfg b g) (hsub : ∀ e ∈ g, e ∈ prepared)
    (hb : b < cfg.bucketCount)
    (h : Popping cfg prepared T d.store d.runtimeHeads chains taken acc)
    (hf : v = .fair → m.Enough cfg) :
    (popBucketBatch cfg m b g m.fuel acc none).wp v t (fun res d' => Frame d d' ∧
      Drawn cfg prepared g T (keysAt d.store taken) res d'.store d'.runtimeHeads) d := by
  have hlen := h.owned.chain_length hr.valid b
  cases hfuel : m.fuel with
  | zero =>
    cases v with
    | fair => exact absurd (Machine.Enough.one hf rfl) (by omega)
    | any => exact rfl
  | succ fuel =>
    rw [popBucketBatch]
    by_cases hzero : (g.countP fun e => stillUnread acc.encoded[e.order]?) = 0
    · rw [if_pos hzero, wp_pure]
      refine ⟨rfl, chains, taken, acc, rfl, h, fun _ hk => hk, ?_⟩
      intro e he hnot
      have hall := List.countP_eq_zero.mp hzero e he
      rw [h.taken.pending (hsub e he)] at hall
      exact absurd (decide_eq_true hnot) hall
    · rw [if_neg hzero, wp_bind, wp_attempt, loadHead_spec hb, andThen_ok]
      dsimp only
      have hhead := (h.owned.chain b).head_eq
      nth_rewrite 1 [hhead]
      rw [← linkAfter_nil b]
      refine pop_rest hr hp hkeys hg hsub hb h (List.nil_append _).symm (by simp) rfl ?_ hf
      intro hv
      have henough := hf hv
      rw [Machine.Enough, hfuel] at henough
      exact Nat.le_of_succ_le_succ (Nat.le_trans (Nat.add_le_add hlen (by decide : 2 ≤ 4)) henough)

theorem popBuckets_spec (hr : cfg.Ready) (hp : Prepared cfg keys prepared)
    (hkeys : keys.Nodup) (hlocks : ∀ b, d.deleteLocks b = 0) (hf : v = .fair → m.Enough cfg)
    {groups : List (List PreparedKey)} (hruns : Runs prepared groups)
    (h : Popping cfg prepared T d.store d.runtimeHeads chains taken acc) :
    (popBuckets cfg m groups acc).wp v t (fun res d' => Frame d d' ∧
      Drawn cfg prepared groups.flatten T (keysAt d.store taken) res d'.store d'.runtimeHeads)
      d := by
  induction groups generalizing d chains taken acc with
  | nil => exact ⟨rfl, chains, taken, acc, rfl, h, fun _ hk => hk, by simp⟩
  | cons g groups ih =>
    cases g with
    | nil =>
      rw [popBuckets, List.flatten_cons, List.nil_append]
      exact ih hlocks hruns.tail h
    | cons first rest =>
      obtain ⟨hg, hmem⟩ := hruns.group hp
      have hb : first.bucket < cfg.bucketCount := by
        rw [← hg.home first (by simp)]
        exact bucketOf_lt hr.valid _
      rw [popBuckets, wp_bind, wp_attempt]
      refine wp_mono (wp_withDeleteLock hb hlocks (Machine.Enough.one hf)
        (P := fun res s heads =>
          Drawn cfg prepared (first :: rest) T (keysAt d.store taken) res s heads) ?_) ?_
      · exact popBucketBatch_spec (d := d.setLock first.bucket 1) hr hp hkeys hg hmem hb h hf
      · rintro _ d₁ ⟨hframe, chains₁, taken₁, acc₁, rfl, hpop₁, hkeep₁, hdone₁⟩
        rw [andThen_ok]
        dsimp only
        have hlocks₁ : ∀ b, d₁.deleteLocks b = 0 := by
          rw [Frame] at hframe
          rw [hframe]
          exact hlocks
        refine wp_mono (ih hlocks₁ hruns.tail hpop₁) ?_
        rintro _ d₂ ⟨hframe₂, chains₂, taken₂, acc₂, rfl, hpop₂, hkeep₂, hdone₂⟩
        refine ⟨hframe.trans hframe₂, chains₂, taken₂, acc₂, rfl, hpop₂,
          fun k hk => hkeep₂ k (hkeep₁ k hk), ?_⟩
        intro e he hnot
        rw [List.flatten_cons] at he
        rcases List.mem_append.mp he with he | he
        · exact hdone₁ e he fun hmem => hnot (hkeep₂ _ hmem)
        · exact hdone₂ e he hnot

/-- Detached nodes that are still to be released: their places and their blobs. -/
structure Detached (cfg : Config) (d₀ : Db) (chains : Nat → List Nat) (nodes : List DetachedNode)
    (d : Db) : Prop where
  frame : Frame d₀ d
  same : Same cfg (nodesOf chains ∅) d₀.store d.store
  places : ∃ places : List Nat, places.Nodup ∧
    Owned cfg d.store d.runtimeHeads chains {o | o ∈ places} ∅ ∅ ∧
    List.Forall₂ (fun o x => x.body = nodeAlloc cfg o ∧
      optSet x.blob = blobSet cfg d.store (d.store.slots o).value) places nodes

theorem releaseDetached_all (hr : cfg.Ready) {nodes : List DetachedNode}
    (h : Detached cfg d chains nodes d) (hf : v = .fair → m.Enough cfg) :
    (eachFirstError (releaseDetached cfg m) nodes).wp v t (fun res d' => res = .ok () ∧
      Detached cfg d chains [] d') d := by
  refine eachFirstError_spec (I := Detached cfg d chains) ?_ h
  rintro x rest d₁ ⟨hframe, hsame, places, hnd, howned, hrel⟩
  cases hrel with
  | cons hx hrest =>
    rename_i o places
    obtain ⟨body, blob⟩ := x
    obtain ⟨hbody, hset⟩ := hx
    obtain rfl : body = nodeAlloc cfg o := hbody
    obtain ⟨hnot, hnd'⟩ := List.nodup_cons.mp hnd
    refine wp_mono (releaseDetached_spec hr howned (by simp) hset hf) ?_
    rintro _ d₂ ⟨rfl, hframe₂, howned₂, hsame₂⟩
    rw [show {y | y ∈ o :: places} \ {o} = {y | y ∈ places} from cons_sdiff hnd] at howned₂
    refine ⟨rfl, hframe.trans hframe₂, hsame.trans (hsame₂.mono ?_), places, hnd', howned₂, ?_⟩
    · intro y hy
      refine ⟨nodesOf_subset hy, ?_⟩
      rintro rfl
      rcases hy with ⟨b, hy⟩ | hy
      · exact howned.priv_free b y hy (by simp)
      · exact hy
    · refine List.Forall₂.imp ?_ ((List.forall₂_and_left (p := fun y => y ∈ places) _ _).mpr
        ⟨fun _ hy => hy, hrest⟩)
      rintro y z ⟨hy, hbody, hset⟩
      have hmem : y ∈ nodesOf chains {y | y ∈ o :: places} := Or.inr (List.mem_cons_of_mem _ hy)
      have hne : y ≠ o := fun heq => hnot (heq ▸ hy)
      refine ⟨hbody, ?_⟩
      rw [hsame₂.blobSet_eq ⟨hmem, hne⟩ (howned.heap.entry y hmem)]
      exact hset

/-- The detached node of a key holds the newest value of its stack. -/
theorem lookupWord_value (h : Taken cfg prepared T s taken acc) {key : Key}
    (hdone : key ∉ keysAt s taken → Buckets.stack (bucketOf cfg) T key = []) :
    (lookupWord s taken key).map (valueAt cfg s) =
      (Buckets.stack (bucketOf cfg) T key).head? := by
  by_cases hk : key ∈ keysAt s taken
  · cases hfind : taken.find? fun o => (s.slots o).key = key with
    | none => exact absurd (lookupWord_none.mp (by rw [lookupWord, hfind]; rfl)) (not_not.mpr hk)
    | some o =>
      have hkey : (s.slots o).key = key := by simpa using List.find?_some hfind
      have htop := h.tops o (List.mem_of_find?_eq_some hfind)
      rw [hkey] at htop
      rw [lookupWord, hfind, htop]
      rfl
  · rw [lookupWord_none.mpr hk, hdone hk]
    rfl

theorem batchPop_spec (hr : cfg.Ready) (hi : Idle d) (h : Holds cfg d.store d.runtimeHeads T)
    (hmode : cfg.mode = .map) {input : List (List UInt8)} (hinput : validateKeys input = .ok keys)
    (hkeys : keys.Nodup) (hf : v = .fair → m.Enough cfg) :
    (batchPop cfg m input).wp v t (fun res d' => Frame d d' ∧
      (res = .ok (keys.map fun key => (Buckets.stack (bucketOf cfg) T key).head?) ∧
        Removed cfg T keys d'.store d'.runtimeHeads)) d := by
  obtain ⟨chains, howned, hT⟩ := h
  have hp := prepared_sorted cfg keys
  refine wp_operation hi.quiescence (P := fun res s heads => res = _ ∧ Removed cfg T keys s heads) ?_
  rw [requireMode_ok hmode, wp_bind, wp_ofExcept, andThen_ok, prepareKeys_eq hinput, wp_bind,
    wp_ofExcept, andThen_ok, validateUniqueBatchKeys_eq hp, if_pos hkeys, wp_bind, wp_ofExcept,
    andThen_ok, wp_bind, popOperation, wp_bind]
  generalize hprep : (preparedKeys cfg keys).mergeSort PreparedKey.le = prepared at hp ⊢
  have hstart : Popping cfg prepared T d.store d.runtimeHeads chains []
      ⟨List.replicate prepared.length none, []⟩ := by
    refine ⟨?_, hT, List.length_replicate, ?_, List.nodup_nil, by simp [keysAt], by simp, .nil⟩
    · simpa using howned
    · intro e he
      rw [List.getElem?_replicate, if_pos (hp.order_lt he)]
      rfl
  refine wp_mono (popBuckets_spec (d := { d with quiescence := ⟨[t], none⟩ }) hr hp hkeys hi.locks
    hf (runs_bucketGroups _) hstart) ?_
  rintro _ d₁ ⟨hframe, chains₁, taken, acc, rfl, hpop, -, hdone⟩
  rw [bucketGroups, List.flatten_splitBy] at hdone
  have hmem : ∀ key, key ∈ keys ↔ key ∈ prepared.map (·.key) := fun key => hp.perm.mem_iff.symm
  have hdone' : ∀ key ∈ keys, key ∉ keysAt d₁.store taken →
      Buckets.stack (bucketOf cfg) T key = [] := by
    intro key hkey hnot
    obtain ⟨e, he, rfl⟩ := List.mem_map.mp ((hmem key).mp hkey)
    exact hdone e he hnot
  have hencoded : acc.encoded = keys.map (lookupWord d₁.store taken) :=
    hp.collect hpop.taken.length hpop.taken.words
  rw [andThen_ok]
  dsimp only
  rw [wp_bind, wp_attempt]
  refine materializeValues_spec hr hpop.owned.heap hmode ?_ ?_
  · intro word hword
    rw [hencoded] at hword
    obtain ⟨key, -, hkey⟩ := List.mem_map.mp hword
    rw [lookupWord, Option.map_eq_some_iff] at hkey
    obtain ⟨o, hfind, rfl⟩ := hkey
    exact ⟨o, Or.inr (List.mem_of_find?_eq_some hfind), rfl⟩
  · have hplaces : taken.Nodup := List.Nodup.of_map _ hpop.taken.nodup
    have hdetached : Detached cfg d₁ chains₁ acc.detached.reverse d₁ := by
      refine ⟨rfl, .refl cfg _ _, taken.reverse, List.nodup_reverse.mpr hplaces, ?_,
        List.rel_reverse hpop.taken.detached⟩
      simpa using hpop.owned
    rw [andThen_ok, wp_pure, andThen_ok, wp_bind, wp_attempt]
    refine wp_mono (releaseDetached_all hr hdetached hf) ?_
    rintro _ d₂ ⟨rfl, hframe₂, hsame₂, places, -, howned₂, hrel⟩
    cases hrel
    have hempty : {o | o ∈ ([] : List Nat)} = (∅ : Set Nat) := by
      ext o
      simp
    rw [hempty] at howned₂
    refine ⟨hframe.trans hframe₂, ?_, _, ⟨chains₁, howned₂, rfl⟩, ?_⟩
    · rw [hencoded, List.map_map]
      exact congrArg Except.ok (List.map_congr_left fun key hkey =>
        lookupWord_value hpop.taken (hdone' key hkey))
    · rw [content_same hsame₂ fun b o ho => mem_nodesOf ho, hpop.content]
      exact stack_removed hpop.taken.nodup hkeys
        (fun key hk => (hmem key).mpr (hpop.taken.known key hk)) hdone'

end Pop

end FlorestaDb
