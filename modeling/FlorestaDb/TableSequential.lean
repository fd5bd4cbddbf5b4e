import FlorestaDb.Chains

/-! The scalar operations in a sequential run: what each call does to the chains. -/
namespace FlorestaDb
open Program Program.Prog Allocator Chain

variable {cfg : Config} {m : Machine} {v : Env} {t : Tid} {d : Db} {chains : Nat → List Nat}
  {priv : Set Nat} {bare bareBlobs : Set Allocation} {b o fuel : Nat} {l r : List Nat} {key : Key}

/-- Fuel for the longest possible chain and the allocator's retries. -/
def Machine.Enough (m : Machine) (cfg : Config) : Prop := cfg.bodyCapacity / nodeSize + 4 ≤ m.fuel

theorem Machine.Enough.three {m : Machine} (h : v = .fair → m.Enough cfg) :
    v = .fair → 3 ≤ m.fuel := fun hv =>
  Nat.le_trans (Nat.le_trans (by decide) (Nat.le_add_left 4 _)) (h hv)

theorem Machine.Enough.one {m : Machine} (h : v = .fair → m.Enough cfg) :
    v = .fair → 1 ≤ m.fuel := fun hv => Nat.le_trans (by decide) (Machine.Enough.three h hv)

section Lookup

/-- The node read at `o`. -/
def nodeAt (s : Store) (o : Nat) : Node :=
  ⟨o, (s.slots o).next, (s.slots o).value, (s.slots o).key⟩

theorem observe_spec (hr : cfg.Ready) (h : Owned cfg d.store d.runtimeHeads chains priv bare bareBlobs)
    (hb : b < cfg.bucketCount) (hc : chains b = l ++ o :: r)
    {Q : Except Error (Option Node) → Db → Prop} (hQ : Q (.ok (some (nodeAt d.store o))) d) :
    (observe cfg (linkAfter b l) o).wp v t Q d := by
  have ho : o ∈ chains b := by simp [hc]
  have hn := h.liveNode ho
  rw [observe, wp_bind, wp_onStore]
  refine readNode_spec hr.valid h.heap.body hn (h.heap.entry o (mem_nodesOf ho)).checksum ?_
  rw [andThen_ok, wp_bind, linkValue_spec hr h hb hc, andThen_ok, if_neg (by simp), wp_bind,
    wp_onStore, readNext_spec hr.valid h.heap.body hn, andThen_ok, if_neg (by simp)]
  exact hQ

/-- Where the first node of `key` stands in its chain. -/
inductive Lookup (d : Db) (chains : Nat → List Nat) (b : Nat) (key : Key) : Found → Prop where
  | found (l r : List Nat) (o : Nat) (hc : chains b = l ++ o :: r)
      (hkey : (d.store.slots o).key = key) (hl : ∀ x ∈ l, (d.store.slots x).key ≠ key) :
      Lookup d chains b key ⟨some (nodeAt d.store o), d.runtimeHeads b, linkAfter b l⟩
  | absent (hl : ∀ x ∈ chains b, (d.store.slots x).key ≠ key) :
      Lookup d chains b key ⟨none, d.runtimeHeads b, linkAfter b (chains b)⟩

/-- The rest of a traversal that has passed the places `l`. -/
theorem find_rest (hr : cfg.Ready) (h : Owned cfg d.store d.runtimeHeads chains priv bare bareBlobs)
    (hb : b < cfg.bucketCount) (hc : chains b = l ++ r)
    (hl : ∀ x ∈ l, (d.store.slots x).key ≠ key) (hf : v = .fair → r.length + 1 ≤ fuel)
    {Q : Except Error Found → Db → Prop} (hQ : ∀ f, Lookup d chains b key f → Q (.ok f) d) :
    (find cfg b (hashOf cfg key) key fuel
      (some ⟨d.runtimeHeads b, linkAfter b l, r.headD 0⟩)).wp v t Q d := by
  induction r generalizing l fuel with
  | nil =>
    cases fuel with
    | zero =>
      cases v with
      | fair => exact absurd (hf rfl) (by simp)
      | any => exact rfl
    | succ fuel =>
      rw [List.append_nil] at hc
      subst hc
      rw [find]
      dsimp only
      rw [if_pos List.headD_nil, wp_bind, loadHead_spec hb, andThen_ok, if_neg (by simp), wp_pure]
      exact hQ _ (.absent hl)
  | cons o r ih =>
    cases fuel with
    | zero =>
      cases v with
      | fair => exact absurd (hf rfl) (by simp)
      | any => exact rfl
    | succ fuel =>
      have ho : o ∈ chains b := by simp [hc]
      have hne : ¬o = 0 := (h.chain b).ne_zero o ho
      rw [find]
      dsimp only
      rw [List.headD_cons, if_neg hne, wp_bind]
      refine observe_spec hr h hb hc ?_
      rw [andThen_ok]
      by_cases hkey : (d.store.slots o).key = key
      · have hmatch : hashOf cfg (nodeAt d.store o).key = hashOf cfg key ∧
            (nodeAt d.store o).key = key := ⟨congrArg _ hkey, hkey⟩
        dsimp only
        rw [if_pos hmatch, wp_pure]
        exact hQ _ (.found l r o hc hkey hl)
      · have hmiss : ¬(hashOf cfg (nodeAt d.store o).key = hashOf cfg key ∧
            (nodeAt d.store o).key = key) := fun hm => hkey hm.2
        dsimp only
        rw [if_neg hmiss]
        have hchain := h.chain b
        rw [hc] at hchain
        have hnext : (nodeAt d.store o).next = r.headD 0 := hchain.split.2.2.head_eq
        rw [hnext, ← linkAfter_append b l o]
        refine ih (by simp [hc]) ?_ fun hv => by have := hf hv; simp at this; omega
        intro x hx
        rcases List.mem_append.mp hx with hx | hx
        · exact hl x hx
        · rw [List.mem_singleton.mp hx]
          exact hkey

theorem find_spec (hr : cfg.Ready) (h : Owned cfg d.store d.runtimeHeads chains priv bare bareBlobs)
    (hb : b < cfg.bucketCount) (hf : v = .fair → m.Enough cfg)
    {Q : Except Error Found → Db → Prop} (hQ : ∀ f, Lookup d chains b key f → Q (.ok f) d) :
    (find cfg b (hashOf cfg key) key m.fuel none).wp v t Q d := by
  have hlen := h.chain_length hr.valid b
  cases hfuel : m.fuel with
  | zero =>
    cases v with
    | fair => exact absurd (Machine.Enough.one hf rfl) (by omega)
    | any => exact rfl
  | succ fuel =>
    rw [find, wp_bind, linkValue, loadHead_spec hb, andThen_ok]
    have hhead := (h.chain b).head_eq
    nth_rewrite 2 [hhead]
    rw [← linkAfter_nil b]
    refine find_rest hr h hb (List.nil_append _).symm (by simp) ?_ hQ
    intro hv
    have henough := hf hv
    rw [Machine.Enough, hfuel] at henough
    exact Nat.le_of_succ_le_succ (Nat.le_trans (Nat.add_le_add hlen (by decide : 2 ≤ 4)) henough)

end Lookup

section Unlink

theorem union_singleton_list (priv : Set Nat) (o : Nat) :
    priv \ {x | x ∈ ([] : List Nat)} ∪ {x | x ∈ [o]} = insert o priv := by
  ext x
  simp [or_comm]

theorem nodesOf_insert (chains : Nat → List Nat) (priv : Set Nat) (o : Nat) :
    nodesOf chains (insert o priv) = insert o (nodesOf chains priv) := by
  ext x
  simp only [nodesOf, Set.mem_ofPred_eq, Set.mem_insert_iff]
  constructor
  · rintro (hx | rfl | hx)
    · exact Or.inr (Or.inl hx)
    · exact Or.inl rfl
    · exact Or.inr (Or.inr hx)
  · rintro (rfl | hx | hx)
    · exact Or.inr (Or.inl rfl)
    · exact Or.inl hx
    · exact Or.inr (Or.inr hx)

/-- Outside the chains the private nodes are all there is to remove. -/
theorem nodesOf_erase (hfree : ∀ b, ∀ x ∈ chains b, x ≠ o) :
    nodesOf chains (priv \ {o}) = nodesOf chains priv \ {o} := by
  ext x
  simp only [nodesOf, Set.mem_ofPred_eq, Set.mem_sdiff, Set.mem_singleton_iff]
  constructor
  · rintro (⟨b, hx⟩ | ⟨hx, hne⟩)
    · exact ⟨Or.inl ⟨b, hx⟩, hfree b x hx⟩
    · exact ⟨Or.inr hx, hne⟩
  · rintro ⟨hx | hx, hne⟩
    · exact Or.inl hx
    · exact Or.inr ⟨hx, hne⟩

/-- A private node that the store has dropped. -/
theorem Owned.drop {s s' : Store} {heads : Nat → Nat}
    (h : Owned cfg s heads chains priv bare bareBlobs) (ho : o ∈ priv)
    (hdrop : Dropped cfg s s' (nodesOf chains priv) bare bareBlobs o) :
    Owned cfg s' heads chains (priv \ {o}) bare bareBlobs := by
  have hfree : ∀ b, ∀ x ∈ chains b, x ≠ o := by
    rintro b x hx rfl
    exact h.priv_free b x hx ho
  obtain ⟨hheap, hkeep⟩ := hdrop
  rw [← nodesOf_erase hfree] at hheap
  refine h.setStore ?_ hheap fun b x hx hp => h.priv_free b x hx hp.1
  intro b x hx
  exact (hkeep x ⟨mem_nodesOf hx, hfree b x hx⟩).1

theorem releaseDetached_spec (hr : cfg.Ready) (h : Owned cfg d.store d.runtimeHeads chains priv bare bareBlobs)
    (ho : o ∈ priv) {blob : Option Allocation}
    (hset : optSet blob = blobSet cfg d.store (d.store.slots o).value)
    (hf : v = .fair → m.Enough cfg) :
    (releaseDetached cfg m ⟨nodeAlloc cfg o, blob⟩).wp v t (fun res d' => res = .ok () ∧
      Frame d d' ∧ Owned cfg d'.store d'.runtimeHeads chains (priv \ {o}) bare bareBlobs ∧
      Same cfg (nodesOf chains priv \ {o}) d.store d'.store) d := by
  have hN : o ∈ nodesOf chains priv := Or.inr ho
  have hn := h.heap.liveNode hN
  have hlive : ∀ x ∈ optSet blob, x ∈ d.store.blobs.live := by
    rw [hset]
    exact blobSet_live h.heap hN
  have hn' : LiveNode cfg d.store (nodeAlloc cfg o).offset := hn
  have hf' := Machine.Enough.one hf
  rw [releaseDetached, wp_bind, wp_onStore, tombstoneNode_spec hr.valid h.heap.body hn',
    andThen_ok, wp_bind, wp_onStore]
  refine wp_mono (releaseIfBlob_spec hr (by exact h.heap.blobs) hlive hf') ?_
  rintro _ s₁ ⟨rfl, e, rfl, hq', hl'⟩
  rw [andThen_ok, wp_onStore, wp_onBody]
  refine wp_mono (releaseCount_spec hr.valid.bodyLayout_ok h.heap.body hn.live hf') ?_
  rintro _ c ⟨rfl, hq, hl, -, -⟩
  have hdrop := h.heap.drop hN hset hq hl hq' hl'
  exact ⟨rfl, rfl, h.drop ho hdrop, hdrop.2.same⟩

/-- Taking the node at `o` out of its chain: it is private from then on. -/
theorem exchangeOut_spec (hr : cfg.Ready) (h : Owned cfg d.store d.runtimeHeads chains priv bare bareBlobs)
    (hc : chains b = l ++ o :: r) :
    (compareExchangeLink cfg (linkAfter b l) o (nodeAt d.store o).next).wp v t (fun res d' =>
      res = .ok true ∧ Frame d d' ∧
      Owned cfg d'.store d'.runtimeHeads (Function.update chains b (l ++ r)) (insert o priv) bare bareBlobs ∧
      Same cfg Set.univ d.store d'.store) d := by
  have hb := h.bucket_lt hr.valid (show o ∈ chains b by simp [hc])
  have hchain := h.chain b
  rw [hc] at hchain
  have hnext : (nodeAt d.store o).next = r.headD 0 := hchain.split.2.2.head_eq
  have hswing := compareExchangeLink_spec (v := v) (t := t) (l := l) (r := r) (w := []) hr h hb
    (show chains b = l ++ ([o] ++ r) from hc) rfl (by simp) (by simp)
  rw [union_singleton_list] at hswing
  rw [hnext]
  refine wp_mono hswing ?_
  rintro res d' ⟨rfl, hswung, howned⟩
  exact ⟨rfl, hswung.frame, howned, hswung.same⟩

theorem detachLink_spec (hr : cfg.Ready) (h : Owned cfg d.store d.runtimeHeads chains priv bare bareBlobs)
    (hc : chains b = l ++ o :: r) (hf : v = .fair → m.Enough cfg) :
    (detachLink cfg m (linkAfter b l) (nodeAt d.store o)).wp v t (fun res d' =>
      (∃ blob, res = .ok ⟨nodeAlloc cfg o, blob⟩ ∧
        optSet blob = blobSet cfg d'.store (d'.store.slots o).value) ∧
      Frame d d' ∧ Owned cfg d'.store d'.runtimeHeads (Function.update chains b (l ++ r)) (insert o priv) bare bareBlobs ∧
      Same cfg Set.univ d.store d'.store) d := by
  have hN : o ∈ nodesOf chains priv := mem_nodesOf (show o ∈ chains b by simp [hc])
  rw [detachLink, wp_bind, wp_onStore]
  refine wp_mono (nodeAllocations_spec hr h.heap hN (Machine.Enough.one hf)) ?_
  rintro _ _ ⟨rfl, blob, rfl, hset⟩
  rw [andThen_ok, wp_bind]
  refine wp_mono (exchangeOut_spec hr h hc) ?_
  rintro _ d' ⟨rfl, hframe, howned, hsame⟩
  refine ⟨⟨blob, rfl, hset.trans ?_⟩, hframe, howned, hsame⟩
  exact (hsame.blobSet_eq (Set.mem_univ o) (h.heap.entry o hN)).symm

/-- The chain and the private nodes without the node at `o`. -/
theorem nodesOf_unlink {s : Store} {heads : Nat → Nat}
    (h : Owned cfg s heads chains priv bare bareBlobs)
    (hc : chains b = l ++ o :: r) :
    nodesOf (Function.update chains b (l ++ r)) priv = nodesOf chains priv \ {o} := by
  have ho : o ∈ chains b := by simp [hc]
  have hnd := (h.chain b).nodup
  rw [hc] at hnd
  ext x
  simp only [nodesOf, Set.mem_ofPred_eq, mem_update_chains, Set.mem_sdiff, Set.mem_singleton_iff,
    List.mem_append]
  constructor
  · rintro (⟨b', ⟨rfl, hx⟩ | ⟨hb, hx⟩⟩ | hx)
    · refine ⟨Or.inl ⟨b', by rcases hx with hx | hx <;> simp [hc, hx]⟩, ?_⟩
      rintro rfl
      simp only [List.nodup_append, List.nodup_cons, List.mem_cons] at hnd
      rcases hx with hx | hx
      · exact hnd.2.2 x hx x (Or.inl rfl) rfl
      · exact hnd.2.1.1 hx
    · refine ⟨Or.inl ⟨b', hx⟩, ?_⟩
      rintro rfl
      exact hb (h.bucket_unique ho hx)
    · refine ⟨Or.inr hx, ?_⟩
      rintro rfl
      exact h.priv_free b x ho hx
  · rintro ⟨⟨b', hx⟩ | hx, hne⟩
    · by_cases hb : b' = b
      · subst hb
        simp only [hc, List.mem_append, List.mem_cons] at hx
        rcases hx with hx | hx | hx
        · exact Or.inl ⟨b', Or.inl ⟨rfl, Or.inl hx⟩⟩
        · exact absurd hx hne
        · exact Or.inl ⟨b', Or.inl ⟨rfl, Or.inr hx⟩⟩
      · exact Or.inl ⟨b', Or.inr ⟨hb, hx⟩⟩
    · exact Or.inr hx

theorem unlinkLink_spec (hr : cfg.Ready) (h : Owned cfg d.store d.runtimeHeads chains priv bare bareBlobs)
    (hc : chains b = l ++ o :: r) (hf : v = .fair → m.Enough cfg) :
    (unlinkLink cfg m (linkAfter b l) (nodeAt d.store o)).wp v t (fun res d' => res = .ok () ∧
      Frame d d' ∧ Owned cfg d'.store d'.runtimeHeads (Function.update chains b (l ++ r)) priv bare bareBlobs ∧
      Same cfg (nodesOf chains priv \ {o}) d.store d'.store) d := by
  have hnp : o ∉ priv := h.priv_free b o (by simp [hc])
  have hN : o ∈ nodesOf chains priv := mem_nodesOf (show o ∈ chains b by simp [hc])
  rw [unlinkLink, wp_bind, wp_onStore]
  refine wp_mono (nodeAllocations_spec hr h.heap hN (Machine.Enough.one hf)) ?_
  rintro _ _ ⟨rfl, blob, rfl, hset⟩
  rw [andThen_ok, wp_bind]
  refine wp_mono (exchangeOut_spec hr h hc) ?_
  rintro _ d₁ ⟨rfl, hframe, howned, hsame⟩
  change Owned cfg d₁.store d₁.runtimeHeads (Function.update chains b (l ++ r)) (insert o priv) bare bareBlobs at howned
  have hset' := hset.trans (hsame.blobSet_eq (Set.mem_univ o) (h.heap.entry o hN)).symm
  -- what follows the exchange is `release_detached` on the node just taken out
  refine wp_mono (releaseDetached_spec hr howned (Set.mem_insert o priv) hset' hf) ?_
  rintro _ d₂ ⟨rfl, hframe₂, howned₂, hsame₂⟩
  rw [Set.insert_sdiff_self_of_notMem hnp] at howned₂
  rw [nodesOf_insert, nodesOf_unlink h hc, Set.insert_sdiff_singleton,
    Set.insert_eq_of_mem hN] at hsame₂
  exact ⟨rfl, hframe.trans hframe₂, howned₂, (hsame.mono (Set.subset_univ _)).trans hsame₂⟩

end Unlink

end FlorestaDb
