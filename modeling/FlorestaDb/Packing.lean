import FlorestaDb.AllocatorCalls
import FlorestaDb.Lib.NextFit
import Mathlib.Algebra.Order.BigOperators.Group.List
import Mathlib.Algebra.Order.Group.Nat
import Mathlib.Data.List.Perm.Subperm

/-! How an allocator packs its pages. A page holds a stretch of the allocation order, so the
allocations that survive can be packed anew, in the same order, into no more pages. -/
namespace FlorestaDb.Allocator
open Program Program.Prog NextFit

variable {L : Layout} {c c' : Cells} {length alignment : Nat} {x : Allocation}

/-- The items fit, in this order, into the pages of the layout. -/
def Packs (L : Layout) (alignment : Nat) (items : List Nat) : Prop :=
  ∃ pages : List (List Nat), pages.flatten = items ∧ pages.length ≤ L.blockCount ∧
    ∀ page ∈ pages, Fits (alignedStart · alignment) L.blockSize maxLive page

theorem alignedStart_mono (alignment : Nat) : Monotone (alignedStart · alignment) := by
  intro a b h
  exact Nat.mul_le_mul_right _ (Nat.div_le_div_right (Nat.add_le_add_right h _))

theorem le_alignedStart (hpos : 0 < alignment) (used : Nat) : used ≤ alignedStart used alignment :=
  (roundUp_bounds used hpos).1

/-- A page with room takes the item, a full one does not. -/
theorem fits_append {page : List Nat} :
    Fits (alignedStart · alignment) L.blockSize maxLive (page ++ [length]) ↔
      alignedStart (filled (alignedStart · alignment) 0 page) alignment + length ≤ L.blockSize ∧
        page.length + 1 ≤ maxLive := by
  have hfilled : filled (alignedStart · alignment) 0 (page ++ [length]) =
      alignedStart (filled (alignedStart · alignment) 0 page) alignment + length := by
    rw [filled_append]
    rfl
  constructor
  · intro h
    have h1 := h.filled_le
    have h2 := h.length_le
    rw [hfilled] at h1
    rw [List.length_append, List.length_singleton] at h2
    exact ⟨h1, h2⟩
  · intro h
    refine ⟨?_, ?_⟩
    · rw [hfilled]
      exact h.1
    · rw [List.length_append, List.length_singleton]
      exact h.2

theorem OpenPage.of_word {b used live : Nat} (hq : Quiet L c) (hb : c.currentBlock = b + 1)
    (hlive : live ≤ maxLive) (hw : packCurrent .opened used live = .ok c.currentWord) :
    OpenPage L c b used live := by
  cases hq.current with
  | closed hc _ => exact absurd (hc.symm.trans hb) (Nat.succ_ne_zero b).symm
  | opened b' used' live' ho =>
    have hbb : b' = b := Nat.succ.inj (ho.block.symm.trans hb)
    subst hbb
    have hl : live < 2 ^ 16 := Nat.lt_of_le_of_lt hlive (by decide)
    have hl' : live' < 2 ^ 16 := Nat.lt_of_le_of_lt ho.live_le (by decide)
    have h1 := (currentUsed_pack hl hw).symm.trans (currentUsed_pack hl' ho.word)
    have h2 := (currentLive_pack hl hw).symm.trans (currentLive_pack hl' ho.word)
    rw [h1, h2]
    exact ho

/-- The page a fresh allocation lies in is open behind it. -/
theorem Fresh.opened (hq' : Quiet L c') (h : Fresh L length alignment c c' x) :
    ∃ c₁ used held, Turned L length alignment c c₁ x.block used held ∧
      x.offset = pageStart L x.block + alignedStart used alignment ∧
      OpenPage L c' x.block (alignedStart used alignment + length) (held + 1) := by
  obtain ⟨c₁, used, held, word, hturn, hoff, hword, hc'⟩ := h.place
  refine ⟨c₁, used, held, hturn, hoff, ?_⟩
  have hroom := hturn.room
  have hle := hturn.page.live_le
  rw [PageFull, not_or] at hroom
  refine OpenPage.of_word hq' ?_ ?_ ?_
  · rw [hc']
    exact hturn.page.block
  · omega
  · rw [hc']
    exact hword

section Filled

/- The state of a new allocator after allocations only: the lengths of the items in the
   closed pages and in the open one. -/
structure Filled (L : Layout) (alignment : Nat) (c : Cells) (pages : List (List Nat))
    (page : List Nat) : Prop where
  quiet : Quiet L c
  lengths : c.live.reverse.map Allocation.length = pages.flatten ++ page
  blocks : ∃ closed : List Nat, closed.length = pages.length ∧
    ∀ y ∈ c.live, y.block ∈ closed ∨ c.currentBlock = y.block + 1
  start : page = [] → pages = [] ∧ c.currentBlock = 0
  greedy : ∀ y rest, page = y :: rest →
    Greedy (alignedStart · alignment) L.blockSize maxLive pages y
  opened : page ≠ [] → ∃ b, OpenPage L c b (filled (alignedStart · alignment) 0 page) page.length

theorem filled_created (L : Layout) (alignment : Nat) :
    Filled L alignment Cells.created [] [] where
  quiet := quiet_created L
  lengths := rfl
  blocks := ⟨[], rfl, fun _ hy => absurd hy List.not_mem_nil⟩
  start := fun _ => ⟨rfl, rfl⟩
  greedy := fun _ _ h => by cases h
  opened := fun h => absurd rfl h

variable {pages : List (List Nat)} {page : List Nat}

/-- The open page has no room: no more than it holds fits into one page. -/
theorem Filled.closes (h : Filled L alignment c pages page) {y : Nat} {rest : List Nat}
    (hpage : page = y :: rest) (hfull : NoRoom L length alignment c) :
    Greedy (alignedStart · alignment) L.blockSize maxLive (pages ++ [page]) length := by
  obtain ⟨b, ho⟩ := h.opened (by rw [hpage]; exact List.cons_ne_nil y rest)
  have hnot : ¬Fits (alignedStart · alignment) L.blockSize maxLive (page ++ [length]) := by
    rw [fits_append]
    rcases hfull b _ _ ho with hlarge | hmany
    · omega
    · omega
  have hgreedy := h.greedy y rest hpage
  rw [hpage] at hnot ⊢
  exact hgreedy.append hnot

theorem Filled.fresh (h : Filled L alignment c pages page) (hq' : Quiet L c')
    (hx : Fresh L length alignment c c' x) :
    ∃ pages' page', Filled L alignment c' pages' page' ∧
      pages'.flatten ++ page' = pages.flatten ++ page ++ [length] := by
  obtain ⟨c₁, used, held, hturn, -, ho⟩ := hx.opened hq'
  have hlengths : c'.live.reverse.map Allocation.length = pages.flatten ++ page ++ [length] := by
    rw [hx.live, List.reverse_cons, List.map_append, h.lengths]
    simp [hx.length_eq]
  obtain ⟨closed, hclosed, hblocks⟩ := h.blocks
  rcases hturn.origin with rfl | ⟨hu, hl, hfull⟩
  · -- the open page goes on
    have hne : page ≠ [] := by
      intro hnil
      exact absurd ((h.start hnil).2.symm.trans hturn.page.block) (Nat.succ_ne_zero _).symm
    obtain ⟨b, hopen⟩ := h.opened hne
    obtain ⟨rfl, rfl⟩ := hturn.page.unique hopen
    refine ⟨pages, page ++ [length], ⟨hq', ?_, ?_, ?_, ?_, ?_⟩, by rw [List.append_assoc]⟩
    · rw [hlengths, List.append_assoc]
    · refine ⟨closed, hclosed, ?_⟩
      intro y hy
      rw [hx.live] at hy
      rcases List.mem_cons.mp hy with rfl | hold
      · exact Or.inr ho.block
      · rcases hblocks y hold with hin | hcur
        · exact Or.inl hin
        · exact Or.inr (ho.block.trans (hturn.page.block.symm.trans hcur))
    · intro hnil
      simp at hnil
    · intro y rest heq
      cases hpage : page with
      | nil => exact absurd hpage hne
      | cons z zs =>
        rw [hpage, List.cons_append] at heq
        obtain ⟨rfl, -⟩ := List.cons.inj heq
        exact h.greedy z zs hpage
    · intro _
      refine ⟨x.block, ?_⟩
      rw [filled_append, List.length_append, List.length_singleton]
      exact ho
  · -- a new page is opened, behind the full one if there was one
    subst hu hl
    have hnew : OpenPage L c' x.block (filled (alignedStart · alignment) 0 [length]) 1 := ho
    cases hpage : page with
    | nil =>
      obtain ⟨rfl, hcur⟩ := h.start hpage
      refine ⟨[], [length], ⟨hq', ?_, ?_, fun hnil => by simp at hnil, fun _ _ _ => trivial,
        fun _ => ⟨x.block, hnew⟩⟩, rfl⟩
      · rw [hlengths, hpage]
        rfl
      · refine ⟨[], rfl, ?_⟩
        intro y hy
        rw [hx.live] at hy
        rcases List.mem_cons.mp hy with rfl | hold
        · exact Or.inr ho.block
        · have hnone := h.lengths
          rw [hpage] at hnone
          simp only [List.flatten_nil, List.append_nil, List.map_eq_nil_iff,
            List.reverse_eq_nil_iff] at hnone
          rw [hnone] at hold
          exact absurd hold List.not_mem_nil
    | cons z zs =>
      obtain ⟨b, hopen⟩ := h.opened (by rw [hpage]; exact List.cons_ne_nil z zs)
      have hgreedy := h.closes hpage hfull
      rw [hpage] at hgreedy
      refine ⟨pages ++ [z :: zs], [length], ⟨hq', ?_, ?_, fun hnil => by simp at hnil, ?_,
        fun _ => ⟨x.block, hnew⟩⟩, by simp⟩
      · rw [hlengths, hpage]
        simp
      · refine ⟨closed ++ [b], by simp [hclosed], ?_⟩
        intro y hy
        rw [hx.live] at hy
        rcases List.mem_cons.mp hy with rfl | hold
        · exact Or.inr ho.block
        · refine Or.inl (List.mem_append.mpr ?_)
          rcases hblocks y hold with hin | hcur
          · exact Or.inl hin
          · have hb : b = y.block := Nat.succ.inj (hopen.block.symm.trans hcur)
            exact Or.inr (List.mem_singleton.mpr hb.symm)
      · intro y rest heq
        obtain ⟨rfl, -⟩ := List.cons.inj heq
        exact hgreedy

/-- A new allocator has a page for every item of a sequence that fits its layout. -/
theorem Filled.not_stuck (hL : L.Ok) (hpos : 0 < alignment) {rest : List Nat}
    (h : Filled L alignment c pages page)
    (hpacks : Packs L alignment (pages.flatten ++ page ++ length :: rest)) :
    ¬Stuck L length alignment c := by
  rintro ⟨hall, hfull⟩
  obtain ⟨others, hflat, hcount, hfits⟩ := hpacks
  obtain ⟨closed, hclosed, hblocks⟩ := h.blocks
  have hlive : ∀ p < L.blockCount, ∃ y ∈ c.live, y.block = p := by
    intro p hp
    have hne := Nat.pos_of_ne_zero (hall p hp)
    rw [liveIn, List.countP_pos_iff] at hne
    obtain ⟨y, hy, heq⟩ := hne
    exact ⟨y, hy, of_decide_eq_true heq⟩
  cases hpage : page with
  | nil =>
    obtain ⟨y, hy, -⟩ := hlive 0 hL.count_pos
    have hnone := h.lengths
    rw [(h.start hpage).1, hpage] at hnone
    simp only [List.flatten_nil, List.append_nil, List.map_eq_nil_iff,
      List.reverse_eq_nil_iff] at hnone
    rw [hnone] at hy
    exact absurd hy List.not_mem_nil
  | cons z zs =>
    obtain ⟨b, hopen⟩ := h.opened (by rw [hpage]; exact List.cons_ne_nil z zs)
    have hsub : List.range L.blockCount ⊆ b :: closed := by
      intro p hp
      obtain ⟨y, hy, rfl⟩ := hlive p (List.mem_range.mp hp)
      rcases hblocks y hy with hin | hcur
      · exact List.mem_cons_of_mem b hin
      · have hb : b = y.block := Nat.succ.inj (hopen.block.symm.trans hcur)
        rw [hb]
        exact List.mem_cons_self
    have hle := (List.nodup_range.subperm hsub).length_le
    rw [List.length_range, List.length_cons, hclosed] at hle
    have hgreedy := h.closes hpage hfull
    have heq : others.flatten = [] ++ ((pages ++ [page]).flatten ++ length :: rest) := by
      rw [hflat]
      simp
    have hlt := hgreedy.length_lt (alignedStart_mono alignment) (le_alignedStart hpos) hfits heq
    rw [List.length_append, List.length_singleton] at hlt
    omega

end Filled

section Grouped

/-- The allocations of one page, the newest first. -/
structure Group (L : Layout) (alignment : Nat) (g : Nat × List Allocation) : Prop where
  nonempty : g.2 ≠ []
  block : ∀ y ∈ g.2, y.block = g.1
  aligned : ∀ y ∈ g.2, ∃ k, y.offset = pageStart L g.1 + k * alignment
  order : g.2.Pairwise fun newer older => older.offset + older.length ≤ newer.offset

/- The live allocations, the newest first, are cut into pages. Only the page of the newest
   ones can be the open page. -/
structure Grouped (L : Layout) (alignment : Nat) (c : Cells) (gs : List (Nat × List Allocation)) :
    Prop where
  live : c.live = (gs.map Prod.snd).flatten
  distinct : (gs.map Prod.fst).Nodup
  group : ∀ g ∈ gs, Group L alignment g
  current : ∀ b, c.currentBlock = b + 1 → b ∉ gs.tail.map Prod.fst

theorem grouped_created (L : Layout) (alignment : Nat) : Grouped L alignment Cells.created [] where
  live := rfl
  distinct := List.nodup_nil
  group := fun _ hg => absurd hg List.not_mem_nil
  current := fun _ _ => List.not_mem_nil

variable {gs : List (Nat × List Allocation)}

/-- A page without live allocations is the page of no group. -/
theorem Grouped.not_mem (h : Grouped L alignment c gs) {b : Nat} (hz : liveIn c.live b = 0) :
    b ∉ gs.map Prod.fst := by
  intro hb
  obtain ⟨g, hg, rfl⟩ := List.mem_map.mp hb
  have hgroup := h.group g hg
  cases heq : g.2 with
  | nil => exact hgroup.nonempty heq
  | cons y ys =>
    have hy : y ∈ g.2 := by
      rw [heq]
      exact List.mem_cons_self
    have hmem : y ∈ c.live := by
      rw [h.live]
      exact List.mem_flatten.mpr ⟨g.2, List.mem_map_of_mem hg, hy⟩
    exact liveIn_zero hz y hmem (hgroup.block y hy)

/-- A fresh allocation in a page that has no group yet. -/
theorem Grouped.open_group (h : Grouped L alignment c gs) (hx : Fresh L length alignment c c' x)
    (hcur : c'.currentBlock = x.block + 1) (hnot : x.block ∉ gs.map Prod.fst) :
    Grouped L alignment c' ((x.block, [x]) :: gs) where
  live := by
    rw [hx.live, h.live]
    rfl
  distinct := List.nodup_cons.mpr ⟨hnot, h.distinct⟩
  group := by
    intro g hg
    rcases List.mem_cons.mp hg with rfl | hold
    · refine ⟨List.cons_ne_nil _ _, ?_, ?_, List.pairwise_singleton _ _⟩
      · intro y hy
        rw [List.mem_singleton.mp hy]
      · intro y hy
        rw [List.mem_singleton.mp hy]
        exact hx.aligned
    · exact h.group g hold
  current := by
    intro b hb
    rw [List.tail_cons, ← Nat.succ.inj (hcur.symm.trans hb)]
    exact hnot

theorem Grouped.fresh (h : Grouped L alignment c gs) (hpos : 0 < alignment) (hq' : Quiet L c')
    (hx : Fresh L length alignment c c' x) : ∃ gs', Grouped L alignment c' gs' := by
  obtain ⟨c₁, used, held, hturn, hoff, ho⟩ := hx.opened hq'
  rcases hturn.origin with rfl | ⟨hu, hl, -⟩
  · -- the open page goes on: its group is the first one, or it has none
    cases gs with
    | nil => exact ⟨_, h.open_group hx ho.block List.not_mem_nil⟩
    | cons g gs =>
      have hnot := h.current x.block hturn.page.block
      rw [List.tail_cons] at hnot
      by_cases hg : g.1 = x.block
      · have hgroup := h.group g List.mem_cons_self
        refine ⟨(x.block, x :: g.2) :: gs, ?_, ?_, ?_, ?_⟩
        · rw [hx.live, h.live]
          rfl
        · have hd := h.distinct
          rw [List.map_cons, hg] at hd
          exact hd
        · intro g' hg'
          rcases List.mem_cons.mp hg' with rfl | hold
          · refine ⟨List.cons_ne_nil _ _, ?_, ?_, List.pairwise_cons.mpr ⟨?_, hgroup.order⟩⟩
            · intro y hy
              rcases List.mem_cons.mp hy with rfl | hy
              · rfl
              · exact (hgroup.block y hy).trans hg
            · intro y hy
              rcases List.mem_cons.mp hy with rfl | hy
              · exact hx.aligned
              · rw [← hg]
                exact hgroup.aligned y hy
            · intro y hy
              have hmem : y ∈ c₁.live := by
                rw [h.live]
                exact List.mem_flatten.mpr
                  ⟨g.2, List.mem_map_of_mem List.mem_cons_self, hy⟩
              have hbelow := hturn.page.below y hmem ((hgroup.block y hy).trans hg)
              have hle := le_alignedStart hpos used
              rw [hoff]
              omega
          · exact h.group g' (List.mem_cons_of_mem g hold)
        · intro b hb
          rw [List.tail_cons, ← Nat.succ.inj (ho.block.symm.trans hb)]
          exact hnot
      · refine ⟨_, h.open_group hx ho.block ?_⟩
        rw [List.map_cons]
        exact List.not_mem_cons_of_ne_of_not_mem (Ne.symm hg) hnot
  · subst hu hl
    have hz : liveIn c.live x.block = 0 := by
      rw [← hturn.live_eq]
      exact hturn.page.live_eq.symm
    exact ⟨_, h.open_group hx ho.block (h.not_mem hz)⟩

/-- The groups without the allocation `x`. -/
def removeFrom (x : Allocation) (gs : List (Nat × List Allocation)) : List (Nat × List Allocation) :=
  (gs.map fun g => (g.1, g.2.filter (· ≠ x))).filter fun g => g.2 ≠ []

theorem removeFrom_flatten (x : Allocation) (gs : List (Nat × List Allocation)) :
    ((removeFrom x gs).map Prod.snd).flatten =
      ((gs.map Prod.snd).flatten).filter (· ≠ x) := by
  induction gs with
  | nil => rfl
  | cons g gs ih =>
    rw [List.map_cons, List.flatten_cons, List.filter_append, ← ih]
    by_cases hg : g.2.filter (· ≠ x) = []
    · have hdrop : removeFrom x (g :: gs) = removeFrom x gs := by
        rw [removeFrom, List.map_cons, List.filter_cons_of_neg (by simpa using hg)]
        rfl
      rw [hdrop, hg, List.nil_append]
    · have hkeep : removeFrom x (g :: gs) = (g.1, g.2.filter (· ≠ x)) :: removeFrom x gs := by
        rw [removeFrom, List.map_cons, List.filter_cons_of_pos (by simpa using hg)]
        rfl
      rw [hkeep]
      rfl

theorem removeFrom_blocks (x : Allocation) (gs : List (Nat × List Allocation)) :
    ((removeFrom x gs).map Prod.fst).Sublist (gs.map Prod.fst) := by
  have h : ((gs.map fun g => (g.1, g.2.filter (· ≠ x))).map Prod.fst) = gs.map Prod.fst := by
    rw [List.map_map]
    rfl
  rw [← h]
  exact List.filter_sublist.map Prod.fst

theorem Grouped.released (h : Grouped L alignment c gs) (hq : Quiet L c)
    (hx : Released L x c c') : Grouped L alignment c' (removeFrom x gs) where
  live := by
    rw [hx.live, hq.pages.nodup.erase_eq_filter, removeFrom_flatten, h.live]
    apply List.filter_congr
    intro y _
    by_cases heq : y = x <;> simp [heq]
  distinct := h.distinct.sublist (removeFrom_blocks x gs)
  group := by
    intro g hg
    obtain ⟨hg, hne⟩ := List.mem_filter.mp hg
    obtain ⟨g', hg', rfl⟩ := List.mem_map.mp hg
    have hgroup := h.group g' hg'
    refine ⟨of_decide_eq_true hne, ?_, ?_, hgroup.order.sublist List.filter_sublist⟩
    · intro y hy
      exact hgroup.block y (List.mem_of_mem_filter hy)
    · intro y hy
      exact hgroup.aligned y (List.mem_of_mem_filter hy)
  current := by
    intro b hb hmem
    rw [hx.current] at hb
    have hnot := h.current b hb
    cases gs with
    | nil => exact absurd hmem List.not_mem_nil
    | cons g gs =>
      rw [List.tail_cons] at hnot
      -- what is behind the first group was behind it before
      have hsub : ((removeFrom x (g :: gs)).tail.map Prod.fst).Sublist (gs.map Prod.fst) := by
        rw [List.map_tail]
        have hblocks := removeFrom_blocks x (g :: gs)
        exact hblocks.tail
      exact hnot (hsub.subset hmem)

theorem Grouped.sealed (h : Grouped L alignment c gs) (hlive : c'.live = c.live)
    (hclosed : c'.currentBlock = 0) : Grouped L alignment c' gs where
  live := hlive.trans h.live
  distinct := h.distinct
  group := h.group
  current := fun b hb => absurd (hclosed.symm.trans hb) (Nat.succ_ne_zero b).symm

theorem Grouped.ungranted (h : Grouped L alignment c gs) (hn : Ungranted c c') :
    Grouped L alignment c' gs := by
  cases hn.current with
  | inr hclosed => exact h.sealed hn.live hclosed
  | inl hsame => exact ⟨hn.live.trans h.live, h.distinct, h.group, fun b hb => h.current b (hsame ▸ hb)⟩

/-- What lies in a page in order takes no less room than it needs. -/
theorem filled_le_last (L : Layout) (b : Nat) {used : Nat} (hpos : 0 < alignment) {ys : List Allocation}
    (haligned : ∀ y ∈ ys, ∃ k, y.offset = pageStart L b + k * alignment)
    (horder : ys.Pairwise fun older newer => older.offset + older.length ≤ newer.offset)
    (hused : ∀ y ∈ ys, pageStart L b + used ≤ y.offset) {last : Nat}
    (hlast : ∀ y ∈ ys, y.offset + y.length ≤ pageStart L b + last) (hle : used ≤ last) :
    filled (alignedStart · alignment) used (ys.map Allocation.length) ≤ last := by
  induction ys generalizing used with
  | nil => exact hle
  | cons y ys ih =>
    rw [List.map_cons, filled_cons]
    obtain ⟨k, hk⟩ := haligned y List.mem_cons_self
    have hstart := hused y List.mem_cons_self
    have hend := hlast y List.mem_cons_self
    obtain ⟨hfirst, hrest⟩ := List.pairwise_cons.mp horder
    have hround : alignedStart used alignment ≤ k * alignment := by
      have hmono := alignedStart_mono alignment (show used ≤ k * alignment by omega)
      have hself : alignedStart (k * alignment) alignment = k * alignment := by
        rw [alignedStart, Nat.mul_comm k, Nat.mul_add_div hpos,
          Nat.div_eq_of_lt (by omega : alignment - 1 < alignment), Nat.add_zero, Nat.mul_comm]
      exact Nat.le_trans hmono (Nat.le_of_eq hself)
    refine ih (fun z hz => haligned z (List.mem_cons_of_mem y hz)) hrest ?_
      (fun z hz => hlast z (List.mem_cons_of_mem y hz)) (by omega)
    intro z hz
    have := hfirst z hz
    omega

theorem Quiet.live_le (hq : Quiet L c) (b : Nat) : liveIn c.live b ≤ maxLive := by
  have hmax : maxLive = 65534 := rfl
  have hcl : claimed = 65535 := rfl
  by_cases hc : c.counts b = claimed
  · cases hq.current with
    | closed _ hnone => exact absurd hc (hnone b)
    | opened b' used live ho =>
      have hb := hq.pages.claimed_one b b' hc ho.marked
      rw [hb, ← ho.live_eq]
      exact ho.live_le
  · have h1 := hq.pages.counted b hc
    have h2 := hq.pages.count_le b
    omega

/-- The surviving allocations of a page fit into a page by themselves. -/
theorem Grouped.fits (h : Grouped L alignment c gs) (hpos : 0 < alignment) (hq : Quiet L c)
    {g : Nat × List Allocation} (hg : g ∈ gs) :
    Fits (alignedStart · alignment) L.blockSize maxLive (g.2.reverse.map Allocation.length) where
  filled_le := by
    have hgroup := h.group g hg
    have hfits : ∀ y ∈ g.2, y.Fits L := by
      intro y hy
      refine (hq.pages.fits y ?_).1
      rw [h.live]
      exact List.mem_flatten.mpr ⟨g.2, List.mem_map_of_mem hg, hy⟩
    refine filled_le_last L g.1 hpos ?_ ?_ ?_ ?_ (Nat.zero_le _)
    · intro y hy
      exact hgroup.aligned y (List.mem_reverse.mp hy)
    · rw [List.pairwise_reverse]
      exact hgroup.order
    · intro y hy
      have hy' := List.mem_reverse.mp hy
      have hstart := (hfits y hy').start_le
      rw [hgroup.block y hy'] at hstart
      omega
    · intro y hy
      have hy' := List.mem_reverse.mp hy
      have hend := (hfits y hy').end_le
      rw [hgroup.block y hy', pageStart_succ] at hend
      exact hend
  length_le := by
    rw [List.length_map, List.length_reverse]
    have hcount : g.2.length ≤ liveIn c.live g.1 := by
      rw [h.live, liveIn, List.countP_flatten, List.map_map]
      have hall : g.2.length = g.2.countP (·.block = g.1) := by
        rw [eq_comm, List.countP_eq_length]
        intro y hy
        exact decide_eq_true ((h.group g hg).block y hy)
      rw [hall]
      exact List.le_sum_of_mem (List.mem_map_of_mem hg)
    exact Nat.le_trans hcount (hq.live_le g.1)

/-- The live allocations can be packed anew in the order in which they were made. -/
theorem Grouped.packs (h : Grouped L alignment c gs) (hpos : 0 < alignment) (hq : Quiet L c) :
    Packs L alignment (c.live.reverse.map Allocation.length) := by
  refine ⟨(gs.map fun g => g.2.reverse.map Allocation.length).reverse, ?_, ?_, ?_⟩
  · rw [h.live, List.reverse_flatten, List.map_flatten, List.map_reverse, List.map_map,
      List.map_map]
    rfl
  · rw [List.length_reverse, List.length_map]
    have hsub : gs.map Prod.fst ⊆ List.range L.blockCount := by
      intro b hb
      obtain ⟨g, hg, rfl⟩ := List.mem_map.mp hb
      have hgroup := h.group g hg
      cases heq : g.2 with
      | nil => exact absurd heq hgroup.nonempty
      | cons y ys =>
        have hy : y ∈ g.2 := by
          rw [heq]
          exact List.mem_cons_self
        have hmem : y ∈ c.live := by
          rw [h.live]
          exact List.mem_flatten.mpr ⟨g.2, List.mem_map_of_mem hg, hy⟩
        have hlt := (hq.pages.fits y hmem).2
        rw [hgroup.block y hy] at hlt
        exact List.mem_range.mpr (Nat.lt_of_lt_of_le hlt hq.pages.pages_le)
    have hle := (h.distinct.subperm hsub).length_le
    rw [List.length_map, List.length_range] at hle
    exact hle
  · intro page hpage
    rw [List.mem_reverse] at hpage
    obtain ⟨g, hg, rfl⟩ := List.mem_map.mp hpage
    exact h.fits hpos hq hg

end Grouped

end FlorestaDb.Allocator
