import FlorestaDb.Lifetimes
import FlorestaDb.Sessions

/-! What a clean close leaves: a directory whose body can be given headroom. -/
namespace FlorestaDb
open Program Program.Prog Allocator Chain

variable {cfg : Config} {o : Origin} {w : Disk} {d d₁ d₂ : Db} {m : Machine} {t : Tid} {M : Stacks}

section Reopening

/-- What was stored is there when a closed database is opened again. -/
theorem Visited.closed_represents (h : Visited cfg o w) (hM : Represents cfg w.db M)
    (hclose : (close cfg m).Returns t w.db (.ok ()) d₁) :
    ∃ d₂, FlorestaDb.openRuntime (d₁.directory cfg) = .ok (cfg, d₂) ∧ Represents cfg d₂ M := by
  have hr := h.station.accepted.ready
  obtain ⟨chains, -, hclosed⟩ := h.station.closed hclose
  obtain ⟨d₂, hopen, hreopened⟩ := openRuntime_ok h.station.accepted hclosed
  have hM₁ := (post_of_returns (sync_represents hr hM (fun hv => by cases hv)) hclose).1
  exact ⟨d₂, hopen, hreopened.represents hclosed.owned hM₁⟩

theorem Visited.compacted_closed (h : Visited cfg o w) (hM : Represents cfg w.db M) {load : Nat}
    {stats : CompactionStats} (hcompact : (compact cfg m load).Returns t w.db (.ok stats) d₁)
    (hclose : (close cfg m).Returns t d₁ (.ok ()) d₂) :
    ∃ d₃, FlorestaDb.openRuntime (d₂.directory cfg) = .ok (cfg, d₃) ∧ Represents cfg d₃ M := by
  have hr := h.station.accepted.ready
  have hload : 1 ≤ load ∧ load ≤ cfg.blockSize / nodeSize := by
    by_contra hbad
    have hinvalid := (post_of_returns (compact_invalid hbad) hcompact).2
    cases hinvalid
  have hM₁ := (post_of_returns (compact_represents hr hM hload.1 hload.2 (fun hv => by cases hv)) hcompact).1
  have hcall : ((Op.compact load).program cfg m).Returns t w.db (.ok ()) d₁ :=
    returns_bind_pure.mpr ⟨.ok stats, hcompact, rfl⟩
  exact (h.call _ hcall).closed_represents hM₁ hclose

end Reopening

section Growing

/-- Growing the body of a closed database keeps it openable exactly when the new capacity
stays in the range of packed node pointers and is flushed, or nothing has to grow. -/
theorem body_headroom_openable_iff (h : Visited cfg o w) (hclose : (close cfg m).Returns t w.db (.ok ()) d)
    (headroom : Nat) (flushed : Bool) :
    KeepsOpenable cfg (d.directory cfg) headroom flushed ↔
      HeadroomFits cfg (d.directory cfg) headroom flushed := by
  obtain ⟨chains, -, hclosed⟩ := h.station.closed hclose
  exact headroom_iff (hclosed.clean h.station.accepted)

/-- The state of `trial` after a clean close: three pages are used, and one bank is valid. -/
theorem trial_closed : ∃ w d, Visited Config.pages .recovered w ∧
    (close Config.pages Machine.pages).run 0 w.db = some (.ok (), d) ∧
      d.store.body.highWater = 3 ∧ (readManifests d.headsFile).map Manifest.generation = [1] := by
  have hrun : ∃ w, trial = some w ∧ ((close Config.pages Machine.pages).run 0 w.db).map (fun x =>
      (x.1, x.2.store.body.highWater, (readManifests x.2.headsFile).map Manifest.generation)) =
      some (.ok (), 3, [1]) := by
    rw [← exists_any]
    decide +kernel
  obtain ⟨w, htrial, hrun⟩ := hrun
  obtain ⟨⟨res, d⟩, hrun, heq⟩ := Option.map_eq_some_iff.mp hrun
  simp only [Prod.mk.injEq] at heq
  obtain ⟨rfl, hwater, hmanifests⟩ := heq
  exact ⟨w, d, trial_visited htrial, hrun, hwater, hmanifests⟩

/-- A headroom of 200000 bytes takes four pages behind the three that are used. -/
theorem body_headroom_openable_iff_pages : ∃ w d dir d', Visited Config.pages .recovered w ∧
    (close Config.pages Machine.pages).run 0 w.db = some (.ok (), d) ∧
    ensureRuntimeBodyHeadroom (d.directory Config.pages) 200000 true = (.ok true, dir) ∧
      readConfig dir.headsFile = .ok (Config.pages.withBody 458752) ∧
      (readManifests dir.headsFile).map Manifest.generation = [1] ∧
      openRuntime dir = .ok (Config.pages.withBody 458752, d') := by
  obtain ⟨w, d, hvisited, hrun, hwater, hmanifests⟩ := trial_closed
  have hclose := returns_of_run hrun
  obtain ⟨chains, -, hclosed⟩ := hvisited.station.closed hclose
  have hused : Directory.used Config.pages (d.directory Config.pages) = 196608 := by
    rw [Directory.used, Db.directory, hwater]
    rfl
  have hrequired : required Config.pages 200000 = 262144 := by decide
  have hgrows : Grows Config.pages (d.directory Config.pages) 200000 := by
    refine ⟨by decide, ?_, ?_⟩
    · rw [hused, hrequired]
      decide
    · rw [hused, hrequired]
      decide
  have hrange : InRange (Directory.used Config.pages (d.directory Config.pages) +
      required Config.pages 200000) := by
    rw [InRange, hused, hrequired]
    decide
  have hfits : HeadroomFits Config.pages (d.directory Config.pages) 200000 true :=
    Or.inr (Or.inr (Or.inr ⟨hrange, rfl⟩))
  have hkeeps := (body_headroom_openable_iff hvisited hclose 200000 true).mpr hfits
  have hclean := hclosed.clean hvisited.station.accepted
  have hensure := ensure_grows hclean hgrows true
  have hconfig := (hclean.grown hgrows hrange).config
  rw [if_pos rfl] at hensure
  obtain ⟨_, hread, -, -, ⟨d', hopen⟩, -, hkept, -⟩ := hkeeps.grown _ hensure
  rw [Except.ok.inj (hread.symm.trans hconfig)] at hopen
  have hcapacity : Directory.used Config.pages (d.directory Config.pages) + required Config.pages 200000 =
      458752 := by rw [hused, hrequired]
  generalize Directory.used Config.pages (d.directory Config.pages) + required Config.pages 200000 =
    capacity at *
  subst hcapacity
  exact ⟨w, d, _, d', hvisited, hrun, hensure, hconfig, by rw [hkept]; exact hmanifests, hopen⟩

/-- The new database of `Config.small`, closed. -/
theorem close_small : ∃ d, (close Config.small Machine.small).run 0
    (Db.fresh (initializeHeader HeadsFile.zero Config.small) 0) = some (.ok (), d) ∧
    d.store.body.highWater = 0 := by
  have hfirst : ((close Config.small Machine.small).run 0
      (Db.fresh (initializeHeader HeadsFile.zero Config.small) 0)).map
      (fun x => (x.1, x.2.store.body.highWater)) = some (.ok (), 0) := by
    decide +kernel
  obtain ⟨⟨res, d⟩, hrun, heq⟩ := Option.map_eq_some_iff.mp hfirst
  simp only [Prod.mk.injEq] at heq
  obtain ⟨rfl, hwater⟩ := heq
  exact ⟨d, hrun, hwater⟩

/-- A headroom of `2 ^ 48` bytes is accepted, and the database cannot be opened any more. -/
theorem body_headroom_past_pointers :
    ∃ w d, Visited Config.small .created w ∧
      (close Config.small Machine.small).run 0 w.db = some (.ok (), d) ∧
      ∃ dir, ensureRuntimeBodyHeadroom (d.directory Config.small) (2 ^ 48) true = (.ok true, dir) ∧
        (∀ c, readConfig dir.headsFile ≠ .ok c) ∧ ∀ r, openRuntime dir ≠ .ok r := by
  have hvisited : Visited Config.small .created (Disk.created _) := .create _ create_small
  obtain ⟨d, hrun, hwater⟩ := close_small
  obtain ⟨chains, -, hclosed⟩ := hvisited.station.closed (returns_of_run hrun)
  have hd := hclosed.clean hvisited.station.accepted
  have hused : Directory.used Config.small (d.directory Config.small) = 0 := by
    rw [Directory.used, Db.directory, hwater, Nat.zero_mul]
  have hreq : required Config.small (2 ^ 48) = 2 ^ 48 := by decide
  have hg : Grows Config.small (d.directory Config.small) (2 ^ 48) := by
    refine ⟨by decide, ?_, ?_⟩
    · rw [hused, hreq]
      decide
    · rw [hused, hreq]
      decide
  have hnone : ∀ c, readConfig (grownFile (d.directory Config.small).headsFile
      (Directory.used Config.small (d.directory Config.small) +
        required Config.small (2 ^ 48))).sync ≠ .ok c := by
    intro c hread
    obtain ⟨hvalid, hcap⟩ := readConfig_body hread
    have hword := grown_word (d.directory Config.small).headsFile (Directory.used Config.small (d.directory Config.small) +
      required Config.small (2 ^ 48)) (i := 5) (by decide)
    rw [if_neg (by decide), if_pos rfl] at hword
    have hbound := (Config.validate_ok hvalid).body_bound
    rw [hcap, HeadsFile.sync, hword, hused, hreq] at hbound
    exact absurd hbound (by decide)
  have heq := ensure_grows hd hg true
  rw [if_pos rfl] at heq
  refine ⟨_, d, hvisited, hrun, _, heq, hnone, ?_⟩
  intro r hopen
  exact hnone r.1 (openRuntime_config hopen)

end Growing

end FlorestaDb
