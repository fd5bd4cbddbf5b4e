import FlorestaDb.Closing

/-! Sessions with requests and checkpoints in any order, and what is left of them when the handle
is closed and the runtime files are opened again. -/
namespace FlorestaDb
open Program Program.Prog Allocator Chain

variable {cfg : Config} {o : Origin} {w w' w₁ : Disk} {m : Machine} {t : Tid} {M : Stacks} {g k : Nat}

section Sessions

/-- What a caller asks of an open handle. -/
inductive Errand where
  | request (r : Request)
  | checkpoint

inductive Errand.Result where
  | answer (res : Except Error Response)
  | generation (res : Except Error Nat)
  deriving DecidableEq

def Errand.Of (mode : Mode) : Errand → Prop
  | .request r => r.Of mode
  | .checkpoint => True

/-- The errands of one thread, one after the other. -/
inductive Errands (cfg : Config) (m : Machine) (t : Tid) : List Errand → Disk → List Errand.Result → Disk → Prop where
  | nil (w : Disk) : Errands cfg m t [] w [] w
  | request {r : Request} {errands : List Errand} {w w' : Disk} {d : Db} {res : Except Error Response}
      {outcomes : List Errand.Result} (step : (r.program cfg m).Returns t w.db res d)
      (rest : Errands cfg m t errands { w with db := d } outcomes w') :
      Errands cfg m t (.request r :: errands) w (.answer res :: outcomes) w'
  | checkpoint {errands : List Errand} {w w₁ w' : Disk} {res : Except Error Nat} {outcomes : List Errand.Result}
      (step : (checkpoint cfg m).Returns t w res w₁) (rest : Errands cfg m t errands w₁ outcomes w') :
      Errands cfg m t (.checkpoint :: errands) w (.generation res :: outcomes) w'

/-- One errand against the stacks and the number of the last checkpoint. -/
def Errand.Agrees (cfg : Config) (M : Stacks) (g : Nat) : Errand → Errand.Result → Stacks → Nat → Prop
  | .request r, .answer res, M', g' => r.Agrees cfg .any M res M' ∧ g' = g
  | .checkpoint, .generation res, M', g' =>
    M' = M ∧ (res = .ok (g + 1) ∧ g' = g + 1 ∨ ∃ e, res = .error e ∧ Refusal .any e ∧ g' = g)
  | _, _, _, _ => False

/-- A session against them. -/
def Accords (cfg : Config) (M : Stacks) (g : Nat) : List Errand → List Errand.Result → Stacks → Nat → Prop
  | [], [], M', g' => M' = M ∧ g' = g
  | errand :: errands, outcome :: outcomes, M', g' =>
    ∃ M₁ g₁, errand.Agrees cfg M g outcome M₁ g₁ ∧ Accords cfg M₁ g₁ errands outcomes M' g'
  | _, _, _, _ => False

/-- Nothing failed for lack of space or in the operating system. -/
def Errand.Result.Unrefused : Errand.Result → Prop
  | .answer res => ∀ e, res = .error e → ¬Refusal .any e
  | .generation res => ∀ e, res = .error e → ¬Refusal .any e

/- The outcomes of two handles that differ in the pages they use, and in the number of checkpoints
   that they know of. -/
def Errand.Result.Alike (k : Nat) : Errand.Result → Errand.Result → Prop
  | .answer res, .answer res' => res.map Response.plain = res'.map Response.plain
  | .generation res, .generation res' => res = res'.map (k + ·)
  | _, _ => False

end Sessions

section Steps

/-- A handle at rest that holds the stacks `M` and knows of the checkpoint `g`. -/
structure Standing (cfg : Config) (w : Disk) (M : Stacks) (g : Nat) : Prop where
  station : Station cfg w
  represents : Represents cfg w.db M
  generation : w.db.checkpointGeneration = g

theorem Standing.request (h : Standing cfg w M g) {r : Request} (hmode : r.Of cfg.mode) {d : Db}
    {res : Except Error Response} (step : (r.program cfg m).Returns t w.db res d) :
    ∃ M', r.Agrees cfg .any M res M' ∧ Standing cfg { w with db := d } M' g := by
  have hr := h.station.accepted.ready
  obtain ⟨M', hagrees, hrep⟩ :=
    post_of_returns (request_agrees hr h.represents r hmode (fun hv => by cases hv)) step
  obtain ⟨res', hcall⟩ := Request.returns_op step
  have hsettled := post_of_returns (r.op.sound hr h.station.sound) hcall
  exact ⟨M', hagrees, h.station.settled hsettled, hrep, hsettled.generation.trans h.generation⟩

theorem Standing.checkpoint (h : Standing cfg w M g) {res : Except Error Nat}
    (step : (checkpoint cfg m).Returns t w res w') : ∃ g',
      (res = .ok (g + 1) ∧ g' = g + 1 ∨ ∃ e, res = .error e ∧ Refusal .any e ∧ g' = g) ∧
        Standing cfg w' M g' := by
  obtain ⟨chains, howned⟩ := h.station.owned
  have hanswered : Answered cfg chains False w res w' :=
    h.station.checkpoint howned (fun hf => hf.elim) step
  have hstation := h.station.stamped hanswered.stamped
  have hrep : Represents cfg w'.db M := by
    obtain ⟨-, T, ⟨chains', howned', rfl⟩, rfl⟩ := h.represents
    refine ⟨hstation.sound.idle, _, ⟨chains', ?_, rfl⟩, ?_⟩
    · rw [hanswered.stamped.runtime.1, hanswered.stamped.runtime.2]
      exact howned'
    · rw [hanswered.stamped.runtime.1]
  cases res with
  | ok n =>
    obtain ⟨rfl, hgen⟩ := hanswered.stamped.done n rfl
    rw [h.generation] at hgen ⊢
    exact ⟨g + 1, Or.inl ⟨rfl, rfl⟩, hstation, hrep, hgen⟩
  | error e =>
    have hrefusal : Refusal .any e := Excused.refusal hanswered.ending
    exact ⟨g, Or.inr ⟨e, rfl, hrefusal, rfl⟩, hstation, hrep,
      (hanswered.stamped.failed e rfl).trans h.generation⟩

theorem Errands.accords {errands : List Errand} {outcomes : List Errand.Result} (hs : Errands cfg m t errands w outcomes w')
    (hmode : ∀ e ∈ errands, e.Of cfg.mode) (h : Standing cfg w M g) :
    ∃ M' g', Accords cfg M g errands outcomes M' g' ∧ Standing cfg w' M' g' := by
  induction hs generalizing M g with
  | nil w => exact ⟨M, g, ⟨rfl, rfl⟩, h⟩
  | request step _ ih =>
    obtain ⟨M₁, hagrees, hstanding⟩ := h.request (hmode _ List.mem_cons_self) step
    obtain ⟨M', g', haccords, hend⟩ := ih (fun e he => hmode e (List.mem_cons_of_mem _ he)) hstanding
    exact ⟨M', g', ⟨M₁, g, ⟨hagrees, rfl⟩, haccords⟩, hend⟩
  | checkpoint step _ ih =>
    obtain ⟨g₁, hagrees, hstanding⟩ := h.checkpoint step
    obtain ⟨M', g', haccords, hend⟩ := ih (fun e he => hmode e (List.mem_cons_of_mem _ he)) hstanding
    exact ⟨M', g', ⟨M, g₁, ⟨rfl, hagrees⟩, haccords⟩, hend⟩

/-- An errand that was not refused is decided by the stacks and the generation. -/
theorem Errand.Agrees.alike {errand : Errand} {outcome outcome' : Errand.Result} {M₁ M₂ : Stacks} {g₁ g₂ : Nat}
    (h : errand.Agrees cfg M (k + g) outcome M₁ g₁) (h' : errand.Agrees cfg M g outcome' M₂ g₂)
    (hu : outcome.Unrefused) (hu' : outcome'.Unrefused) :
    outcome.Alike k outcome' ∧ M₁ = M₂ ∧ g₁ = k + g₂ := by
  cases errand with
  | request r =>
    cases outcome with
    | generation res => cases h
    | answer res =>
      cases outcome' with
      | generation res' => cases h'
      | answer res' =>
        obtain ⟨hagrees, rfl⟩ := h
        obtain ⟨hagrees', rfl⟩ := h'
        cases hagrees with
        | inr hrefused =>
          obtain ⟨e, he, hrefusal, -⟩ := hrefused
          exact absurd hrefusal (hu e he)
        | inl hmodel =>
          cases hagrees' with
          | inr hrefused =>
            obtain ⟨e, he, hrefusal, -⟩ := hrefused
            exact absurd hrefusal (hu' e he)
          | inl hmodel' =>
            exact ⟨hmodel.1.trans hmodel'.1.symm, hmodel.2.trans hmodel'.2.symm, rfl⟩
  | checkpoint =>
    cases outcome with
    | answer res => cases h
    | generation res =>
      cases outcome' with
      | answer res' => cases h'
      | generation res' =>
        obtain ⟨rfl, hagrees⟩ := h
        obtain ⟨rfl, hagrees'⟩ := h'
        cases hagrees with
        | inr hrefused =>
          obtain ⟨e, he, hrefusal, -⟩ := hrefused
          exact absurd hrefusal (hu e he)
        | inl hdone =>
          cases hagrees' with
          | inr hrefused =>
            obtain ⟨e, he, hrefusal, -⟩ := hrefused
            exact absurd hrefusal (hu' e he)
          | inl hdone' =>
            obtain ⟨rfl, rfl⟩ := hdone
            obtain ⟨rfl, rfl⟩ := hdone'
            exact ⟨rfl, rfl, rfl⟩

/-- Sessions that were not refused anything are decided by what they began with. -/
theorem Accords.alike {errands : List Errand} {outcomes outcomes' : List Errand.Result} {M₁ M₂ : Stacks} {g₁ g₂ : Nat}
    (h : Accords cfg M (k + g) errands outcomes M₁ g₁) (h' : Accords cfg M g errands outcomes' M₂ g₂)
    (hu : ∀ x ∈ outcomes, x.Unrefused) (hu' : ∀ x ∈ outcomes', x.Unrefused) :
    List.Forall₂ (Errand.Result.Alike k) outcomes outcomes' ∧ M₁ = M₂ ∧ g₁ = k + g₂ := by
  induction errands generalizing M g outcomes outcomes' with
  | nil =>
    cases outcomes with
    | cons outcome outcomes => cases h
    | nil =>
      cases outcomes' with
      | cons outcome' outcomes' => cases h'
      | nil =>
        obtain ⟨rfl, rfl⟩ := h
        obtain ⟨rfl, rfl⟩ := h'
        exact ⟨.nil, rfl, rfl⟩
  | cons errand errands ih =>
    cases outcomes with
    | nil => cases h
    | cons outcome outcomes =>
      cases outcomes' with
      | nil => cases h'
      | cons outcome' outcomes' =>
        obtain ⟨N, n, hstep, hrest⟩ := h
        obtain ⟨N', n', hstep', hrest'⟩ := h'
        obtain ⟨halike, rfl, rfl⟩ := hstep.alike hstep' (hu _ List.mem_cons_self) (hu' _ List.mem_cons_self)
        obtain ⟨hforall, hM, hg⟩ := ih hrest hrest' (fun x hx => hu x (List.mem_cons_of_mem _ hx))
          (fun x hx => hu' x (List.mem_cons_of_mem _ hx))
        exact ⟨.cons halike hforall, hM, hg⟩

end Steps

section Reopening

/- The handle after `close` and `open_runtime`: the stacks and the invariant are those of the old
   handle, and a session on either says the same unless it is refused something. -/
structure Continues (cfg : Config) (w w' : Disk) (M : Stacks) : Prop where
  visited : Visited cfg .reopened w'
  represents : Represents cfg w'.db M
  ownership : ∃ chains, Ownership cfg w'.db chains
  accords : ∀ m t errands outcomes w₁, (∀ e ∈ errands, e.Of cfg.mode) →
    Errands cfg m t errands w' outcomes w₁ →
      ∃ M' g', Accords cfg M 0 errands outcomes M' g' ∧ Represents cfg w₁.db M' ∧
        w₁.db.checkpointGeneration = g'
  same : ∀ m t m' t' errands outcomes outcomes' w₁ w₂, (∀ e ∈ errands, e.Of cfg.mode) →
    Errands cfg m t errands w outcomes w₁ → Errands cfg m' t' errands w' outcomes' w₂ →
    (∀ x ∈ outcomes, x.Unrefused) → (∀ x ∈ outcomes', x.Unrefused) →
      List.Forall₂ (Errand.Result.Alike w.db.checkpointGeneration) outcomes outcomes' ∧
        ∃ M', Represents cfg w₁.db M' ∧ Represents cfg w₂.db M'

/-- `close` returns, and `open_runtime` then gives a handle with the same stacks. -/
theorem close_open_runtime_continues (h : Visited cfg o w) :
    ∃ M, Represents cfg w.db M ∧
      (m.Enough cfg → ∃ d₁, (close cfg m).run t w.db = some (.ok (), d₁)) ∧
      ∀ d₁, (close cfg m).Returns t w.db (.ok ()) d₁ →
        ∃ d₂, openRuntime (d₁.directory cfg) = .ok (cfg, d₂) ∧ Continues cfg w { w with db := d₂ } M := by
  have hstation := h.station
  have hr := hstation.accepted.ready
  obtain ⟨T, hheld⟩ := hstation.sound.holds
  have hrep : Represents cfg w.db (Buckets.stack (bucketOf cfg) T) := ⟨hstation.sound.idle, T, hheld, rfl⟩
  refine ⟨_, hrep, ?_, ?_⟩
  · intro hf
    obtain ⟨chains, howned⟩ := hstation.owned
    obtain ⟨res, d₁, hrun, hsync⟩ := run_of_wp (sync_spec (v := .fair) (t := t) hr hstation.sound.idle howned
      (Machine.Enough.one fun _ => hf))
    cases hsync.outcome with
    | inl hok =>
      obtain ⟨rfl, -⟩ := hok
      exact ⟨d₁, hrun⟩
    | inr hio => cases hio.1
  · intro d₁ hclose
    obtain ⟨d₂, hopen, hrep₂⟩ := h.closed_represents hrep hclose
    have hvisited := Visited.openRuntime h hclose hopen
    obtain ⟨chains, -, hreopened, hstation₂⟩ := hstation.reopened hclose hopen
    have hold : Standing cfg w (Buckets.stack (bucketOf cfg) T) (w.db.checkpointGeneration + 0) := ⟨hstation, hrep, rfl⟩
    have hnew : Standing cfg { w with db := d₂ } (Buckets.stack (bucketOf cfg) T) 0 :=
      ⟨hstation₂, hrep₂, hreopened.generation⟩
    refine ⟨d₂, hopen, hvisited, hrep₂, ⟨chains, hreopened.owned.ownership hr⟩, ?_, ?_⟩
    · intro m' t' errands outcomes w₁ hmode hs
      obtain ⟨M', g', haccords, hend⟩ := hs.accords hmode hnew
      exact ⟨M', g', haccords, hend.represents, hend.generation⟩
    · intro m₁ t₁ m₂ t₂ errands outcomes outcomes' w₁ w₂ hmode hs hs' hu hu'
      obtain ⟨M₁, g₁, haccords, hend⟩ := hs.accords hmode hold
      obtain ⟨M₂, g₂, haccords', hend'⟩ := hs'.accords hmode hnew
      obtain ⟨hforall, rfl, -⟩ := haccords.alike haccords' hu hu'
      exact ⟨hforall, M₁, hend.represents, hend'.represents⟩

/-- A value in a database with a single page, and a checkpoint. -/
def smallCheckpoint : Option (Disk × Disk) :=
  checkpointed Config.small Machine.small 1 (callEach Config.small Machine.small
    [.put (Vector.replicate 16 7).toList [1, 2, 3]]
      (Disk.created (Db.fresh (initializeHeader HeadsFile.zero Config.small) 0)))

theorem smallCheckpoint_runs : ∃ x, smallCheckpoint = some x ∧
    ((put Config.small Machine.small (Vector.replicate 16 8).toList [4]).run 0 x.2.db).map Prod.fst =
      some (.ok .inserted) ∧
    ((checkpoint Config.small Machine.small).run 0 x.2).map Prod.fst = some (.ok 2) := by
  rw [← exists_any]
  decide +kernel

theorem smallCheckpoint_reopened_runs : ∃ w',
    (smallCheckpoint.bind fun x => reopened Config.small Machine.small x.2) = some w' ∧
    ((put Config.small Machine.small (Vector.replicate 16 8).toList [4]).run 0 w'.db).map Prod.fst =
      some (.error (.capacityExhausted "mapped file")) ∧
    ((checkpoint Config.small Machine.small).run 0 w').map Prod.fst = some (.ok 1) := by
  rw [← exists_any]
  decide +kernel

/- Where the handles differ: in the first state the page in use is sealed and there is no other,
   and the reopened handle does not know of the checkpoint; in the second the sealed page is
   compacted. -/
theorem close_open_runtime_differs :
    (∃ w d₁ d₂, Visited Config.small .created w ∧
      (close Config.small Machine.small).run 0 w.db = some (.ok (), d₁) ∧
      openRuntime (d₁.directory Config.small) = .ok (Config.small, d₂) ∧
      ((put Config.small Machine.small (Vector.replicate 16 8).toList [4]).run 0 w.db).map Prod.fst =
        some (.ok .inserted) ∧
      ((put Config.small Machine.small (Vector.replicate 16 8).toList [4]).run 0 d₂).map Prod.fst =
        some (.error (.capacityExhausted "mapped file")) ∧
      ((checkpoint Config.small Machine.small).run 0 w).map Prod.fst = some (.ok 2) ∧
      ((checkpoint Config.small Machine.small).run 0 { w with db := d₂ }).map Prod.fst = some (.ok 1)) ∧
    ∃ w d₁ d₂, Visited Config.pages .created w ∧
      (close Config.pages Machine.pages).run 0 w.db = some (.ok (), d₁) ∧
      openRuntime (d₁.directory Config.pages) = .ok (Config.pages, d₂) ∧
      ((compact Config.pages Machine.pages 5).run 0 w.db).map Prod.fst = some (.ok ⟨0, 0, 0, 0⟩) ∧
      ((compact Config.pages Machine.pages 5).run 0 d₂).map Prod.fst = some (.ok ⟨1, 3, 1, 0⟩) := by
  constructor
  · obtain ⟨⟨w₀, w⟩, hsaved, hput, hsecond⟩ := smallCheckpoint_runs
    obtain ⟨w', hreopened, hfull, hfirst⟩ := smallCheckpoint_reopened_runs
    rw [hsaved, Option.bind_some] at hreopened
    obtain ⟨hcalls, hcheckpoint⟩ := checkpointed_steps hsaved
    have hvisited := ((Visited.create _ create_small).calls hcalls).checkpoint (returns_of_run hcheckpoint)
    obtain ⟨d₁, d₂, hclose, hopen, rfl, -⟩ := reopened_steps hvisited hreopened
    exact ⟨_, d₁, d₂, hvisited, hclose, hopen, hput, hfull, hsecond, hfirst⟩
  · obtain ⟨w, w', d, hvisited, hnone, hreopened, hrun, -⟩ := compacted_pages
    obtain ⟨d₁, d₂, hclose, hopen, rfl, -⟩ := reopened_steps hvisited hreopened
    exact ⟨w, d₁, d₂, hvisited, hclose, hopen, hnone, by rw [hrun]; rfl⟩

/-- Errands one after the other. -/
def runErrands (cfg : Config) (m : Machine) : List Errand → Disk → Option (List Errand.Result × Disk)
  | [], w => some ([], w)
  | .request r :: errands, w => do
    let x ← (r.program cfg m).run 0 w.db
    let rest ← runErrands cfg m errands { w with db := x.2 }
    return (.answer x.1 :: rest.1, rest.2)
  | .checkpoint :: errands, w => do
    let x ← (checkpoint cfg m).run 0 w
    let rest ← runErrands cfg m errands x.2
    return (.generation x.1 :: rest.1, rest.2)

theorem errands_of_run {errands : List Errand} {outcomes : List Errand.Result}
    (h : runErrands cfg m errands w = some (outcomes, w')) : Errands cfg m 0 errands w outcomes w' := by
  induction errands generalizing w outcomes with
  | nil =>
    cases h
    exact .nil _
  | cons errand errands ih =>
    cases errand with
    | request r =>
      obtain ⟨x, hrun, h⟩ := Option.bind_eq_some_iff.mp h
      obtain ⟨rest, hrest, h⟩ := Option.bind_eq_some_iff.mp h
      obtain ⟨rfl, rfl⟩ := Prod.mk.inj (Option.some.inj h)
      exact .request (returns_of_run hrun) (ih hrest)
    | checkpoint =>
      obtain ⟨x, hrun, h⟩ := Option.bind_eq_some_iff.mp h
      obtain ⟨rest, hrest, h⟩ := Option.bind_eq_some_iff.mp h
      obtain ⟨rfl, rfl⟩ := Prod.mk.inj (Option.some.inj h)
      exact .checkpoint (returns_of_run hrun) (ih hrest)

/-- The newest of two values is removed, another key is written, and a checkpoint is made. -/
def sampleErrands : List Errand :=
  [.request (.batchPop [sampleKey 1]), .request (.call (.get (sampleKey 1))),
    .request (.call (.put (sampleKey 9) [5])), .checkpoint]

/-- What they return behind the checkpoint `g`. -/
def sampleResults (g : Nat) : List Errand.Result :=
  [.answer (.ok (.values [some [6, 7]])), .answer (.ok (.reply (.value (some [3])))),
    .answer (.ok (.reply (.put .inserted))), .generation (.ok (g + 1))]

theorem trial_reopened_runs : ∃ w, trial = some w ∧
    (w.db.store.body.live.length = 8 ∧ w.db.store.body.currentBlock = 3 ∧ w.db.checkpointGeneration = 1) ∧
    ((topTwo Config.pages Machine.pages (sampleKey 1)).run 0 w.db).map Prod.fst =
      some (.ok (some [6, 7], some [3])) ∧
    (runErrands Config.pages Machine.pages sampleErrands w).map Prod.fst = some (sampleResults 1) ∧
    ((reopened Config.pages Machine.pages w).bind fun w' =>
      (runErrands Config.pages Machine.pages sampleErrands w').map Prod.fst) = some (sampleResults 0) := by
  rw [← exists_any]
  decide +kernel

/-- The recovered handle with three used pages, the last of them open, and a session on it. -/
theorem close_open_runtime_continues_pages : ∃ w d₁ d₂ M rest,
    (Visited Config.pages .recovered w ∧ w.db.store.body.live.length = 8 ∧ w.db.store.body.currentBlock = 3 ∧
      w.db.checkpointGeneration = 1) ∧
    (close Config.pages Machine.pages).run 0 w.db = some (.ok (), d₁) ∧
    openRuntime (d₁.directory Config.pages) = .ok (Config.pages, d₂) ∧
    Represents Config.pages w.db M ∧ M (sampleKey 1) = [6, 7] :: [3] :: rest ∧
    Continues Config.pages w { w with db := d₂ } M ∧
    ∃ w₁ w₂ M', Errands Config.pages Machine.pages 0 sampleErrands w (sampleResults 1) w₁ ∧
      Errands Config.pages Machine.pages 0 sampleErrands { w with db := d₂ } (sampleResults 0) w₂ ∧
      Represents Config.pages w₁.db M' ∧ Represents Config.pages w₂.db M' := by
  obtain ⟨w, htrial, ⟨hlive, hopened, hgeneration⟩, htop, hold, hnew⟩ := trial_reopened_runs
  obtain ⟨w', hreopened, hnew⟩ := Option.bind_eq_some_iff.mp hnew
  obtain ⟨⟨outcomes, w₁⟩, hold, rfl⟩ := Option.map_eq_some_iff.mp hold
  obtain ⟨⟨outcomes', w₂⟩, hnew, rfl⟩ := Option.map_eq_some_iff.mp hnew
  obtain ⟨⟨res, d⟩, htop, rfl⟩ := Option.map_eq_some_iff.mp htop
  have hvisited := trial_visited htrial
  obtain ⟨d₁, d₂, hclose, hopen, rfl, -⟩ := reopened_steps hvisited hreopened
  obtain ⟨M, hrep, -, hcontinues⟩ := close_open_runtime_continues (m := Machine.pages) (t := 0) hvisited
  obtain ⟨d, hopen', hcontinues⟩ := hcontinues d₁ (returns_of_run hclose)
  obtain ⟨-, rfl⟩ := Prod.mk.inj (Except.ok.inj (hopen'.symm.trans hopen))
  obtain ⟨rest, hstack⟩ := hrep.two hvisited.station.accepted.ready rfl htop
  have hs := errands_of_run hold
  have hs' := errands_of_run hnew
  have hmode : ∀ e ∈ sampleErrands, e.Of Config.pages.mode := by
    simp [sampleErrands, Errand.Of, Request.Of, Call.Of, Config.pages]
  have hunrefused : ∀ g, ∀ x ∈ sampleResults g, x.Unrefused := by
    simp [sampleResults, Errand.Result.Unrefused]
  obtain ⟨-, M', hrep₁, hrep₂⟩ := hcontinues.same _ _ _ _ _ _ _ _ _ hmode hs hs' (hunrefused 1) (hunrefused 0)
  exact ⟨w, d₁, d, M, rest, ⟨hvisited, hlive, hopened, hgeneration⟩, hclose, hopen, hrep, hstack, hcontinues,
    w₁, w₂, M', hs, hs', hrep₁, hrep₂⟩

end Reopening

end FlorestaDb
