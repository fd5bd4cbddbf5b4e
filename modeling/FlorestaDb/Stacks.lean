import FlorestaDb.Create
import FlorestaDb.BatchInsert

/-! What the scalar interface is for: every key has a stack of values, newest first. The
calls of one thread, made one after the other, do to these stacks what they return. -/
namespace FlorestaDb
open Program Program.Prog Allocator

/- The scalar calls with their sixteen-byte keys. `append` is `write_only` with one
   entry. -/
inductive Call where
  | add (key : Key)
  | put (key : Key) (value : List UInt8)
  | putNew (key : Key) (value : List UInt8)
  | append (key : Key) (value : List UInt8)
  | get (key : Key)
  | contains (key : Key)
  | delete (key : Key)

inductive Reply where
  | put (result : PutResult)
  | flag (value : Bool)
  | count (published : Nat)
  | value (bytes : Option (List UInt8))
  deriving DecidableEq

/-- The calls a mode has; the others return `Unsupported`. -/
def Call.Of (mode : Mode) : Call → Prop
  | .add _ => mode = .set
  | .put _ _ => mode = .map
  | .putNew _ _ => mode = .map
  | .append _ _ => mode = .map
  | .get _ => mode = .map
  | .contains _ => True
  | .delete _ => True

def Call.program (cfg : Config) (m : Machine) : Call → TableM Reply
  | .add key => do return .put (← FlorestaDb.add cfg m key.toList)
  | .put key value => do return .put (← FlorestaDb.put cfg m key.toList value)
  | .putNew key value => do return .flag (← FlorestaDb.putNew cfg m key.toList value)
  | .append key value => do return .count (← putBatch cfg m [(key.toList, value)])
  | .get key => do return .value (← FlorestaDb.get cfg m key.toList)
  | .contains key => do return .flag (← FlorestaDb.contains cfg m key.toList)
  | .delete key => do return .flag (← FlorestaDb.delete cfg m key.toList)

/-- The stack of each key, newest value first. A set stores the empty value. -/
abbrev Stacks := Key → List (List UInt8)

def Stacks.set (M : Stacks) (key : Key) (stack : List (List UInt8)) : Stacks :=
  Function.update M key stack

/-- What a call returns and leaves, in terms of the stacks alone. -/
def Call.model (M : Stacks) : Call → Reply × Stacks
  | .add key => (.put .inserted, M.set key ([] :: M key))
  | .put key value =>
    match M key with
    | [] => (.put .inserted, M.set key [value])
    | _ :: older => (.put .replaced, M.set key (value :: older))
  | .putNew key value =>
    match M key with
    | [] => (.flag true, M.set key [value])
    | _ :: _ => (.flag false, M)
  | .append key value => (.count 1, M.set key (value :: M key))
  | .get key => (.value (M key).head?, M)
  | .contains key => (.flag (!(M key).isEmpty), M)
  | .delete key => (.flag (!(M key).isEmpty), M.set key (M key).tail)

/-- The database is at rest and its chains hold exactly the stacks `M`. -/
structure Represents (cfg : Config) (d : Db) (M : Stacks) : Prop where
  idle : Idle d
  holds : ∃ T, Holds cfg d.store d.runtimeHeads T ∧ Buckets.stack (bucketOf cfg) T = M

/-- One call against the model: its reply and effect, or a refusal without effect. -/
def Call.Agrees (v : Env) (M : Stacks) (c : Call) (res : Except Error Reply) (M' : Stacks) : Prop :=
  (res = .ok (c.model M).1 ∧ M' = (c.model M).2) ∨ ∃ e, res = .error e ∧ Refusal v e ∧ M' = M

/-- A sequence of calls against the model. -/
def Agree (v : Env) (M : Stacks) : List Call → List (Except Error Reply) → Stacks → Prop
  | [], [], M' => M' = M
  | c :: calls, res :: results, M' =>
    ∃ M₁, c.Agrees v M res M₁ ∧ Agree v M₁ calls results M'
  | _, _, _ => False

/-- The calls of one thread, one after the other; the operating system does not fail. -/
def runCalls (cfg : Config) (m : Machine) (t : Tid) :
    List Call → Db → Option (List (Except Error Reply) × Db)
  | [], d => some ([], d)
  | c :: calls, d => do
    let (res, d) ← (c.program cfg m).run t d
    let (results, d) ← runCalls cfg m t calls d
    return (res :: results, d)

/-- The same calls when operating-system calls may fail and weak exchanges may be repeated. -/
inductive Session (cfg : Config) (m : Machine) (t : Tid) :
    List Call → Db → List (Except Error Reply) → Db → Prop where
  | nil (d : Db) : Session cfg m t [] d [] d
  | cons {c : Call} {calls : List Call} {d d₁ d' : Db} {res : Except Error Reply}
      {results : List (Except Error Reply)} (step : (c.program cfg m).Returns t d res d₁)
      (rest : Session cfg m t calls d₁ results d') :
      Session cfg m t (c :: calls) d (res :: results) d'

variable {cfg : Config} {m : Machine} {v : Env} {t : Tid} {d d' : Db} {M : Stacks}
  {T T' : Nat → List (Key × List UInt8)}

section Buckets

theorem stack_push_eq (key : Key) (value : List UInt8) :
    Buckets.stack (bucketOf cfg) (Buckets.push (bucketOf cfg) T key value) =
      (show Stacks from Buckets.stack (bucketOf cfg) T).set key
        (value :: Buckets.stack (bucketOf cfg) T key) := by
  funext k
  rw [Buckets.stack_push, Stacks.set, Function.update_apply]

theorem stack_drop_eq (key : Key) :
    Buckets.stack (bucketOf cfg) (Buckets.drop (bucketOf cfg) T key) =
      (show Stacks from Buckets.stack (bucketOf cfg) T).set key
        (Buckets.stack (bucketOf cfg) T key).tail := by
  funext k
  rw [Buckets.stack_drop, Stacks.set, Function.update_apply]

theorem Represents.of_holds (hi : Idle d) (hf : Frame d d')
    (h : Holds cfg d'.store d'.runtimeHeads T)
    (hM : Buckets.stack (bucketOf cfg) T = M) : Represents cfg d' M :=
  ⟨hi.frame hf, T, h, hM⟩

end Buckets

section Calls
variable {α : Type}

/-- A call that cannot run out of space. -/
theorem agrees_total {p : TableM α} {reply : α → Reply} {c : Call} {r : α}
    (hp : c.program cfg m = p >>= fun x => pure (reply x)) (hi : Idle d)
    (hspec : p.wp v t (fun res d' => Frame d d' ∧
      (res = .ok r ∧ Holds cfg d'.store d'.runtimeHeads T')) d)
    (hmodel : c.model M = (reply r, Buckets.stack (bucketOf cfg) T')) :
    (c.program cfg m).wp v t (fun res d' => ∃ M', c.Agrees v M res M' ∧ Represents cfg d' M') d := by
  rw [hp]
  refine wp_seq hspec ?_
  rintro _ d' ⟨hframe, rfl, hholds⟩
  rw [andThen_ok, wp_pure]
  exact ⟨_, Or.inl ⟨by rw [hmodel], rfl⟩, .of_holds hi hframe hholds (by rw [hmodel])⟩

/-- A call that allocates: it may be refused, and then nothing has changed. -/
theorem agrees_outcome {p : TableM α} {reply : α → Reply} {c : Call} {r : α}
    (hp : c.program cfg m = p >>= fun x => pure (reply x)) (hi : Idle d)
    (h : Holds cfg d.store d.runtimeHeads T)
    (hspec : p.wp v t (fun res d' => Frame d d' ∧
      Outcome cfg v d r T' res d'.store d'.runtimeHeads) d)
    (hM : Buckets.stack (bucketOf cfg) T = M)
    (hmodel : c.model M = (reply r, Buckets.stack (bucketOf cfg) T')) :
    (c.program cfg m).wp v t (fun res d' => ∃ M', c.Agrees v M res M' ∧ Represents cfg d' M') d := by
  rw [hp]
  refine wp_seq hspec ?_
  rintro _ d' ⟨hframe, ⟨rfl, hholds⟩ | ⟨e, rfl, he, hholds⟩⟩
  · rw [andThen_ok, wp_pure]
    exact ⟨_, Or.inl ⟨by rw [hmodel], rfl⟩, .of_holds hi hframe hholds (by rw [hmodel])⟩
  · rw [andThen_error]
    exact ⟨M, Or.inr ⟨e, rfl, he, rfl⟩, .of_holds hi hframe (hholds.holds h) hM⟩

theorem append_spec (hr : cfg.Ready) (hi : Idle d) (h : Holds cfg d.store d.runtimeHeads T)
    (hm : cfg.mode = .map) (key : Key) (value : List UInt8) (hf : v = .fair → m.Enough cfg) :
    (putBatch cfg m [(key.toList, value)]).wp v t (fun res d' => Frame d d' ∧
      Outcome cfg v d 1 (Buckets.push (bucketOf cfg) T key value) res d'.store d'.runtimeHeads)
      d := by
  have hes : validateEntries cfg [(key.toList, some value)] = .ok [(key, some value)] := by
    rw [validateEntries, validateKey_toList, validateValue_ok (Or.inr ⟨hm, rfl⟩)]
    rfl
  have hspec := insertBatchInner_spec (v := v) (t := t) (m := m) hr hi h hes hf
  rw [List.map_singleton, Buckets.pushAll_singleton] at hspec
  rw [putBatch, requireMode_ok hm, wp_bind, wp_ofExcept, andThen_ok]
  exact hspec

/-- One call of the mode, from any state at rest. -/
theorem call_agrees (hr : cfg.Ready) (h : Represents cfg d M) (c : Call) (hc : c.Of cfg.mode)
    (hf : v = .fair → m.Enough cfg) :
    (c.program cfg m).wp v t (fun res d' => ∃ M', c.Agrees v M res M' ∧ Represents cfg d' M') d := by
  obtain ⟨hi, T, hholds, rfl⟩ := h
  cases c with
  | add key =>
    refine agrees_outcome rfl hi hholds (add_spec hr hi hholds hc key hf) rfl ?_
    rw [stack_push_eq]
    rfl
  | put key value =>
    refine agrees_outcome rfl hi hholds (put_spec hr hi hholds hc key value hf) rfl ?_
    rw [Call.model, putModel]
    cases hs : Buckets.stack (bucketOf cfg) T key with
    | nil =>
      dsimp only [List.isEmpty]
      rw [if_pos rfl, stack_push_eq, hs]
    | cons top older =>
      dsimp only [List.isEmpty]
      rw [if_neg (by decide), stack_push_eq, stack_drop_eq, hs]
      simp [Stacks.set]
  | putNew key value =>
    refine agrees_outcome rfl hi hholds (putNew_spec hr hi hholds hc key value hf) rfl ?_
    rw [Call.model, putNewModel]
    cases hs : Buckets.stack (bucketOf cfg) T key with
    | nil =>
      dsimp only [List.isEmpty]
      rw [if_pos rfl, stack_push_eq, hs]
    | cons top older => rfl
  | append key value =>
    refine agrees_outcome rfl hi hholds (append_spec hr hi hholds hc key value hf) rfl ?_
    rw [stack_push_eq]
    rfl
  | get key => exact agrees_total rfl hi (get_spec hr hi hholds hc key hf) rfl
  | contains key => exact agrees_total rfl hi (contains_spec hr hi hholds key hf) rfl
  | delete key =>
    refine agrees_total rfl hi (delete_spec hr hi hholds key hf) ?_
    rw [stack_drop_eq]
    rfl

end Calls

section Runs

theorem runCalls_agree (hr : cfg.Ready) (hf : m.Enough cfg) {calls : List Call}
    (hcalls : ∀ c ∈ calls, c.Of cfg.mode) (h : Represents cfg d M) :
    ∃ results d', runCalls cfg m t calls d = some (results, d') ∧
      ∃ M', Agree .fair M calls results M' ∧ Represents cfg d' M' := by
  induction calls generalizing d M with
  | nil => exact ⟨[], d, rfl, M, rfl, h⟩
  | cons c calls ih =>
    obtain ⟨res, d₁, hrun, M₁, hagree, hrep⟩ :=
      run_of_wp (call_agrees (t := t) hr h c (hcalls c (by simp)) fun _ => hf)
    obtain ⟨results, d', hrest, M', hagree', hrep'⟩ :=
      ih (fun c hc => hcalls c (List.mem_cons_of_mem _ hc)) hrep
    exact ⟨res :: results, d', by simp [runCalls, hrun, hrest], M', ⟨M₁, hagree, hagree'⟩, hrep'⟩

theorem Session.agree (hr : cfg.Ready) {calls : List Call} {results : List (Except Error Reply)}
    (hs : Session cfg m t calls d results d') (hcalls : ∀ c ∈ calls, c.Of cfg.mode)
    (h : Represents cfg d M) : ∃ M', Agree .any M calls results M' ∧ Represents cfg d' M' := by
  induction hs generalizing M with
  | nil d => exact ⟨M, rfl, h⟩
  | cons step _ ih =>
    obtain ⟨M₁, hagree, hrep⟩ :=
      post_of_returns (call_agrees hr h _ (hcalls _ (by simp)) (fun hv => by cases hv)) step
    obtain ⟨M', hagree', hrep'⟩ := ih (fun c hc => hcalls c (List.mem_cons_of_mem _ hc)) hrep
    exact ⟨M', ⟨M₁, hagree, hagree'⟩, hrep'⟩

theorem represents_create (h : Db.create cfg = .ok d) : Represents cfg d fun _ => [] := by
  obtain ⟨-, rfl⟩ := create_eq h
  exact ⟨idle_fresh _ _, fun _ => [], holds_fresh cfg, rfl⟩

/-- Every sequence of scalar calls on a new database returns, and each call that is not
refused for space returns what the stacks say and leaves the stacks it should. The same
holds of whatever the calls return when the operating system fails some of them. -/
theorem scalar_calls_refine_stacks (hcreate : Db.create cfg = .ok d) (hf : m.Enough cfg)
    (calls : List Call) (hcalls : ∀ c ∈ calls, c.Of cfg.mode) :
    (∃ results d', runCalls cfg m t calls d = some (results, d') ∧
      ∃ M', Agree .fair (fun _ => []) calls results M' ∧ Represents cfg d' M') ∧
    ∀ results d', Session cfg m t calls d results d' →
      ∃ M', Agree .any (fun _ => []) calls results M' ∧ Represents cfg d' M' := by
  have hr := (create_eq hcreate).1
  have hrep := represents_create hcreate
  exact ⟨runCalls_agree hr hf hcalls hrep, fun results d' hs => hs.agree hr hcalls hrep⟩

/-- Two values of one key, the second replacing the first. -/
theorem scalar_calls_refine_stacks_small :
    ∃ d, Db.create Config.small = .ok d ∧
      ∃ results d', runCalls Config.small Machine.small 0
          [.put (Vector.replicate 16 7) [1, 2, 3], .put (Vector.replicate 16 7) [4],
            .get (Vector.replicate 16 7), .delete (Vector.replicate 16 7)] d =
            some (results, d') ∧
        ∃ M', Agree .fair (fun _ => [])
          [.put (Vector.replicate 16 7) [1, 2, 3], .put (Vector.replicate 16 7) [4],
            .get (Vector.replicate 16 7), .delete (Vector.replicate 16 7)] results M' ∧
          Represents Config.small d' M' := by
  refine ⟨_, create_small, ?_⟩
  refine (scalar_calls_refine_stacks create_small enough_small _ ?_).1
  intro c hc
  simp only [List.mem_cons, List.not_mem_nil, or_false] at hc
  rcases hc with rfl | rfl | rfl | rfl <;> trivial

end Runs

end FlorestaDb
