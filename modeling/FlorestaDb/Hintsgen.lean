import FlorestaDb.Sessions

/-! The workers of `hintsgen`: adders index the outputs of the blocks they claim, removers
pop the outpoints that the blocks they claim spend. Both claim ranges of heights from a
shared cursor and publish how far they have come in a slot of their own. The database is
the map of stacks, with `put_batch` and `batch_pop` as single steps. -/
namespace FlorestaDb.Hintsgen

def maxAdderLeadBlocks : Nat := 4096

/- A run of the program: the numbers of workers, the size of a range and the end height, and
   the outputs and spent outpoints that reading the block at a height returns. -/
structure Job where
  adders : Nat
  removers : Nat
  size : Nat
  endHeight : Nat
  outputs : Nat → List (Key × List UInt8)
  spends : Nat → List Key

/-- Why a worker gives up. `outside` is an error of the chain reader or of the database. -/
inductive Fault where
  | outside
  | aborted
  | notMonotonic
  | indexedTwice
  | overflow
  | underflow
  | missing
  deriving DecidableEq

/- Where an adder stands. A range that is held is named by the height it has come to and its
   end. -/
inductive AdderPc where
  | claim
  | exchange (start : Nat)
  | claimed (start stop : Nat)
  | publishStart (start stop : Nat)
  | window (height stop : Nat)
  | read (height stop : Nat)
  | put (height stop : Nat)
  | count (height stop : Nat)
  | credit (height stop : Nat)
  | publish (height stop : Nat)
  | finish
  | done
  deriving DecidableEq

inductive RemoverPc where
  | check
  | scan (i low : Nat)
  | claim (limit : Nat)
  | exchange (limit start : Nat)
  | publishStart (start stop : Nat)
  | pop (start stop : Nat)
  | debit (start stop : Nat)
  | publishEnd (start stop : Nat)
  | isFinished
  | nextHeight
  | publishNext (next : Nat)
  | rangeEnd
  | compare (required i low : Nat)
  | waiting (required : Nat)
  | finish
  | done
  deriving DecidableEq

/- The shared cells of the adders. `owner`, `claims`, `inserted` and `credited` are history
   variables: who claimed a height, how often it was claimed, and what was done with it. -/
structure AddSide where
  next : Nat
  slots : Nat → Nat
  counts : Nat → Option Nat
  pcs : Nat → AdderPc
  faults : Nat → Option Fault
  owner : Nat → Option Nat
  claims : Nat → Nat
  inserted : Nat → Bool
  credited : Nat → Bool

structure RemoveSide where
  next : Nat
  slots : Nat → Nat
  pcs : Nat → RemoverPc
  faults : Nat → Option Fault
  owner : Nat → Option Nat
  claims : Nat → Nat
  popped : Nat → Bool
  debited : Nat → Bool

structure State where
  add : AddSide
  remove : RemoveSide
  live : Nat
  database : Stacks
  aborted : Bool

section Shared

/-- `minimum_progress`: the slots are read one after the other. -/
def minimumProgress (slots : Nat → Nat) (workers endHeight : Nat) : Nat :=
  (List.range workers).foldl (fun low i => min low (slots i)) endHeight

def State.minimumAdder (job : Job) (s : State) : Nat :=
  minimumProgress s.add.slots job.adders job.endHeight

def State.minimumRemover (job : Job) (s : State) : Nat :=
  minimumProgress s.remove.slots job.removers job.endHeight

def State.adderCanProcess (job : Job) (s : State) (height : Nat) : Bool :=
  height < s.minimumRemover job + maxAdderLeadBlocks

/-- The end of the range that starts at `start`. -/
def Job.rangeEnd (job : Job) (start : Nat) : Nat := min (start + job.size) job.endHeight

/-- The check of `publish` before its compare-exchange on the worker's own slot. -/
def canPublish (job : Job) (old completed : Nat) : Bool := old ≤ completed && completed ≤ job.endHeight

/-- Every height from `start` to `stop` marked with `value`. -/
def markRange {α : Type} (f : Nat → α) (start stop : Nat) (value : α) : Nat → α :=
  fun x => if start ≤ x ∧ x < stop then value else f x

def bumpRange (f : Nat → Nat) (start stop : Nat) : Nat → Nat :=
  fun x => if start ≤ x ∧ x < stop then f x + 1 else f x

def AddSide.goto (d : AddSide) (a : Nat) (pc : AdderPc) : AddSide :=
  { d with pcs := Function.update d.pcs a pc }

def RemoveSide.goto (d : RemoveSide) (r : Nat) (pc : RemoverPc) : RemoveSide :=
  { d with pcs := Function.update d.pcs r pc }

def State.adderTo (s : State) (a : Nat) (pc : AdderPc) : State := { s with add := s.add.goto a pc }

def State.removerTo (s : State) (r : Nat) (pc : RemoverPc) : State :=
  { s with remove := s.remove.goto r pc }

/-- A worker returns an error where it stands. -/
def State.adderFails (s : State) (a : Nat) (f : Fault) : State :=
  { s with add := { s.add with faults := Function.update s.add.faults a (some f) } }

def State.removerFails (s : State) (r : Nat) (f : Fault) : State :=
  { s with remove := { s.remove with faults := Function.update s.remove.faults r (some f) } }

end Shared

section Adders

/-- `publish_adder`, and where the adder goes from there. -/
def State.publishAdder (job : Job) (s : State) (a completed : Nat) (pc : AdderPc) : State :=
  if canPublish job (s.add.slots a) completed then
    { s with add := ({ s.add with slots := Function.update s.add.slots a completed }).goto a pc }
  else s.adderFails a .notMonotonic

/-- One atomic step of `add_worker`; `none` is a wait that is not satisfied, or the end. Slots
only grow, so a wait that reads them one by one and succeeds also succeeds at its last read. -/
def adderStep (job : Job) (a : Nat) (s : State) : Option State :=
  match s.add.pcs a with
  | .claim =>
    if s.add.next ≥ job.endHeight then some (s.adderTo a .finish)
    else some (s.adderTo a (.exchange s.add.next))
  | .exchange start =>
    if s.add.next = start then
      let stop := job.rangeEnd start
      some { s with add := ({ s.add with
        next := stop
        owner := markRange s.add.owner start stop (some a)
        claims := bumpRange s.add.claims start stop }).goto a (.claimed start stop) }
    else some (s.adderTo a .claim)
  | .claimed start stop =>
    if s.aborted then some (s.adderFails a .aborted)
    else some (s.adderTo a (.publishStart start stop))
  | .publishStart start stop => some (s.publishAdder job a start (.window start stop))
  | .window height stop =>
    -- `wait_until` checks for an abort before it looks at the slots
    if s.aborted then some (s.adderFails a .aborted)
    else if s.adderCanProcess job height then some (s.adderTo a (.read height stop))
    else none
  | .read height stop =>
    if s.aborted then some (s.adderFails a .aborted) else some (s.adderTo a (.put height stop))
  | .put height stop =>
    some { s with
      database := s.database.pushAll (job.outputs height)
      add := ({ s.add with inserted := Function.update s.add.inserted height true }).goto a
        (.count height stop) }
  | .count height stop =>
    match s.add.counts height with
    | none =>
      let counts := Function.update s.add.counts height (some (job.outputs height).length)
      some { s with add := ({ s.add with counts := counts }).goto a (.credit height stop) }
    | some _ => some (s.adderFails a .indexedTwice)
  | .credit height stop =>
    -- `cas_add`
    if s.live + (job.outputs height).length < u64Bound then
      some { s with
        live := s.live + (job.outputs height).length
        add := ({ s.add with credited := Function.update s.add.credited height true }).goto a
          (.publish height stop) }
    else some (s.adderFails a .overflow)
  | .publish height stop =>
    some (s.publishAdder job a (height + 1)
      (if height + 1 < stop then .window (height + 1) stop else .claim))
  | .finish => some (s.publishAdder job a job.endHeight .done)
  | .done => none

end Adders

section Removers

def State.publishRemover (job : Job) (s : State) (r completed : Nat) (pc : RemoverPc) : State :=
  if canPublish job (s.remove.slots r) completed then
    { s with
      remove := ({ s.remove with slots := Function.update s.remove.slots r completed }).goto r pc }
  else s.removerFails r .notMonotonic

/-- The outpoints that the blocks of a range spend, in order. -/
def Job.rangeSpends (job : Job) (start stop : Nat) : List Key :=
  (List.range' start (stop - start)).flatMap job.spends

/-- The keys of the list are looked up, not all keys there are. -/
instance decidableStored (keys : List Key) (M : Stacks) :
    Decidable (∀ key ∈ keys, M key ≠ []) :=
  List.decidableBAll (fun key => M key ≠ []) keys

/-- One atomic step of `remove_worker`. -/
def removerStep (job : Job) (r : Nat) (s : State) : Option State :=
  match s.remove.pcs r with
  | .check =>
    if s.aborted then some (s.removerFails r .aborted)
    else some (s.removerTo r (.scan 0 job.endHeight))
  | .scan i low =>
    if i < job.adders then some (s.removerTo r (.scan (i + 1) (min low (s.add.slots i))))
    else some (s.removerTo r (.claim low))
  | .claim limit =>
    let start := s.remove.next
    if start ≥ min limit job.endHeight then some (s.removerTo r .isFinished)
    else if job.rangeEnd start > min limit job.endHeight then some (s.removerTo r .isFinished)
    else some (s.removerTo r (.exchange limit start))
  | .exchange limit start =>
    if s.remove.next = start then
      let stop := job.rangeEnd start
      some { s with remove := ({ s.remove with
        next := stop
        owner := markRange s.remove.owner start stop (some r)
        claims := bumpRange s.remove.claims start stop }).goto r (.publishStart start stop) }
    else some (s.removerTo r (.claim limit))
  | .publishStart start stop => some (s.publishRemover job r start (.pop start stop))
  | .pop start stop =>
    let keys := job.rangeSpends start stop
    -- `batch_pop` turns equal keys down; `pop_spent_positions` turns a missing value down
    if keys.Nodup ∧ ∀ key ∈ keys, s.database key ≠ [] then
      some { s with
        database := s.database.popAll keys
        remove := ({ s.remove with
          popped := markRange s.remove.popped start stop true }).goto r (.debit start stop) }
    else some (s.removerFails r .missing)
  | .debit start stop =>
    -- `cas_sub`
    if (job.rangeSpends start stop).length ≤ s.live then
      some { s with
        live := s.live - (job.rangeSpends start stop).length
        remove := ({ s.remove with
          debited := markRange s.remove.debited start stop true }).goto r (.publishEnd start stop) }
    else some (s.removerFails r .underflow)
  | .publishEnd _ stop => some (s.publishRemover job r stop .check)
  | .isFinished =>
    if s.remove.next ≥ job.endHeight then some (s.removerTo r .finish)
    else some (s.removerTo r .nextHeight)
  | .nextHeight => some (s.removerTo r (.publishNext s.remove.next))
  | .publishNext next => some (s.publishRemover job r next .rangeEnd)
  | .rangeEnd => some (s.removerTo r (.compare (job.rangeEnd s.remove.next) 0 job.endHeight))
  | .compare required i low =>
    if i < job.adders then some (s.removerTo r (.compare required (i + 1) (min low (s.add.slots i))))
    else if low < required then some (s.removerTo r (.waiting required))
    else some (s.removerTo r .check)
  | .waiting required =>
    if s.aborted then some (s.removerFails r .aborted)
    else if s.minimumAdder job ≥ required then some (s.removerTo r .check)
    else none
  | .finish => some (s.publishRemover job r job.endHeight .done)
  | .done => none

end Removers

/-- The points at which a block cannot be read, a call of the database fails, or what it
returned cannot be counted or stored. -/
def AdderPc.Fallible : AdderPc → Prop
  | .put _ _ => True
  | .count _ _ => True
  | _ => False

def RemoverPc.Fallible : RemoverPc → Prop
  | .pop _ _ => True
  | .debit _ _ => True
  | .finish => True
  | _ => False

/- One step of the system: of a worker that has not failed, a failure from outside, or the
   abort that follows a failure. -/
inductive Step (job : Job) (s : State) : State → Prop where
  | adder {s' : State} (a : Nat) (worker : a < job.adders) (working : s.add.faults a = none)
      (step : adderStep job a s = some s') : Step job s s'
  | remover {s' : State} (r : Nat) (worker : r < job.removers) (working : s.remove.faults r = none)
      (step : removerStep job r s = some s') : Step job s s'
  | adderError (a : Nat) (worker : a < job.adders) (working : s.add.faults a = none)
      (fallible : (s.add.pcs a).Fallible) : Step job s (s.adderFails a .outside)
  | removerError (r : Nat) (worker : r < job.removers) (working : s.remove.faults r = none)
      (fallible : (s.remove.pcs r).Fallible) : Step job s (s.removerFails r .outside)
  | adderAborts (a : Nat) (worker : a < job.adders) (failed : s.add.faults a ≠ none) :
      Step job s { s with aborted := true }
  | removerAborts (r : Nat) (worker : r < job.removers) (failed : s.remove.faults r ≠ none) :
      Step job s { s with aborted := true }

def AddSide.initial : AddSide where
  next := 0
  slots := fun _ => 0
  counts := fun _ => none
  pcs := fun _ => .claim
  faults := fun _ => none
  owner := fun _ => none
  claims := fun _ => 0
  inserted := fun _ => false
  credited := fun _ => false

def RemoveSide.initial : RemoveSide where
  next := 0
  slots := fun _ => 0
  pcs := fun _ => .check
  faults := fun _ => none
  owner := fun _ => none
  claims := fun _ => 0
  popped := fun _ => false
  debited := fun _ => false

/-- All workers are about to start on an empty database. -/
def State.initial : State := ⟨.initial, .initial, 0, fun _ => [], false⟩

inductive Reachable (job : Job) : State → Prop where
  | initial : Reachable job .initial
  | step {s s' : State} (h : Reachable job s) (step : Step job s s') : Reachable job s'

inductive Worker where
  | adder (a : Nat)
  | remover (r : Nat)

/-- A step of one of the workers of the job, if it has not failed. -/
def Worker.step (job : Job) (s : State) : Worker → Option State
  | .adder a => if a < job.adders ∧ s.add.faults a = none then adderStep job a s else none
  | .remover r => if r < job.removers ∧ s.remove.faults r = none then removerStep job r s else none

/-- The workers take steps in the order given. -/
def follow (job : Job) : List Worker → State → Option State
  | [], s => some s
  | w :: ws, s => (w.step job s).bind (follow job ws)

theorem Worker.step_sound {job : Job} {s s' : State} {w : Worker} (h : w.step job s = some s') :
    Step job s s' := by
  cases w with
  | adder a =>
    rw [Worker.step] at h
    split at h
    · rename_i hwork
      exact .adder a hwork.1 hwork.2 h
    · cases h
  | remover r =>
    rw [Worker.step] at h
    split at h
    · rename_i hwork
      exact .remover r hwork.1 hwork.2 h
    · cases h

theorem Reachable.follow {job : Job} {ws : List Worker} {s s' : State} (h : Reachable job s)
    (hws : Hintsgen.follow job ws s = some s') : Reachable job s' := by
  induction ws generalizing s with
  | nil =>
    cases hws
    exact h
  | cons w ws ih =>
    obtain ⟨m, hstep, hrest⟩ := Option.bind_eq_some_iff.mp hws
    exact ih (h.step (Worker.step_sound hstep)) hrest

end FlorestaDb.Hintsgen
