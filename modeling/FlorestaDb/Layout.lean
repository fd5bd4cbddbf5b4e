import Mathlib.Algebra.Ring.Nat
import Mathlib.Tactic.Common

/-! Errors, the constants of the persistent format, and the validated storage
configuration. Sixty-four bit quantities that are only added, multiplied and
compared are natural numbers with the source's overflow checks written out. -/
namespace FlorestaDb

inductive Error where
  | io
  | invalidConfig (message : String)
  | invalidKeyLength (expected actual : Nat)
  | outOfMemory
  | capacityExhausted (area : String)
  | corrupt (message : String)
  | busy (message : String)
  | closed
  | unsupported (message : String)
  deriving DecidableEq, Repr

def Error.isCapacity : Error → Bool
  | .capacityExhausted _ => true
  | _ => false

/-- The bound of the source's `u64`. -/
def u64Bound : Nat := 2 ^ 64

def checkedAdd (a b : Nat) : Option Nat := if a + b < u64Bound then some (a + b) else none
def checkedMul (a b : Nat) : Option Nat := if a * b < u64Bound then some (a * b) else none
def checkedSub (a b : Nat) : Option Nat := if b ≤ a then some (a - b) else none

theorem checkedAdd_of_lt {a b : Nat} (h : a + b < u64Bound) : checkedAdd a b = some (a + b) :=
  if_pos h

theorem checkedMul_of_lt {a b : Nat} (h : a * b < u64Bound) : checkedMul a b = some (a * b) :=
  if_pos h

theorem checkedSub_of_le {a b : Nat} (h : b ≤ a) : checkedSub a b = some (a - b) := if_pos h

theorem checkedAdd_some {a b c : Nat} (h : checkedAdd a b = some c) :
    a + b < u64Bound ∧ c = a + b := by
  rw [checkedAdd] at h
  split at h
  · exact ⟨‹_›, (Option.some.inj h).symm⟩
  · cases h

theorem checkedMul_some {a b c : Nat} (h : checkedMul a b = some c) :
    a * b < u64Bound ∧ c = a * b := by
  rw [checkedMul] at h
  split at h
  · exact ⟨‹_›, (Option.some.inj h).symm⟩
  · cases h

def okOr {α : Type} (o : Option α) (e : Error) : Except Error α :=
  match o with
  | some a => .ok a
  | none => .error e

@[simp] theorem okOr_some {α : Type} (a : α) (e : Error) : okOr (some a) e = .ok a := rfl

theorem okOr_ok {α : Type} {o : Option α} {e : Error} {a : α} (h : okOr o e = .ok a) :
    o = some a := by
  cases o with
  | none => cases h
  | some b => exact congrArg some (Except.ok.inj h)

@[simp] theorem ok_bind {α β : Type} (a : α) (f : α → Except Error β) :
    (Except.ok a >>= f) = f a := rfl

@[simp] theorem error_bind {α β : Type} (e : Error) (f : α → Except Error β) :
    (Except.error e >>= f) = .error e := rfl

theorem bind_ok {α β : Type} {x : Except Error α} {f : α → Except Error β} {b : β}
    (h : (x >>= f) = .ok b) : ∃ a, x = .ok a ∧ f a = .ok b := by
  cases x with
  | error e => cases h
  | ok a => exact ⟨a, rfl, h⟩

/-- A failed check returns its error; an accepted value passed the check. -/
theorem guard_ok {α : Type} {c : Prop} [Decidable c] {e : Error} {r : Except Error α} {x : α} :
    (if c then .error e else r) = .ok x ↔ ¬c ∧ r = .ok x := by
  by_cases hc : c <;> simp [hc]

def formatPageSize : Nat := 65536
def dataStart : Nat := formatPageSize
def headsStart : Nat := formatPageSize

def keySize : Nat := 16
def nodeSize : Nat := 32
def nodeAlignment : Nat := 32
def nodeKeyOffset : Nat := 0
def nodeValueOffset : Nat := 16
def nodePointerOffset : Nat := 24
def nodeChecksumShift : UInt64 := 48
def nodePointerMask : UInt64 := 0x0000ffffffffffff
def nodeChecksumSeed : UInt64 := 0x4341534e4f444532

def valueBlobTag : UInt64 := 0x8000000000000000
def valueOffsetMask : UInt64 := 0x7fffffffffffffff
def blobHeaderSize : Nat := 8
def blobChecksumSeed : UInt64 := 0x434153424c4f4232

def isPowerOfTwo (n : Nat) : Bool := n != 0 && n == 2 ^ n.log2

/-- Round up to a power-of-two alignment. The source masks the low bits off. -/
def alignUp (value alignment : Nat) : Option Nat :=
  if alignment = 0 ∨ !isPowerOfTwo alignment then none
  else (checkedAdd value (alignment - 1)).map fun sum => sum / alignment * alignment

inductive Mode where
  | set
  | map
  deriving DecidableEq, Repr

structure Config where
  mode : Mode
  bucketCount : Nat
  bodyCapacity : Nat
  blobCapacity : Nat
  blockSize : Nat
  hashSeed : UInt64
  deriving DecidableEq, Repr

def Config.validate (c : Config) : Except Error Unit :=
  if c.bucketCount = 0 then .error (.invalidConfig "bucket count must be nonzero")
  else if c.bodyCapacity = 0 then .error (.invalidConfig "body capacity must be nonzero")
  else if c.bodyCapacity > nodePointerMask.toNat - dataStart then
    .error (.invalidConfig "body capacity exceeds the packed node-pointer range")
  else if c.mode = .map ∧ c.blobCapacity = 0 then
    .error (.invalidConfig "map mode requires nonzero fallback blob capacity")
  else if c.mode = .set ∧ c.blobCapacity ≠ 0 then
    .error (.invalidConfig "set mode cannot have blob capacity")
  else if c.blockSize < formatPageSize ∨ !isPowerOfTwo c.blockSize then
    .error (.invalidConfig "block size must be a power of two no smaller than 65536")
  else if c.blockSize > 2 ^ 32 - 1 then .error (.invalidConfig "block size must fit in 32 bits")
  else if c.bodyCapacity % c.blockSize ≠ 0 then
    .error (.invalidConfig "body capacity must be block aligned")
  else if c.blobCapacity % c.blockSize ≠ 0 then
    .error (.invalidConfig "blob capacity must be block aligned")
  else if nodeSize > c.blockSize then .error (.invalidConfig "body page cannot hold one node")
  else .ok ()

/-- What a configuration that passed `validate` promises to the rest of the code. -/
structure Config.Valid (c : Config) : Prop where
  bucket_pos : 0 < c.bucketCount
  body_pos : 0 < c.bodyCapacity
  body_bound : c.bodyCapacity ≤ nodePointerMask.toNat - dataStart
  map_blob : c.mode = .map → 0 < c.blobCapacity
  set_blob : c.mode = .set → c.blobCapacity = 0
  block_min : formatPageSize ≤ c.blockSize
  block_pow : isPowerOfTwo c.blockSize = true
  block_bound : c.blockSize < 2 ^ 32
  body_aligned : c.bodyCapacity % c.blockSize = 0
  blob_aligned : c.blobCapacity % c.blockSize = 0

theorem Config.validate_ok {c : Config} (h : c.validate = .ok ()) : c.Valid := by
  simp only [validate, guard_ok] at h
  obtain ⟨h1, h2, h3, h4, h5, h6, h7, h8, h9, h10, -⟩ := h
  simp only [not_or, Bool.not_eq_false, Bool.not_eq_eq_eq_not, Bool.not_true] at h6
  refine ⟨by omega, by omega, by omega, ?_, ?_, by omega, ?_, by omega, by omega, by omega⟩
  · intro hm
    exact Nat.pos_of_ne_zero fun hz => h4 ⟨hm, hz⟩
  · intro hm
    by_contra hz
    exact h5 ⟨hm, hz⟩
  · simpa using h6.2

theorem isPowerOfTwo_exists {n : Nat} (h : isPowerOfTwo n = true) : ∃ k, n = 2 ^ k := by
  simp only [isPowerOfTwo, Bool.and_eq_true, beq_iff_eq] at h
  exact ⟨n.log2, h.2⟩

end FlorestaDb
