import FlorestaDb.NodeLife

/-! What one flipped bit does to the checksum of a node. The checksum folds the digest of
the key and the rotated value onto sixteen bits and never is zero, the mark of a tombstone:
a fold of zero is stored as one. -/
namespace FlorestaDb
open Program Program.Prog Allocator

section Fold

/-- The word with bit `i` alone. -/
def bit (i : Nat) : UInt64 := 1 <<< UInt64.ofNat i

/-- The four sixteen-bit quarters of a word, combined. -/
def fold16 (x : UInt64) : UInt64 := (x ^^^ x >>> 16 ^^^ x >>> 32 ^^^ x >>> 48) &&& 0xffff

/-- A fold of zero is kept for tombstones. -/
def clamp (x : UInt64) : UInt64 := if x = 0 then 1 else x

theorem nodeChecksum_eq (key : Key) (value : UInt64) :
    nodeChecksum key value = clamp (fold16
      (Hash.xxh64 key.toList nodeChecksumSeed ^^^ Hash.rotateLeft value 29)) := rfl

/-- Bit `i` of a word rotated by 29 comes from one bit of the word. -/
theorem testBit_rotateLeft (x : UInt64) {i : Nat} (hi : i < 64) :
    (Hash.rotateLeft x 29).toNat.testBit i =
      x.toNat.testBit (if i < 29 then i + 35 else i - 29) := by
  have hx : x.toNat < 2 ^ 64 := x.toNat_lt
  rw [Hash.rotateLeft, UInt64.toNat_or, UInt64.toNat_shiftLeft, UInt64.toNat_shiftRight,
    Nat.testBit_or, Nat.testBit_mod_two_pow, Nat.testBit_shiftLeft, Nat.testBit_shiftRight]
  change (decide (i < 64) && (decide (i ≥ 29) && x.toNat.testBit (i - 29)) ||
    x.toNat.testBit (35 + i)) = _
  by_cases h : i < 29
  · rw [if_pos h, Nat.add_comm 35]
    simp [Nat.not_le.mpr h]
  · have hhigh : x.toNat.testBit (35 + i) = false :=
      Nat.testBit_lt_two_pow (Nat.lt_of_lt_of_le hx (Nat.pow_le_pow_right (by decide) (by omega)))
    rw [if_neg h, hhigh]
    simp [hi, Nat.not_lt.mp h]

theorem testBit_high (x : UInt64) {i : Nat} (hi : ¬i < 64) : x.toNat.testBit i = false :=
  Nat.testBit_lt_two_pow (Nat.lt_of_lt_of_le x.toNat_lt
    (Nat.pow_le_pow_right (by decide) (Nat.not_lt.mp hi)))

theorem rotateLeft_xor (x y : UInt64) :
    Hash.rotateLeft (x ^^^ y) 29 = Hash.rotateLeft x 29 ^^^ Hash.rotateLeft y 29 := by
  apply UInt64.toNat_inj.mp
  apply Nat.eq_of_testBit_eq
  intro i
  by_cases hi : i < 64
  · rw [UInt64.toNat_xor, Nat.testBit_xor, testBit_rotateLeft _ hi, testBit_rotateLeft _ hi,
      testBit_rotateLeft _ hi, UInt64.toNat_xor, Nat.testBit_xor]
  · rw [testBit_high _ hi, testBit_high _ hi]

theorem fold16_xor (x y : UInt64) : fold16 (x ^^^ y) = fold16 x ^^^ fold16 y := by
  have hand : ∀ a b m : UInt64, (a ^^^ b) &&& m = (a &&& m) ^^^ (b &&& m) := by
    intro a b m
    apply UInt64.toNat_inj.mp
    simp only [UInt64.toNat_and, UInt64.toNat_xor, Nat.and_xor_distrib_right]
  rw [fold16, fold16, fold16, ← hand, UInt64.shiftRight_xor, UInt64.shiftRight_xor,
    UInt64.shiftRight_xor]
  ac_rfl

theorem fold16_rotated (i : Nat) (hi : i < 64) :
    fold16 (Hash.rotateLeft (bit i) 29) = bit ((i + 29) % 16) := by
  have h : ∀ i : Fin 64, fold16 (Hash.rotateLeft (bit i) 29) = bit ((i + 29) % 16) := by decide
  exact h ⟨i, hi⟩

theorem bit_ne_zero {i : Nat} (hi : i < 64) : bit i ≠ 0 := by
  have h : ∀ i : Fin 64, bit i ≠ 0 := by decide
  exact h ⟨i, hi⟩

theorem bit_eq_one {i : Nat} (hi : i < 64) : bit i = 1 ↔ i = 0 := by
  have h : ∀ i : Fin 64, bit i = 1 ↔ (i : Nat) = 0 := by decide
  exact h ⟨i, hi⟩

theorem bit_shiftRight {j : Nat} (hj : j < 16) : bit (48 + j) >>> 48 = bit j := by
  have h : ∀ j : Fin 16, bit (48 + j) >>> 48 = bit j := by decide
  exact h ⟨j, hj⟩

/-- Two folds that differ in one bit are stored alike only as zero and one. -/
theorem clamp_flip (x : UInt64) {j : Nat} (hj : j < 64) :
    clamp (x ^^^ bit j) = clamp x ↔ j = 0 ∧ clamp x = 1 := by
  have hne := bit_ne_zero hj
  by_cases hx : x = 0
  · subst hx
    have hone : clamp 0 = 1 := rfl
    rw [UInt64.zero_xor, clamp, if_neg hne, hone, bit_eq_one hj]
    simp
  · have hself : clamp x = x := if_neg hx
    rw [hself]
    by_cases hflip : x ^^^ bit j = 0
    · have hbit : x = bit j := UInt64.xor_eq_zero_iff.mp hflip
      rw [hflip, hbit, show clamp 0 = 1 from rfl, bit_eq_one hj, eq_comm, bit_eq_one hj]
      simp
    · have hdiff : x ^^^ bit j ≠ x := by
        intro heq
        have hcancel := congrArg (x ^^^ ·) heq
        simp only [← UInt64.xor_assoc, UInt64.xor_self, UInt64.zero_xor] at hcancel
        exact hne hcancel
      rw [clamp, if_neg hflip]
      constructor
      · intro heq
        exact absurd heq hdiff
      · rintro ⟨rfl, rfl⟩
        exact absurd rfl hflip

/-- The value bits that the rotation and the fold bring to bit zero are 3, 19, 35 and 51. -/
theorem nodeChecksum_flip (key : Key) (value : UInt64) {i : Nat} (hi : i < 64) :
    nodeChecksum key (value ^^^ bit i) = nodeChecksum key value ↔
      i % 16 = 3 ∧ nodeChecksum key value = 1 := by
  have hj : (i + 29) % 16 < 64 := by omega
  have hbit : (i + 29) % 16 = 0 ↔ i % 16 = 3 := by omega
  rw [nodeChecksum_eq, nodeChecksum_eq, rotateLeft_xor, ← UInt64.xor_assoc, fold16_xor,
    fold16_rotated i hi, clamp_flip _ hj, hbit]

end Fold

section Flip
variable {cfg : Config} {v : Env} {t : Tid} {s : Store} {o next : Nat} {key : Key} {value : UInt64}

def Store.flipValue (s : Store) (o i : Nat) : Store :=
  s.setSlot o fun slot => { slot with value := slot.value ^^^ bit i }

/-- Bit `j` of the checksum is bit `48 + j` of the pointer word. -/
def Store.flipChecksum (s : Store) (o j : Nat) : Store :=
  s.setSlot o fun slot => { slot with pointer := slot.pointer ^^^ bit (48 + j) }

theorem Bears.flipValue {sum : UInt64} (h : Bears s o key value sum next) (i : Nat) :
    Bears (s.flipValue o i) o key (value ^^^ bit i) sum next := by
  constructor
  · rw [Store.flipValue, setSlot_slots_self]
    exact h.key
  · rw [Store.flipValue, setSlot_slots_self, h.value]
  · rw [Store.flipValue, setSlot_slots_self]
    exact h.checksum
  · rw [Store.flipValue, setSlot_slots_self]
    exact h.next

theorem flipChecksum_slot {sum : UInt64} (h : Bears s o key value sum next) {j : Nat}
    (hj : j < 16) : ((s.flipChecksum o j).slots o).key = key ∧
      ((s.flipChecksum o j).slots o).value = value ∧
      ((s.flipChecksum o j).slots o).checksum = sum ^^^ bit j := by
  rw [Store.flipChecksum, setSlot_slots_self]
  refine ⟨h.key, h.value, ?_⟩
  rw [← h.checksum, ← bit_shiftRight hj]
  exact UInt64.shiftRight_xor

/- A flipped checksum bit is always noticed. A flipped value bit is noticed unless it is
   folded onto bit zero and the checksum is one, which stands for a fold of zero as well. -/
theorem node_flip_read (hv : cfg.Valid) (hq : Quiet cfg.bodyLayout s.body)
    (hn : LiveNode cfg s o) (h : Bears s o key value (nodeChecksum key value) next) :
    (∀ i < 64, (readNode cfg o).run t (s.flipValue o i) =
      some (if i % 16 = 3 ∧ nodeChecksum key value = 1 then .ok ⟨o, next, value ^^^ bit i, key⟩
        else .error (.corrupt "body node checksum does not match"), s.flipValue o i)) ∧
    ∀ j < 16, (readNode cfg o).run t (s.flipChecksum o j) =
      some (.error (.corrupt "body node checksum does not match"), s.flipChecksum o j) := by
  constructor
  · intro i hi
    have hc := confined_setSlot s o fun slot => { slot with value := slot.value ^^^ bit i }
    have hb := h.flipValue i
    by_cases hsame : i % 16 = 3 ∧ nodeChecksum key value = 1
    · rw [← (nodeChecksum_flip key value hi).mpr hsame] at hb
      obtain ⟨_, _, hread, rfl, rfl⟩ :=
        run_of_wp (hb.read (v := .fair) (t := t) hv (hc.quiet hq) (hc.live hn))
      rw [if_pos hsame]
      exact hread
    · have hmiss : ((s.flipValue o i).slots o).checksum ≠ nodeChecksum
          ((s.flipValue o i).slots o).key ((s.flipValue o i).slots o).value := by
        rw [hb.checksum, hb.key, hb.value]
        exact fun heq => hsame ((nodeChecksum_flip key value hi).mp heq.symm)
      obtain ⟨_, _, hread, rfl, rfl⟩ := run_of_wp ((readNode_mismatch (v := .fair) (t := t)
        (Q := fun r s' => r = .error (.corrupt "body node checksum does not match") ∧
          s' = s.flipValue o i) hv (hc.quiet hq) (hc.live hn) hmiss).mpr ⟨rfl, rfl⟩)
      rw [if_neg hsame]
      exact hread
  · intro j hj
    have hc := confined_setSlot s o fun slot =>
      { slot with pointer := slot.pointer ^^^ bit (48 + j) }
    obtain ⟨hkey, hvalue, hsum⟩ := flipChecksum_slot h hj
    have hmiss : ((s.flipChecksum o j).slots o).checksum ≠ nodeChecksum
        ((s.flipChecksum o j).slots o).key ((s.flipChecksum o j).slots o).value := by
      rw [hsum, hkey, hvalue]
      intro heq
      have hcancel := congrArg (nodeChecksum key value ^^^ ·) heq
      simp only [← UInt64.xor_assoc, UInt64.xor_self, UInt64.zero_xor] at hcancel
      exact bit_ne_zero (by omega) hcancel
    obtain ⟨_, _, hread, rfl, rfl⟩ := run_of_wp ((readNode_mismatch (v := .fair) (t := t)
      (Q := fun r s' => r = .error (.corrupt "body node checksum does not match") ∧
        s' = s.flipChecksum o j) hv (hc.quiet hq) (hc.live hn) hmiss).mpr ⟨rfl, rfl⟩)
    exact hread

theorem node_flip_read_first :
    ∃ o s₁, SlotWritten Config.small 0 (Vector.replicate 16 7) 42 Store.created o s₁ ∧
      (readNode Config.small o).run 0 (s₁.flipChecksum o 3) =
        some (.error (.corrupt "body node checksum does not match"), s₁.flipChecksum o 3) := by
  have hvalid : Config.small.Valid := Config.validate_ok (by decide +kernel)
  obtain ⟨o, s₁, hw⟩ := written_created (Vector.replicate 16 7) 42
  obtain ⟨hq, hn, hb, -⟩ := hw.bears hvalid (quiet_created Config.small.bodyLayout)
  exact ⟨o, s₁, hw, (node_flip_read hvalid hq hn hb).2 3 (by decide)⟩

/-- The digest of the zero key rotated back is a value whose fold is zero: bit three of
it can be flipped unnoticed. -/
theorem undetected_value_flip :
    ((do
      let allocation ← allocateNode Config.small 3 (Vector.replicate 16 0) 15373684456531661863
      atomic fun _ s => some (.ok (), s.flipValue allocation.offset 3)
      readNode Config.small allocation.offset : StoreM Node).run 0 Store.created).map (·.1) =
    some (.ok ⟨65536, 0, 15373684456531661871, Vector.replicate 16 0⟩) := by
  decide +kernel

end Flip

end FlorestaDb
