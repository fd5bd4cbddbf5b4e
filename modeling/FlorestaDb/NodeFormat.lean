import FlorestaDb.Lib.Word
import FlorestaDb.Node

/-! What the packed pointer, the tagged value and the blob header say about each
other, without a program. -/
namespace FlorestaDb
open Allocator

section Pointer

/-- The node's slot with its next field replaced. -/
def Slot.withNext (slot : Slot) (next : Nat) : Slot :=
  { slot with pointer := FlorestaDb.withNext slot.pointer next }

theorem mask_toNat : nodePointerMask.toNat = 2 ^ 48 - 1 := rfl

theorem Slot.next_eq (slot : Slot) : slot.next = slot.pointer.toNat % 2 ^ 48 := by
  rw [Slot.next, Word.toNat_and_mask _ _ 48 rfl]

theorem Slot.checksum_toNat (slot : Slot) : slot.checksum.toNat = slot.pointer.toNat / 2 ^ 48 := by
  rw [Slot.checksum, Word.toNat_shiftRight _ _ (by decide)]
  rfl

theorem Slot.next_le (slot : Slot) : slot.next ≤ nodePointerMask.toNat := by
  rw [Slot.next_eq, mask_toNat]
  omega

theorem withNext_toNat (observed : UInt64) {next : Nat} (h : next ≤ nodePointerMask.toNat) :
    (withNext observed next).toNat = observed.toNat / 2 ^ 48 * 2 ^ 48 + next := by
  rw [mask_toNat] at h
  have hn : (UInt64.ofNat next).toNat = next := Word.toNat_ofNat_of_lt (by omega)
  rw [withNext, Word.toNat_or_disjoint _ _ 48 _
    (Word.toNat_and_not_mask observed _ 48 (by decide) rfl) (by rw [hn]; omega), hn]

theorem Slot.withNext_next (slot : Slot) {next : Nat} (h : next ≤ nodePointerMask.toNat) :
    (slot.withNext next).next = next := by
  have h' := h
  rw [mask_toNat] at h'
  rw [Slot.next_eq, Slot.withNext, withNext_toNat _ h]
  omega

theorem Slot.withNext_checksum (slot : Slot) {next : Nat} (h : next ≤ nodePointerMask.toNat) :
    (slot.withNext next).checksum = slot.checksum := by
  have h' := h
  rw [mask_toNat] at h'
  apply UInt64.toNat_inj.mp
  rw [Slot.checksum_toNat, Slot.checksum_toNat, Slot.withNext, withNext_toNat _ h]
  omega

theorem nodeChecksum_toNat (key : Key) (value : UInt64) :
    0 < (nodeChecksum key value).toNat ∧ (nodeChecksum key value).toNat < 2 ^ 16 := by
  simp only [nodeChecksum]
  split
  · decide
  · rename_i h
    have hlt : ∀ x : UInt64, (x &&& 0xffff).toNat < 2 ^ 16 := by
      intro x
      rw [Word.toNat_and_mask _ _ 16 rfl]
      exact Nat.mod_lt _ (by decide)
    refine ⟨Nat.pos_of_ne_zero fun hz => h ?_, hlt _⟩
    exact UInt64.toNat_inj.mp hz

theorem freshPointer_toNat (key : Key) (value : UInt64) :
    (freshPointer key value).toNat = (nodeChecksum key value).toNat * 2 ^ 48 := by
  have h := (nodeChecksum_toNat key value).2
  rw [freshPointer, Word.toNat_shiftLeft _ _ (by decide)]
  · rfl
  · change _ * 2 ^ 48 < _
    omega

variable {key : Key} {value : UInt64}

theorem fresh_checksum :
    (Slot.mk key value (freshPointer key value)).checksum = nodeChecksum key value := by
  apply UInt64.toNat_inj.mp
  rw [Slot.checksum_toNat, freshPointer_toNat]
  omega

theorem fresh_next : (Slot.mk key value (freshPointer key value)).next = 0 := by
  rw [Slot.next_eq, freshPointer_toNat]
  omega

theorem tombstone_checksum (slot : Slot) : { slot with pointer := 0 }.checksum = 0 := by
  apply UInt64.toNat_inj.mp
  rw [Slot.checksum_toNat]
  exact Nat.zero_div _

end Pointer

section Bytes

/-- The thirty-two bytes of a slot in the body file. -/
def Slot.bytes (slot : Slot) : List UInt8 :=
  slot.key.toList ++ (Hash.leBytes 8 slot.value.toNat ++ Hash.leBytes 8 slot.pointer.toNat)

@[simp] theorem Slot.bytes_length (slot : Slot) : slot.bytes.length = nodeSize := by
  simp [Slot.bytes, Hash.leBytes_length, nodeSize]

theorem Key.toList_halves (key : Key) : key.toList = key.low.toList ++ key.high.toList := by
  apply List.ext_getElem
  · simp
  · intro i h1 h2
    rw [List.getElem_append]
    by_cases hi : i < 8
    · simp [Key.low, hi]
    · have hadd : 8 + (i - 8) = i := by omega
      simp [Key.high, hi, hadd]

/-- The four words in the order in which a node is copied. -/
theorem Slot.bytes_words (slot : Slot) : slot.bytes = slot.key.low.toList ++ (slot.key.high.toList ++
    (Hash.leBytes 8 slot.value.toNat ++ Hash.leBytes 8 slot.pointer.toNat)) := by
  rw [Slot.bytes, Key.toList_halves, List.append_assoc]

theorem copyAt_prefix (a b c : List UInt8) {input : List UInt8} (h : input.length = b.length) :
    copyAt (a ++ (b ++ c)) a.length input = a ++ (input ++ c) := by
  have hrest : (a ++ (b ++ c)).drop (a.length + b.length) = c := by
    rw [← List.append_assoc, ← List.length_append, List.drop_left]
  rw [copyAt, List.take_left, h, hrest]

theorem readU64_word (a c : List UInt8) (word : UInt64) (h : a.length + 8 < u64Bound) :
    readU64 (a ++ (Hash.leBytes 8 word.toNat ++ c)) a.length = .ok word := by
  have hlen : (a ++ Hash.leBytes 8 word.toNat).length = a.length + 8 := by
    rw [List.length_append, Hash.leBytes_length]
  have hstop : a.length + 8 ≤ (a ++ (Hash.leBytes 8 word.toNat ++ c)).length := by
    rw [← List.append_assoc, List.length_append, hlen]
    exact Nat.le_add_right _ _
  rw [readU64, checkedAdd_of_lt h, okOr_some]
  change (if _ then _ else _) = _
  rw [if_pos hstop, ← List.append_assoc, List.take_left' hlen, List.drop_left,
    Hash.ofNat_leValue_leBytes]

theorem Slot.key_bytes (slot : Slot) :
    (slot.bytes.take nodeValueOffset).drop nodeKeyOffset = slot.key.toList := by
  have hlen : slot.key.toList.length = nodeValueOffset := by simp [nodeValueOffset]
  rw [Slot.bytes, List.take_left' hlen]
  rfl

theorem Slot.value_bytes (slot : Slot) : readU64 slot.bytes nodeValueOffset = .ok slot.value := by
  have hlen : slot.key.toList.length = nodeValueOffset := by simp [nodeValueOffset]
  rw [← hlen]
  exact readU64_word _ _ _ (by rw [hlen]; decide)

theorem Slot.pointer_bytes (slot : Slot) :
    readU64 slot.bytes nodePointerOffset = .ok slot.pointer := by
  have hlen : (slot.key.toList ++ Hash.leBytes 8 slot.value.toNat).length = nodePointerOffset := by
    simp [Hash.leBytes_length, nodePointerOffset]
  have hread := readU64_word _ [] slot.pointer (by rw [hlen]; decide)
  rw [hlen, List.append_nil, List.append_assoc] at hread
  exact hread

@[simp] theorem keyOf_toList (key : Key) : keyOf key.toList = some key := by
  rw [keyOf, dif_pos (by simp [keySize])]
  rfl

/-- The bytes written for a node are those of its slot before any link. -/
theorem serializeNode_bytes (key : Key) (value : UInt64) :
    serializeNode key.toList value =
      .ok (Slot.mk key value (freshPointer key value)).bytes := by
  have hword : ∀ word : UInt64, (Hash.leBytes 8 word.toNat).length = 8 := fun word =>
    Hash.leBytes_length 8 _
  have hkey : copyAt (List.replicate nodeSize 0) nodeKeyOffset key.toList =
      key.toList ++ (List.replicate 8 0 ++ List.replicate 8 0) :=
    copyAt_prefix [] (List.replicate 16 0) (List.replicate 8 0 ++ List.replicate 8 0) (by simp)
  have hvalue := copyAt_prefix key.toList (List.replicate 8 0) (List.replicate 8 0) (hword value)
  have hpointer := copyAt_prefix (key.toList ++ Hash.leBytes 8 value.toNat) (List.replicate 8 0) []
    (hword (freshPointer key value))
  have hstart : key.toList.length = nodeValueOffset := by simp [nodeValueOffset]
  have hend : nodeValueOffset + 8 = nodePointerOffset := rfl
  rw [hstart] at hvalue
  rw [List.length_append, hword, hstart, hend, List.append_nil, List.append_nil,
    List.append_assoc, List.append_assoc] at hpointer
  simp only [serializeNode, keyOf_toList, okOr_some, ok_bind, hkey, hvalue, hpointer]
  rfl

/-- Decoding the bytes of a slot gives the node it holds. -/
theorem decodeNode_bytes (offset : Nat) (slot : Slot) :
    decodeNode offset slot.bytes =
      if slot.checksum = nodeChecksum slot.key slot.value then
        .ok ⟨offset, slot.next, slot.value, slot.key⟩
      else .error (.corrupt "body node checksum does not match") := by
  rw [decodeNode, Slot.key_bytes, keyOf_toList, okOr_some, ok_bind, Slot.value_bytes, ok_bind,
    Slot.pointer_bytes, ok_bind]
  by_cases hsum : slot.checksum = nodeChecksum slot.key slot.value
  · rw [if_pos hsum]
    exact if_neg (not_not.mpr hsum)
  · rw [if_neg hsum]
    exact if_pos hsum

end Bytes

section Value

theorem tag_toNat (encoded : UInt64) : isBlob encoded = true ↔ 2 ^ 63 ≤ encoded.toNat := by
  have hfield := Word.toNat_field encoded valueBlobTag 63 1 (by decide) (by decide)
  have hlt : encoded.toNat < 2 ^ 64 := encoded.toNat_lt
  have hk : (63 : UInt64).toNat = 63 := rfl
  rw [hk] at hfield
  have hzero : encoded &&& valueBlobTag = 0 ↔ encoded.toNat / 2 ^ 63 % 2 = 0 := by
    constructor
    · intro h
      rw [h] at hfield
      simpa using hfield.symm
    · intro h
      apply UInt64.toNat_inj.mp
      rw [UInt64.toNat_and]
      have htag : valueBlobTag.toNat = 1 <<< 63 := by decide
      have hbit : encoded.toNat.testBit 63 = false := by
        rw [Nat.testBit_eq_decide_div_mod_eq, h]
        rfl
      rw [htag, Nat.one_shiftLeft]
      apply Nat.eq_of_testBit_eq
      intro i
      rw [Nat.testBit_and, Nat.testBit_two_pow]
      by_cases hi : 63 = i
      · subst hi
        simp [hbit]
      · simp [hi]
  rw [isBlob, bne_iff_ne, ne_eq, hzero]
  omega

theorem blobOffset_eq (encoded : UInt64) : blobOffset encoded = encoded.toNat % 2 ^ 63 := by
  rw [blobOffset, Word.toNat_and_mask _ _ 63 rfl]

theorem blobWord_toNat {o : Nat} (h : o < 2 ^ 63) :
    (valueBlobTag ||| UInt64.ofNat o).toNat = 2 ^ 63 + o := by
  have ho : (UInt64.ofNat o).toNat = o := Word.toNat_ofNat_of_lt (by omega)
  have htag : valueBlobTag.toNat = 1 * 2 ^ 63 := rfl
  rw [Word.toNat_or_disjoint _ _ 63 1 htag (by rw [ho]; exact h), ho, Nat.one_mul]

theorem isBlob_word {o : Nat} (h : o < 2 ^ 63) : isBlob (valueBlobTag ||| UInt64.ofNat o) = true := by
  rw [tag_toNat, blobWord_toNat h]
  omega

theorem blobOffset_word {o : Nat} (h : o < 2 ^ 63) :
    blobOffset (valueBlobTag ||| UInt64.ofNat o) = o := by
  rw [blobOffset_eq, blobWord_toNat h]
  omega

theorem inlineValueWord_some {value : List UInt8} {word : UInt64}
    (h : inlineValueWord value = some word) :
    isBlob word = false ∧ inlineValueBytes word = value := by
  simp only [inlineValueWord] at h
  split at h
  · rename_i hlen
    split at h
    · rename_i htag
      obtain rfl := Option.some.inj h
      have hlt := Hash.leValue_lt value
      have hv : (UInt64.ofNat (Hash.leValue value)).toNat = Hash.leValue value := by
        apply Word.toNat_ofNat_of_lt
        rw [hlen] at hlt
        exact Nat.lt_of_lt_of_le hlt (by decide)
      refine ⟨by simp [isBlob, htag], ?_⟩
      rw [inlineValueBytes, hv, ← hlen]
      exact Hash.leBytes_leValue value
    · cases h
  · cases h

end Value

section Blob

/-- The `n` bytes from `o` on. -/
def slice (bytes : Nat → UInt8) (o n : Nat) : List UInt8 := (List.range' o n).map bytes

@[simp] theorem slice_length (bytes : Nat → UInt8) (o n : Nat) : (slice bytes o n).length = n := by
  simp [slice]

theorem slice_add (bytes : Nat → UInt8) (o m n : Nat) :
    slice bytes o (m + n) = slice bytes o m ++ slice bytes (o + m) n := by
  rw [slice, slice, slice, ← List.map_append, List.range'_append_1]

theorem slice_part (bytes : Nat → UInt8) {a o n k : Nat} (h : o + k ≤ n) :
    ((slice bytes a n).drop o).take k = slice bytes (a + o) k := by
  obtain ⟨rest, rfl⟩ : ∃ rest, n = o + (k + rest) := ⟨n - (o + k), by omega⟩
  rw [slice_add, List.drop_left' (slice_length _ _ _), slice_add,
    List.take_left' (slice_length _ _ _)]

theorem slice_congr {bytes bytes' : Nat → UInt8} {o n : Nat}
    (h : ∀ i, o ≤ i → i < o + n → bytes' i = bytes i) : slice bytes' o n = slice bytes o n := by
  apply List.map_congr_left
  intro i hi
  rw [List.mem_range'_1] at hi
  exact h i hi.1 hi.2

/-- The header written in front of a blob. -/
def headerOf (value : List UInt8) : List UInt8 :=
  Hash.leBytes 4 value.length ++ Hash.leBytes 4 (blobChecksum value)

theorem headerOf_length (value : List UInt8) : (headerOf value).length = 8 := by
  simp [headerOf, Hash.leBytes_length]

theorem decodeBlobHeader_headerOf {value : List UInt8} (h : value.length < 2 ^ 32) :
    decodeBlobHeader (headerOf value) = (value.length, blobChecksum value) := by
  have h1 : blobChecksum value < 2 ^ 32 := Nat.mod_lt _ (by decide)
  have htake : (headerOf value).take 4 = Hash.leBytes 4 value.length := by
    rw [headerOf, List.take_left' (Hash.leBytes_length 4 _)]
  have hdrop : ((headerOf value).drop 4).take 4 = Hash.leBytes 4 (blobChecksum value) := by
    rw [headerOf, List.drop_left' (Hash.leBytes_length 4 _), List.take_of_length_le]
    exact Nat.le_of_eq (Hash.leBytes_length 4 _)
  rw [decodeBlobHeader, htake, hdrop, Hash.leValue_leBytes, Hash.leValue_leBytes]
  congr 1
  · exact Nat.mod_eq_of_lt (Nat.lt_of_lt_of_le h (by decide))
  · exact Nat.mod_eq_of_lt (Nat.lt_of_lt_of_le h1 (by decide))

/-- The bytes at `o` are a header and the content it describes. -/
structure BlobAt (bytes : Nat → UInt8) (o : Nat) (value : List UInt8) : Prop where
  length_lt : value.length < 2 ^ 32
  header : slice bytes o blobHeaderSize = headerOf value
  content : slice bytes (o + blobHeaderSize) value.length = value

theorem BlobAt.unique {bytes : Nat → UInt8} {o : Nat} {x y : List UInt8} (hx : BlobAt bytes o x)
    (hy : BlobAt bytes o y) : x = y := by
  have hdec := decodeBlobHeader_headerOf hx.length_lt
  rw [← hx.header, hy.header, decodeBlobHeader_headerOf hy.length_lt] at hdec
  have hlen : y.length = x.length := (Prod.mk.inj hdec).1
  rw [← hx.content, ← hy.content, hlen]

theorem BlobAt.congr {bytes bytes' : Nat → UInt8} {o : Nat} {x : List UInt8}
    (hx : BlobAt bytes o x)
    (h : ∀ i, o ≤ i → i < o + (blobHeaderSize + x.length) → bytes' i = bytes i) :
    BlobAt bytes' o x := by
  refine ⟨hx.length_lt, ?_, ?_⟩
  · rw [slice_congr, hx.header]
    intro i h1 h2
    exact h i h1 (by omega)
  · rw [slice_congr, hx.content]
    intro i h1 h2
    exact h i (by omega) (by omega)

/-- The length a blob header announces. -/
def blobLength (bytes : Nat → UInt8) (o : Nat) : Nat :=
  (decodeBlobHeader (slice bytes o blobHeaderSize)).1

theorem BlobAt.blobLength_eq {bytes : Nat → UInt8} {o : Nat} {x : List UInt8}
    (hx : BlobAt bytes o x) : blobLength bytes o = x.length := by
  rw [blobLength, hx.header, decodeBlobHeader_headerOf hx.length_lt]

/-- The bytes after `input` was copied to `o`. -/
def overwrite (bytes : Nat → UInt8) (o : Nat) (input : List UInt8) : Nat → UInt8 := fun i =>
  if o ≤ i ∧ i < o + input.length then input.getD (i - o) 0 else bytes i

theorem overwrite_outside (bytes : Nat → UInt8) {o i : Nat} (input : List UInt8)
    (h : i < o ∨ o + input.length ≤ i) : overwrite bytes o input i = bytes i :=
  if_neg (by omega)

theorem overwrite_cons (bytes : Nat → UInt8) (o : Nat) (b : UInt8) (input : List UInt8) :
    overwrite (Function.update bytes o b) (o + 1) input = overwrite bytes o (b :: input) := by
  funext i
  simp only [overwrite, List.length_cons]
  by_cases hi : i = o
  · subst hi
    have h1 : ¬(i + 1 ≤ i ∧ i < i + 1 + input.length) := by omega
    have h2 : i ≤ i ∧ i < i + (input.length + 1) := by omega
    rw [if_neg h1, if_pos h2, Function.update_self, Nat.sub_self]
    rfl
  · by_cases hin : o + 1 ≤ i ∧ i < o + 1 + input.length
    · have h2 : o ≤ i ∧ i < o + (input.length + 1) := by omega
      have h3 : i - o = i - (o + 1) + 1 := by omega
      rw [if_pos hin, if_pos h2, h3]
      rfl
    · have h2 : ¬(o ≤ i ∧ i < o + (input.length + 1)) := by omega
      rw [if_neg hin, if_neg h2, Function.update_of_ne hi]

theorem slice_overwrite (bytes : Nat → UInt8) (o : Nat) (input : List UInt8) :
    slice (overwrite bytes o input) o input.length = input := by
  apply List.ext_getElem
  · simp
  · intro i h1 h2
    simp [slice, overwrite, h2]

end Blob

end FlorestaDb
