import FlorestaDb.Lib.Steps
import FlorestaDb.HeadsBytes

/-! The format of the heads file: its parts lie apart and inside the file, each writer stays in
its own part, and what was written is read back whatever the other writers do in between. -/
namespace FlorestaDb
open Program Program.Prog Allocator

namespace Mapped

variable {v : Env} {t : Tid} {cfg : Config} {m m' : Mapped} {o : Nat} {words : List UInt64}

section Words

theorem wordBytes_cons (w : UInt64) (ws : List UInt64) :
    wordBytes (w :: ws) = Hash.leBytes 8 w.toNat ++ wordBytes ws := rfl

theorem wordBytes_append (ws ws' : List UInt64) :
    wordBytes (ws ++ ws') = wordBytes ws ++ wordBytes ws' := List.flatMap_append

theorem wordBytes_length (ws : List UInt64) : (wordBytes ws).length = 8 * ws.length := by
  induction ws with
  | nil => rfl
  | cons w ws ih =>
    rw [wordBytes_cons, List.length_append, Hash.leBytes_length, ih, List.length_cons]
    omega

/-- The part `b` of a copied piece is where it was put. -/
theorem slice_overwrite_part (bytes : Nat → UInt8) (o : Nat) (a b c : List UInt8) :
    slice (overwrite bytes o (a ++ (b ++ c))) (o + a.length) b.length = b := by
  have hall := slice_overwrite bytes o (a ++ (b ++ c))
  rw [List.length_append, List.length_append, slice_add, slice_add] at hall
  have htail := (List.append_inj hall (slice_length _ _ _)).2
  exact (List.append_inj htail (slice_length _ _ _)).1

theorem word_of_bytes {bytes bytes' : Nat → UInt8} {n n' : Nat}
    (h : ∀ i, o ≤ i → i < o + 8 → bytes' i = bytes i) :
    word ⟨bytes', n'⟩ o = word ⟨bytes, n⟩ o := by
  rw [word, word, slice_congr h]

/-- Words copied in are the words of the file. -/
theorem word_copied {i : Nat} (hi : i < words.length) (n : Nat) (bytes : Nat → UInt8)
    (rest : List UInt8) :
    word ⟨overwrite bytes o (wordBytes words ++ rest), n⟩ (o + 8 * i) = words[i] := by
  have hsplit : words = words.take i ++ (words[i] :: words.drop (i + 1)) := by
    rw [List.getElem_cons_drop, List.take_append_drop]
  have hbytes : wordBytes words ++ rest = wordBytes (words.take i) ++
      (Hash.leBytes 8 words[i].toNat ++ (wordBytes (words.drop (i + 1)) ++ rest)) := by
    conv_lhs => rw [hsplit]
    rw [wordBytes_append, wordBytes_cons, List.append_assoc, List.append_assoc]
  have hlength : (wordBytes (words.take i)).length = 8 * i := by
    rw [wordBytes_length, List.length_take, Nat.min_eq_left hi.le]
  have hpart := slice_overwrite_part bytes o (wordBytes (words.take i))
    (Hash.leBytes 8 words[i].toNat) (wordBytes (words.drop (i + 1)) ++ rest)
  rw [hlength, Hash.leBytes_length, ← hbytes] at hpart
  rw [word, hpart]
  exact Hash.ofNat_leValue_leBytes _

theorem word_setWord (m : Mapped) (o : Nat) (w : UInt64) : (m.setWord o w).word o = w := by
  have hcopied : word ⟨overwrite m.bytes o (wordBytes [w]), m.length⟩ (o + 8 * 0) = w :=
    List.append_nil (wordBytes [w]) ▸ word_copied (by simp) m.length m.bytes []
  have hbytes : wordBytes [w] = Hash.leBytes 8 w.toNat := List.append_nil _
  rw [hbytes] at hcopied
  exact hcopied

/-- The bytes of a word. -/
theorem leBytes_word (m : Mapped) (o : Nat) :
    Hash.leBytes 8 (m.word o).toNat = slice m.bytes o 8 := by
  have hlt := Hash.leValue_lt (slice m.bytes o 8)
  have hlen := slice_length m.bytes o 8
  have hback := Hash.leBytes_leValue (slice m.bytes o 8)
  rw [hlen] at hlt hback
  rw [word, UInt64.toNat_ofNat_of_lt' hlt, hback]

theorem slice_words (bytes : Nat → UInt8) (n : Nat) :
    slice bytes 0 (8 * n) = (List.range n).flatMap fun i => slice bytes (i * 8) 8 := by
  induction n with
  | zero => rfl
  | succ n ih =>
    rw [Nat.mul_succ, slice_add, ih, List.range_succ, List.flatMap_append, Nat.zero_add,
      Nat.mul_comm 8 n]
    simp

end Words

section Frames

/-- From `m` to `m'` only bytes of the part `P` were written. -/
structure Changes (P : Nat → Prop) (m m' : Mapped) : Prop where
  length : m'.length = m.length
  bytes : ∀ i, ¬P i → m'.bytes i = m.bytes i

variable {P P' : Nat → Prop}

theorem Changes.refl (P : Nat → Prop) (m : Mapped) : Changes P m m := ⟨rfl, fun _ _ => rfl⟩

theorem Changes.trans {m'' : Mapped} (h : Changes P m m') (h' : Changes P m' m'') :
    Changes P m m'' :=
  ⟨h'.length.trans h.length, fun i hi => (h'.bytes i hi).trans (h.bytes i hi)⟩

theorem Changes.mono (h : Changes P m m') (hP : ∀ i, P i → P' i) : Changes P' m m' :=
  ⟨h.length, fun i hi => h.bytes i fun hp => hi (hP i hp)⟩

theorem Changes.of_chain (h : Relation.ReflTransGen (Changes P) m m') : Changes P m m' := by
  induction h with
  | refl => exact Changes.refl P m
  | tail _ hstep ih => exact ih.trans hstep

theorem Changes.word (h : Changes P m m') (ho : ∀ i, o ≤ i → i < o + 8 → ¬P i) :
    m'.word o = m.word o := by
  refine word_of_bytes ?_
  intro i h1 h2
  exact h.bytes i (ho i h1 h2)

theorem changes_overwrite (m : Mapped) (input : List UInt8)
    (hP : ∀ i, o ≤ i → i < o + input.length → P i) :
    Changes P m { m with bytes := overwrite m.bytes o input } := by
  refine ⟨rfl, ?_⟩
  intro i hi
  refine overwrite_outside _ _ ?_
  by_contra hin
  exact hi (hP i (by omega) (by omega))

theorem changes_setWord (m : Mapped) (w : UInt64) (hP : ∀ i, o ≤ i → i < o + 8 → P i) :
    Changes P m (m.setWord o w) := by
  refine changes_overwrite m _ ?_
  rw [Hash.leBytes_length]
  exact hP

theorem word_setWord_ne (m : Mapped) (w : UInt64) {o' : Nat} (h : o' + 8 ≤ o ∨ o + 8 ≤ o') :
    (m.setWord o w).word o' = m.word o' := by
  have hchange : Changes (fun i => o ≤ i ∧ i < o + 8) m (m.setWord o w) :=
    changes_setWord m w fun i h1 h2 => ⟨h1, h2⟩
  refine hchange.word ?_
  intro i h1 h2 h3
  omega

theorem changes_copyIn {input : List UInt8} (hP : ∀ i, o ≤ i → i < o + input.length → P i) :
    Prog.Within (Changes P) (copyIn o input) := by
  apply within_atomic
  intro t m x hx
  split at hx
  · cases hx
    exact Changes.refl P m
  · cases hx
    exact changes_overwrite m input hP

theorem changes_casReplace {w : UInt64} (hP : ∀ i, o ≤ i → i < o + 8 → P i) :
    Prog.Within (Changes P) (casReplace o w) := by
  apply within_atomic
  intro t m x hx
  split at hx
  · cases hx
    exact Changes.refl P m
  · cases hx
    exact changes_setWord m w hP

theorem changes_compareExchange {expected new : UInt64}
    (hP : ∀ i, o ≤ i → i < o + 8 → P i) :
    Prog.Within (Changes P) (compareExchange o expected new) := by
  apply within_atomic
  intro t m x hx
  split at hx
  · cases hx
    exact Changes.refl P m
  · split at hx
    · cases hx
      exact changes_setWord m new hP
    · cases hx
      exact Changes.refl P m

theorem changes_tryReserve : Prog.Within (Changes P) tryReserve := by
  intro t m b
  cases b <;> trivial

end Frames

section Access

theorem checkedRange_of {length offset n : Nat} (h : offset + n ≤ length)
    (hb : length < u64Bound) : checkedRange length offset n = .ok () := by
  rw [checkedRange, checkedAdd_of_lt (by omega), okOr_some, ok_bind, if_neg (by omega)]

variable {Q : Except Error Unit → Mapped → Prop}

theorem wp_copyIn {input : List UInt8} (h : o + input.length ≤ m.length)
    (hb : m.length < u64Bound) : (copyIn o input).wp v t Q m ↔
      Q (.ok ()) { m with bytes := overwrite m.bytes o input } := by
  rw [copyIn, wp_atomic, checkedRange_of h hb]
  simp

theorem wp_tryReserve : tryReserve.wp v t Q m ↔
    Q (.ok ()) m ∧ (v = .any → Q (.error .outOfMemory) m) := by
  rw [tryReserve, wp_choose]
  rfl

theorem atomicU64_of (h : o + 8 ≤ m.length) (hb : m.length < u64Bound) (ha : o % 8 = 0) :
    m.atomicU64 o = .ok () := by
  rw [atomicU64, checkedRange_of h hb, ok_bind, if_neg (not_not.mpr ha)]

theorem wp_casReplace {w : UInt64} (h : o + 8 ≤ m.length) (hb : m.length < u64Bound)
    (ha : o % 8 = 0) : (casReplace o w).wp v t Q m ↔ Q (.ok ()) (m.setWord o w) := by
  rw [casReplace, wp_atomic, atomicU64_of h hb ha]
  simp

theorem casReplace_last {w : UInt64} (h : o + 8 ≤ m.length) (hb : m.length < u64Bound)
    (ha : o % 8 = 0) (hQ : Q (.ok ()) (m.setWord o w)) : (casReplace o w).wp v t Q m :=
  (wp_casReplace h hb ha).mpr hQ

theorem casReplace_then {w : UInt64} {f : Unit → MappedM Unit} (h : o + 8 ≤ m.length)
    (hb : m.length < u64Bound) (ha : o % 8 = 0) (hf : (f ()).wp v t Q (m.setWord o w)) :
    (casReplace o w >>= f).wp v t Q m := by
  rw [wp_bind, wp_casReplace h hb ha]
  exact hf

theorem readMappedU64_of (h : o + 8 ≤ m.length) (hb : m.length < u64Bound) :
    m.readMappedU64 o = .ok (m.word o) := by
  rw [readMappedU64, copyOut, checkedRange_of h hb]
  rfl

end Access

section Header

/-- The first format page after the words of the header were laid out. -/
def page (words : List UInt64) : List UInt8 :=
  wordBytes words ++ List.replicate (formatPageSize - 8 * words.length) 0

theorem page_length (h : 8 * words.length ≤ formatPageSize) :
    (page words).length = formatPageSize := by
  rw [page, List.length_append, wordBytes_length, List.length_replicate]
  omega

/-- The fields are written in the order of their offsets. -/
theorem writeHeaderU64_page {offset : Nat} (w : UInt64) (ho : 8 * words.length = offset)
    (hroom : offset + 8 ≤ formatPageSize) :
    writeHeaderU64 (page words) offset w = .ok (page (words ++ [w])) := by
  have hpage : formatPageSize = 65536 := rfl
  have hbound : offset + 8 < u64Bound := Nat.lt_of_le_of_lt hroom (by decide)
  have htake : (page words).take offset = wordBytes words :=
    List.take_left' ((wordBytes_length words).trans ho)
  have hdrop : (page words).drop (offset + 8) =
      List.replicate (formatPageSize - 8 * (words.length + 1)) 0 := by
    rw [page, List.drop_append, List.drop_eq_nil_of_le (by rw [wordBytes_length]; omega),
      wordBytes_length, List.drop_replicate, List.nil_append]
    congr 1
    omega
  rw [writeHeaderU64, checkedAdd_of_lt hbound, okOr_some, ok_bind,
    page_length (by omega), if_neg (by omega), htake, hdrop]
  rw [page, wordBytes_append, List.length_append, List.length_singleton]
  simp [wordBytes]

theorem writeField {α : Type} {offset : Nat} {w : UInt64} {f : List UInt8 → Except Error α}
    {r : Except Error α} (ho : 8 * words.length = offset) (hroom : offset + 8 ≤ formatPageSize)
    (h : f (page (words ++ [w])) = r) : (writeHeaderU64 (page words) offset w >>= f) = r := by
  rw [writeHeaderU64_page w ho hroom, ok_bind, h]

/-- The offset 64 is skipped: the page is zero there. -/
theorem page_zero (h : 8 * words.length + 8 ≤ formatPageSize) : page (words ++ [0]) = page words := by
  have hzero : wordBytes [0] = List.replicate 8 0 := by decide
  have hpage : formatPageSize = 65536 := rfl
  rw [page, page, wordBytes_append, hzero, List.append_assoc, List.replicate_append_replicate,
    List.length_append, List.length_singleton]
  congr 2
  omega

theorem headerChecksum_page (hlen : words.length = 12) :
    headerChecksum (page words) = .ok (FlorestaDb.headerChecksum words) := by
  have hpage : formatPageSize = 65536 := rfl
  have hoffset : headerChecksumOffset = 96 := rfl
  have htake : (page words).take headerChecksumOffset = wordBytes words := by
    refine List.take_left' ?_
    rw [wordBytes_length, hlen]
    rfl
  rw [headerChecksum, page_length (by omega), if_neg (by omega), htake]
  rfl

theorem headerPage_eq (cfg : Config) :
    headerPage cfg = .ok (page (headerWords cfg ++ [FlorestaDb.headerChecksum (headerWords cfg)])) := by
  have hpage : formatPageSize = 65536 := rfl
  have hmagic : headerMagicBytes ++ (List.replicate formatPageSize (0 : UInt8)).drop 8 =
      page [headerMagic] := by
    rw [page, List.drop_replicate]
    rfl
  rw [headerPage]
  simp only
  rw [if_neg (by rw [List.length_replicate]; omega), ok_bind, hmagic]
  -- the seven fields up to the block size
  refine writeField rfl (by decide) (writeField rfl (by decide) (writeField rfl (by decide) ?_))
  refine writeField rfl (by decide) (writeField rfl (by decide) (writeField rfl (by decide) ?_))
  refine writeField rfl (by decide) ?_
  rw [← page_zero (by simp [hpage])]
  refine writeField rfl (by decide) (writeField rfl (by decide) (writeField rfl (by decide) ?_))
  rw [headerChecksum_page rfl, ok_bind]
  exact writeHeaderU64_page _ rfl (by decide)

/-- The words of the file as the rest of the development sees them. -/
def heads (m : Mapped) : HeadsFile := ⟨m.word, fun _ => 0, []⟩

@[simp] theorem heads_words (m : Mapped) : m.heads.words = m.word := rfl

theorem headerOf_of_words {f : HeadsFile}
    (h : ∀ i (hi : i < (headerWords cfg ++ [FlorestaDb.headerChecksum (headerWords cfg)]).length),
      f.words (8 * i) = (headerWords cfg ++ [FlorestaDb.headerChecksum (headerWords cfg)])[i]) :
    HeaderOf cfg f := by
  have hlen : (headerWords cfg).length = 12 := rfl
  refine ⟨?_, h 12 (by simp [hlen])⟩
  refine List.ext_getElem (by simp [HeadsFile.header, hlen]) ?_
  intro i h1 h2
  have hget := h i (by rw [List.length_append]; omega)
  rw [List.getElem_append_left h2, Nat.mul_comm] at hget
  rw [← hget]
  simp [HeadsFile.header]

theorem initializeHeader_spec (hlen : formatPageSize ≤ m.length) (hb : m.length < u64Bound) :
    (initializeHeader cfg).wp v t (fun r m' => m'.length = m.length ∧
      (r = .ok () ∧ HeaderOf cfg m'.heads ∨ v = .any ∧ r = .error .outOfMemory ∧ m' = m)) m := by
  have hlength : (page (headerWords cfg ++ [FlorestaDb.headerChecksum (headerWords cfg)])).length =
    formatPageSize := page_length (show 8 * 13 ≤ 65536 by decide)
  rw [initializeHeader, wp_bind, wp_tryReserve]
  refine ⟨?_, fun hv => ⟨rfl, Or.inr ⟨hv, rfl, rfl⟩⟩⟩
  rw [andThen_ok, wp_bind, wp_ofExcept, headerPage_eq, andThen_ok,
    wp_copyIn (by rw [hlength]; omega) hb]
  refine ⟨rfl, Or.inl ⟨rfl, ?_⟩⟩
  apply headerOf_of_words
  intro i hi
  have hcopied := word_copied (o := 0) hi m.length m.bytes (List.replicate (formatPageSize - 8 *
    (headerWords cfg ++ [FlorestaDb.headerChecksum (headerWords cfg)]).length) 0)
  rw [Nat.zero_add] at hcopied
  exact hcopied

/-- Reading the header from bytes is reading it from words. -/
theorem readConfig_eq (hlen : formatPageSize ≤ m.length) (hb : m.length < u64Bound) :
    m.readConfig = FlorestaDb.readConfig m.heads := by
  have hpage : formatPageSize = 65536 := rfl
  have hcopy : m.copyOut 0 formatPageSize = .ok (slice m.bytes 0 formatPageSize) := by
    rw [copyOut, checkedRange_of (by omega) hb]
    rfl
  have hread : ∀ o, o + 8 ≤ 65536 →
      readU64 (slice m.bytes 0 formatPageSize) o = .ok (m.word o) := by
    intro o ho
    rw [readU64, checkedAdd_of_lt (Nat.lt_of_le_of_lt ho (by decide)), okOr_some, ok_bind,
      slice_length, if_neg (by omega), slice_part _ (by omega), Nat.zero_add, word]
  have hsum : headerChecksum (slice m.bytes 0 formatPageSize) =
      .ok (FlorestaDb.headerChecksum m.heads.header) := by
    have hoffset : headerChecksumOffset = 8 * 12 := rfl
    have htake : (slice m.bytes 0 formatPageSize).take headerChecksumOffset =
        m.heads.header.flatMap fun w => Hash.leBytes 8 w.toNat := by
      have hpart := slice_part m.bytes (o := 0) (a := 0) (n := formatPageSize)
        (k := headerChecksumOffset) (by decide)
      rw [List.drop_zero] at hpart
      rw [hpart, Nat.zero_add, hoffset, slice_words, HeadsFile.header, List.flatMap_map]
      refine List.flatMap_congr ?_
      intro i _
      exact (leBytes_word m (i * 8)).symm
    rw [headerChecksum, slice_length, if_neg (by decide), htake]
    rfl
  have hmagic : (slice m.bytes 0 formatPageSize).take 8 ≠ headerMagicBytes ↔
      m.heads.words 0 ≠ headerMagic := by
    have hpart := slice_part m.bytes (o := 0) (a := 0) (n := formatPageSize) (k := 8) (by decide)
    rw [List.drop_zero] at hpart
    have hbytes : Hash.leBytes 8 headerMagic.toNat = headerMagicBytes := by decide
    rw [hpart, Nat.zero_add, heads_words, ← leBytes_word, ← hbytes]
    refine not_congr ⟨fun heq => ?_, fun heq => by rw [heq]⟩
    rw [← Hash.ofNat_leValue_leBytes (m.word 0), heq, Hash.ofNat_leValue_leBytes]
  rw [readConfig, FlorestaDb.readConfig, hcopy, ok_bind]
  by_cases h0 : m.heads.words 0 ≠ headerMagic
  · rw [if_pos (hmagic.mpr h0), if_pos h0]
  · rw [if_neg (mt hmagic.mp h0), if_neg h0]
    simp only [hread 8 (by decide), hread 16 (by decide), hread 24 (by decide),
      hread 32 (by decide), hread 40 (by decide), hread 48 (by decide), hread 56 (by decide),
      hread 72 (by decide), hread 80 (by decide), hread 88 (by decide),
      hread headerChecksumOffset (by decide), hsum, ok_bind, heads_words]
    rfl


end Header

section Manifests
variable {bank : Nat}

theorem manifestOffset_ok (h : bank ≤ 1) : manifestOffset bank = .ok (128 + bank * 64) :=
  if_neg (Nat.not_lt.mpr h)

/-- Reading a manifest from bytes is reading it from words. -/
theorem readManifest_eq (h : bank ≤ 1) (hlen : formatPageSize ≤ m.length)
    (hb : m.length < u64Bound) : m.readManifest bank = .ok (FlorestaDb.readManifest m.heads bank) := by
  have hpage : formatPageSize = 65536 := rfl
  have hbase : manifestBase + bank * manifestStride = 128 + bank * 64 := rfl
  rw [readManifest, manifestOffset_ok h, ok_bind, readMappedU64_of (by omega) hb, ok_bind,
    readMappedU64_of (by omega) hb, readMappedU64_of (by omega) hb,
    readMappedU64_of (by omega) hb, readMappedU64_of (by omega) hb]
  simp only [ok_bind, FlorestaDb.readManifest, heads_words, hbase]
  split
  · rfl
  · split
    · rfl
    · rfl

/-- A manifest is five words, and nothing else is looked at. -/
theorem readManifest_words {f f' : HeadsFile} (h : ∀ i < 5,
    f'.words (128 + bank * 64 + i * 8) = f.words (128 + bank * 64 + i * 8)) :
    FlorestaDb.readManifest f' bank = FlorestaDb.readManifest f bank := by
  have hbase : manifestBase + bank * manifestStride = 128 + bank * 64 := rfl
  have h0 := h 0 (by decide)
  have h1 := h 1 (by decide)
  have h2 := h 2 (by decide)
  have h3 := h 3 (by decide)
  have h4 := h 4 (by decide)
  simp only [Nat.reduceMul, Nat.add_zero] at h0 h1 h2 h3 h4
  simp only [FlorestaDb.readManifest, hbase, h0, h1, h2, h3, h4]

theorem writeManifest_spec {manifest : Manifest} (h : manifest.bank ≤ 1)
    (hlen : formatPageSize ≤ m.length) (hb : m.length < u64Bound) :
    (writeManifest manifest).wp v t (fun r m' => r = .ok () ∧ m'.length = m.length ∧
      m'.word (128 + manifest.bank * 64) = manifestMagic ∧
      m'.word (128 + manifest.bank * 64 + 8) = UInt64.ofNat manifest.generation ∧
      m'.word (128 + manifest.bank * 64 + 16) = UInt64.ofNat manifest.bank ∧
      m'.word (128 + manifest.bank * 64 + 24) = manifestChecksum manifest.generation
        manifest.bank manifest.snapshotChecksum ∧
      m'.word (128 + manifest.bank * 64 + 32) = manifest.snapshotChecksum) m := by
  have hpage : formatPageSize = 65536 := rfl
  rw [writeManifest, wp_bind, wp_ofExcept, manifestOffset_ok h, andThen_ok]
  generalize ho : 128 + manifest.bank * 64 = o
  have ha : o % 8 = 0 := by omega
  have hroom : o + 40 ≤ m.length := by omega
  have hat : ∀ i ≤ 4, o + 8 * i + 8 ≤ m.length ∧ (o + 8 * i) % 8 = 0 := by omega
  refine casReplace_then (hat 0 (by decide)).1 hb ha ?_
  refine casReplace_then (hat 1 (by decide)).1 hb (hat 1 (by decide)).2 ?_
  refine casReplace_then (hat 2 (by decide)).1 hb (hat 2 (by decide)).2 ?_
  refine casReplace_then (hat 4 (by decide)).1 hb (hat 4 (by decide)).2 ?_
  refine casReplace_then (hat 3 (by decide)).1 hb (hat 3 (by decide)).2 ?_
  refine casReplace_last (hat 0 (by decide)).1 hb ha ?_
  -- the magic word is written last, over the zero that was written first
  refine ⟨rfl, rfl, word_setWord _ _ _, ?_, ?_, ?_, ?_⟩
  · rw [word_setWord_ne _ _ (by omega), word_setWord_ne _ _ (by omega),
      word_setWord_ne _ _ (by omega), word_setWord_ne _ _ (by omega), word_setWord]
  · rw [word_setWord_ne _ _ (by omega), word_setWord_ne _ _ (by omega),
      word_setWord_ne _ _ (by omega), word_setWord]
  · rw [word_setWord_ne _ _ (by omega), word_setWord]
  · rw [word_setWord_ne _ _ (by omega), word_setWord_ne _ _ (by omega), word_setWord]

/-- A manifest whose generation has the parity of its bank is read back; the others are
never taken for valid. -/
theorem readManifest_written {manifest : Manifest} (hbank : manifest.bank ≤ 1)
    (hgeneration : manifest.generation < 2 ^ 64) {f : HeadsFile}
    (h0 : f.words (128 + manifest.bank * 64) = manifestMagic)
    (h1 : f.words (128 + manifest.bank * 64 + 8) = UInt64.ofNat manifest.generation)
    (h2 : f.words (128 + manifest.bank * 64 + 16) = UInt64.ofNat manifest.bank)
    (h3 : f.words (128 + manifest.bank * 64 + 24) = manifestChecksum manifest.generation
      manifest.bank manifest.snapshotChecksum)
    (h4 : f.words (128 + manifest.bank * 64 + 32) = manifest.snapshotChecksum) :
    FlorestaDb.readManifest f manifest.bank =
      if manifest.generation % 2 = manifest.bank then some manifest else none := by
  have hbase : manifestBase + manifest.bank * manifestStride = 128 + manifest.bank * 64 := rfl
  have hg : (UInt64.ofNat manifest.generation).toNat = manifest.generation :=
    UInt64.toNat_ofNat_of_lt' hgeneration
  have hk : (UInt64.ofNat manifest.bank).toNat = manifest.bank :=
    UInt64.toNat_ofNat_of_lt' (Nat.lt_of_le_of_lt hbank (by decide))
  simp only [FlorestaDb.readManifest, hbase, h0, h1, h2, h3, h4, hg, hk]
  by_cases hparity : manifest.generation % 2 = manifest.bank
  · simp [hparity]
  · simp [hparity]

theorem invalidateManifest_spec (h : bank ≤ 1) (hlen : formatPageSize ≤ m.length)
    (hb : m.length < u64Bound) :
    (invalidateManifest bank).wp v t (fun r m' => r = .ok () ∧ m'.length = m.length ∧
      m'.word (128 + bank * 64) = 0) m := by
  have hpage : formatPageSize = 65536 := rfl
  rw [invalidateManifest, wp_bind, wp_ofExcept, manifestOffset_ok h, andThen_ok,
    wp_casReplace (by omega) hb (by omega)]
  exact ⟨rfl, rfl, word_setWord _ _ _⟩

theorem readManifest_invalid {f : HeadsFile} (h : f.words (128 + bank * 64) = 0) :
    FlorestaDb.readManifest f bank = none := by
  have hbase : manifestBase + bank * manifestStride = 128 + bank * 64 := rfl
  rw [FlorestaDb.readManifest, hbase, h]
  exact if_pos (by decide)

end Manifests

section Heads

theorem chunks_nil {α : Type} (size : Nat) : chunks size ([] : List α) = [] := by
  rw [chunks, if_pos (Or.inr rfl)]

theorem chunks_cons {α : Type} {size : Nat} {xs : List α} (hsize : 0 < size) (hxs : xs ≠ []) :
    chunks size xs = xs.take size :: chunks size (xs.drop size) := by
  conv_lhs => rw [chunks]
  rw [if_neg]
  rintro (h | h)
  · omega
  · exact hxs h

/-- The batches from number `k` on land behind one another. -/
theorem persistBatches_spec {k : Nat} {xs : List UInt64} (hb : m.length < u64Bound)
    (hroom : headsStart + k * headBatch * 8 + 8 * xs.length ≤ m.length) :
    (persistBatches k (chunks headBatch xs)).wp v t (fun r m' => r = .ok () ∧
      Changes (fun i => headsStart + k * headBatch * 8 ≤ i ∧
        i < headsStart + k * headBatch * 8 + 8 * xs.length) m m' ∧
      ∀ i (hi : i < xs.length), m'.word (headsStart + k * headBatch * 8 + 8 * i) = xs[i]) m := by
  obtain ⟨n, hn⟩ : ∃ n, xs.length ≤ n := ⟨xs.length, Nat.le_refl _⟩
  induction n generalizing k xs m with
  | zero =>
    obtain rfl := List.eq_nil_of_length_eq_zero (Nat.le_zero.mp hn)
    rw [chunks_nil, persistBatches, wp_pure]
    exact ⟨rfl, Changes.refl _ m, fun i hi => absurd hi (Nat.not_lt_zero i)⟩
  | succ n ih =>
    by_cases hxs : xs = []
    · subst hxs
      rw [chunks_nil, persistBatches, wp_pure]
      exact ⟨rfl, Changes.refl _ m, fun i hi => absurd hi (Nat.not_lt_zero i)⟩
    · have hpos : 0 < xs.length := List.length_pos_iff.mpr hxs
      have hbatch : headBatch = 131072 := rfl
      have hu : u64Bound = 2 ^ 64 := rfl
      have htake : (wordBytes (xs.take headBatch)).length = 8 * min headBatch xs.length := by
        rw [wordBytes_length, List.length_take]
      generalize hstart : headsStart + k * headBatch * 8 = start at hroom ⊢
      have hfirst : k * headBatch < u64Bound := by omega
      rw [chunks_cons (by decide) hxs, persistBatches, checkedMul_of_lt hfirst, okOr_some,
        wp_bind, wp_ofExcept, andThen_ok, checkedMul_of_lt (by omega), okOr_some, wp_bind,
        wp_ofExcept, andThen_ok, checkedAdd_of_lt (by omega), okOr_some, wp_bind, wp_ofExcept,
        andThen_ok, wp_bind, hstart, wp_copyIn (by rw [htake]; omega) hb, andThen_ok]
      have hcopied : ∀ i (hi : i < (xs.take headBatch).length), word ⟨overwrite m.bytes start
          (wordBytes (xs.take headBatch)), m.length⟩ (start + 8 * i) = (xs.take headBatch)[i] := by
        intro i hi
        have h := word_copied (o := start) hi m.length m.bytes []
        rwa [List.append_nil] at h
      have hchange : Changes (fun i => start ≤ i ∧ i < start + 8 * xs.length) m
          ⟨overwrite m.bytes start (wordBytes (xs.take headBatch)), m.length⟩ := by
        refine changes_overwrite m _ ?_
        rw [htake]
        intro i h1 h2
        omega
      by_cases hlast : xs.length ≤ headBatch
      · have hall : xs.take headBatch = xs := List.take_of_length_le hlast
        rw [List.drop_eq_nil_of_le hlast, chunks_nil, persistBatches, wp_pure]
        rw [hall] at hchange hcopied ⊢
        exact ⟨rfl, hchange, hcopied⟩
      · have hrest : (xs.drop headBatch).length = xs.length - headBatch := List.length_drop
        have hnext : headsStart + (k + 1) * headBatch * 8 = start + 8 * headBatch := by
          rw [Nat.succ_mul]
          omega
        have hih := ih (m := ⟨overwrite m.bytes start (wordBytes (xs.take headBatch)), m.length⟩)
          (k := k + 1) hb (by rw [hrest, hnext]; simp only; omega)
          (show (xs.drop headBatch).length ≤ n by omega)
        rw [hnext] at hih
        refine wp_mono hih ?_
        rintro _ m' ⟨rfl, hchange', hwords⟩
        refine ⟨rfl, hchange.trans (hchange'.mono ?_), ?_⟩
        · intro i hi
          omega
        · intro i hi
          by_cases hlow : i < headBatch
          · rw [hchange'.word (by intro j h1 h2 h3; omega), hcopied i (by
              rw [List.length_take]; omega), List.getElem_take]
          · have hw := hwords (i - headBatch) (by omega)
            rw [List.getElem_drop] at hw
            have hat : start + 8 * headBatch + 8 * (i - headBatch) = start + 8 * i := by omega
            have hidx : headBatch + (i - headBatch) = i := by omega
            simp only [hidx] at hw
            rw [← hat, hw]

theorem persistRuntimeHeads_spec {xs : List UInt64} (hb : m.length < u64Bound)
    (hroom : headsStart + 8 * xs.length ≤ m.length) :
    (persistRuntimeHeads xs).wp v t (fun r m' =>
      r = .ok () ∧ m'.length = m.length ∧
        (∀ i (hi : i < xs.length), m'.word (headsStart + 8 * i) = xs[i]) ∨
      v = .any ∧ r = .error .outOfMemory ∧ m' = m) m := by
  rw [persistRuntimeHeads, wp_bind, wp_tryReserve]
  refine ⟨?_, fun hv => Or.inr ⟨hv, rfl, rfl⟩⟩
  have hzero : headsStart + 0 * headBatch * 8 = headsStart := rfl
  refine wp_mono (persistBatches_spec (k := 0) hb hroom) ?_
  rintro r m' ⟨hr, hchange, hwords⟩
  exact Or.inl ⟨hr, hchange.length, hwords⟩

theorem mapM_ok {α β : Type} {f : α → Except Error β} {g : α → β} {xs : List α}
    (h : ∀ x ∈ xs, f x = .ok (g x)) : xs.mapM f = .ok (xs.map g) := by
  induction xs with
  | nil => rfl
  | cons x xs ih =>
    rw [List.mapM_cons, h x List.mem_cons_self, ok_bind,
      ih fun y hy => h y (List.mem_cons_of_mem x hy), ok_bind, List.map_cons]
    rfl

/-- What the words of the runtime bank are is what is loaded. -/
theorem createRuntimeHeads_of {xs : List UInt64} (hb : m.length < u64Bound)
    (hroom : headsStart + 8 * xs.length ≤ m.length)
    (hwords : ∀ i (hi : i < xs.length), m.word (headsStart + 8 * i) = xs[i]) :
    m.createRuntimeHeads xs.length = .ok xs := by
  have hload : ∀ b ∈ List.range xs.length, m.loadHead b = .ok (m.word (headsStart + 8 * b)) := by
    intro b hmem
    have hlt := List.mem_range.mp hmem
    rw [loadHead, checkedMul_of_lt (by omega), okOr_some, ok_bind, checkedAdd_of_lt (by omega),
      okOr_some, ok_bind, Nat.mul_comm b 8, readMappedU64_of (by omega) hb]
  rw [createRuntimeHeads, mapM_ok hload]
  refine congrArg Except.ok (List.ext_getElem (by simp) ?_)
  intro i h1 h2
  simp [hwords i h2]

end Heads

section Writers
variable {P : Nat → Prop}

/-- The functions that write to the heads file of a database in use. -/
inductive Writer where
  | writeManifest (manifest : Manifest)
  | invalidateManifest (bank : Nat)
  | persistRuntimeHeads (runtimeHeads : List UInt64)
  | clearSnapshotBank (bank : Nat)
  | writeSnapshotRoot (bank bucket : Nat) (root : UInt64)

def Writer.program (cfg : Config) : Writer → MappedM Unit
  | .writeManifest manifest => Mapped.writeManifest manifest
  | .invalidateManifest bank => Mapped.invalidateManifest bank
  | .persistRuntimeHeads runtimeHeads => Mapped.persistRuntimeHeads runtimeHeads
  | .clearSnapshotBank bank => Mapped.clearSnapshotBank cfg bank
  | .writeSnapshotRoot bank bucket root => Mapped.writeSnapshotRoot cfg bank bucket root

def InManifest (bank i : Nat) : Prop :=
  bank ≤ 1 ∧ 128 + bank * 64 ≤ i ∧ i < 128 + bank * 64 + 40

def InHeads (n i : Nat) : Prop := headsStart ≤ i ∧ i < headsStart + 8 * n

def InRoots (n bank i : Nat) : Prop :=
  ∃ start, snapshotBankStart n bank = .ok start ∧ start ≤ i ∧ i < start + 8 * n

/-- The bytes that a writer may write. -/
def Writer.Covers (cfg : Config) : Writer → Nat → Prop
  | .writeManifest manifest => InManifest manifest.bank
  | .invalidateManifest bank => InManifest bank
  | .persistRuntimeHeads runtimeHeads => InHeads runtimeHeads.length
  | .clearSnapshotBank bank => InRoots cfg.bucketCount bank
  | .writeSnapshotRoot bank _ _ => InRoots cfg.bucketCount bank

theorem changes_atManifest {bank : Nat} {f : Nat → MappedM Unit}
    (h : ∀ o, (∀ i, o ≤ i → i < o + 40 → InManifest bank i) →
      Prog.Within (Changes (InManifest bank)) (f o)) :
    Prog.Within (Changes (InManifest bank)) (ofExcept (manifestOffset bank) >>= f) := by
  refine within_check fun o ho => ?_
  obtain ⟨hbank, ho⟩ := guard_ok.mp ho
  obtain rfl := Except.ok.inj ho
  exact h _ fun i h1 h2 => ⟨Nat.not_lt.mp hbank, h1, h2⟩

theorem changes_persistBatches {k : Nat} {xs : List UInt64}
    (hP : ∀ i, headsStart + k * headBatch * 8 ≤ i →
      i < headsStart + k * headBatch * 8 + 8 * xs.length → P i) :
    Prog.Within (Changes P) (persistBatches k (chunks headBatch xs)) := by
  obtain ⟨n, hn⟩ : ∃ n, xs.length ≤ n := ⟨xs.length, Nat.le_refl _⟩
  induction n generalizing k xs with
  | zero =>
    obtain rfl := List.eq_nil_of_length_eq_zero (Nat.le_zero.mp hn)
    rw [chunks_nil]
    exact within_done _
  | succ n ih =>
    by_cases hxs : xs = []
    · subst hxs
      rw [chunks_nil]
      exact within_done _
    · have hpos : 0 < xs.length := List.length_pos_iff.mpr hxs
      have hbatch : headBatch = 131072 := rfl
      have hrest : (xs.drop headBatch).length = xs.length - headBatch := List.length_drop
      rw [chunks_cons (by decide) hxs, persistBatches]
      refine within_check fun first hfirst => within_check fun bytes hbytes =>
        within_check fun offset hoffset => ?_
      obtain ⟨-, rfl⟩ := checkedMul_some (okOr_ok hfirst)
      obtain ⟨-, rfl⟩ := checkedMul_some (okOr_ok hbytes)
      obtain ⟨-, rfl⟩ := checkedAdd_some (okOr_ok hoffset)
      refine within_bind (changes_copyIn ?_) fun _ => ih ?_ (by omega)
      · rw [wordBytes_length, List.length_take]
        intro i h1 h2
        exact hP i h1 (by omega)
      · rw [Nat.succ_mul, hrest]
        intro i h1 h2
        exact hP i (by omega) (by omega)

theorem changes_atRoot {bank bucket : Nat} {f : Nat → MappedM Unit}
    (h : ∀ o, (∀ i, o ≤ i → i < o + 8 → InRoots cfg.bucketCount bank i) →
      Prog.Within (Changes (InRoots cfg.bucketCount bank)) (f o)) :
    Prog.Within (Changes (InRoots cfg.bucketCount bank))
      (ofExcept (rootOffset cfg bank bucket) >>= f) := by
  refine within_check fun o hroot => h o ?_
  rw [rootOffset] at hroot
  by_cases hbucket : bucket ≥ cfg.bucketCount
  · rw [if_pos hbucket] at hroot
    cases hroot
  · rw [if_neg hbucket] at hroot
    obtain ⟨start, hstart, hroot⟩ := bind_ok hroot
    obtain ⟨bytes, hmul, hadd⟩ := Option.bind_eq_some_iff.mp (okOr_ok hroot)
    obtain ⟨-, rfl⟩ := checkedMul_some hmul
    obtain ⟨-, rfl⟩ := checkedAdd_some hadd
    intro i h1 h2
    exact ⟨start, hstart, by omega, by omega⟩

theorem changes_clearBuckets (bank : Nat) (buckets : List Nat) :
    Prog.Within (Changes (InRoots cfg.bucketCount bank)) (clearBuckets cfg bank buckets) := by
  induction buckets with
  | nil => exact within_done _
  | cons bucket buckets ih =>
    refine changes_atRoot fun o ho => ?_
    exact within_bind (changes_casReplace ho) fun _ => ih

/-- Each writer stays in the part it covers. -/
theorem Writer.changes (cfg : Config) (w : Writer) :
    Prog.Within (Changes (w.Covers cfg)) (w.program cfg) := by
  cases w with
  | writeManifest manifest =>
    refine changes_atManifest fun o ho => ?_
    have hat : ∀ k ≤ 32, ∀ i, o + k ≤ i → i < o + k + 8 → InManifest manifest.bank i :=
      fun k hk i h1 h2 => ho i (by omega) (by omega)
    exact within_bind (changes_casReplace (hat 0 (by decide))) fun _ =>
      within_bind (changes_casReplace (hat 8 (by decide))) fun _ =>
      within_bind (changes_casReplace (hat 16 (by decide))) fun _ =>
      within_bind (changes_casReplace (hat 32 (by decide))) fun _ =>
      within_bind (changes_casReplace (hat 24 (by decide))) fun _ =>
      changes_casReplace (hat 0 (by decide))
  | invalidateManifest bank =>
    exact changes_atManifest fun o ho => changes_casReplace fun i h1 h2 => ho i h1 (by omega)
  | persistRuntimeHeads runtimeHeads =>
    refine within_bind changes_tryReserve fun _ => changes_persistBatches ?_
    intro i h1 h2
    exact ⟨by omega, by omega⟩
  | clearSnapshotBank bank => exact changes_clearBuckets bank _
  | writeSnapshotRoot bank bucket root =>
    refine changes_atRoot fun o ho => within_bind (changes_compareExchange ho) fun done => ?_
    cases done <;> exact within_done _

/-- The writers are called one after another, whatever each of them returns. -/
inductive Runs (cfg : Config) (t : Tid) : List Writer → Mapped → Mapped → Prop where
  | nil (m : Mapped) : Runs cfg t [] m m
  | cons {w : Writer} {ws : List Writer} {m m₁ m' : Mapped} {r : Except Error Unit}
      (hw : (w.program cfg).Returns t m r m₁) (hrest : Runs cfg t ws m₁ m') :
      Runs cfg t (w :: ws) m m'

/-- A run of writers leaves the bytes alone that none of them covers. -/
theorem Runs.changes {ws : List Writer} (h : Runs cfg t ws m m')
    (hP : ∀ w ∈ ws, ∀ i, w.Covers cfg i → P i) : Changes P m m' := by
  induction h with
  | nil m => exact Changes.refl P m
  | @cons w ws m m₁ m' r hw hrest ih =>
    have hstep := Changes.of_chain (chain_of_guar (w.changes cfg t m) hw)
    exact (hstep.mono (hP w List.mem_cons_self)).trans
      (ih fun w' hw' => hP w' (List.mem_cons_of_mem w hw'))

end Writers

section Format
variable {length : Nat}

/-- What `heads_length` promises when it succeeds: three banks behind the first page. -/
structure Geometry (n length size : Nat) : Prop where
  bank_size : bankSize n = .ok size
  holds : 8 * n ≤ size
  length_eq : length = headsStart + size * 3
  bound : length < u64Bound
  start : ∀ bank ≤ 1, snapshotBankStart n bank = .ok (headsStart + size + bank * size)

theorem geometry_of_headsLength {n : Nat} (h : headsLength n = .ok length) :
    ∃ size, Geometry n length size := by
  obtain ⟨size, hsize, h⟩ := bind_ok h
  obtain ⟨banks, hbanks, h⟩ := bind_ok h
  obtain ⟨-, rfl⟩ := checkedMul_some (okOr_ok hbanks)
  obtain ⟨hbound, rfl⟩ := checkedAdd_some (okOr_ok h)
  refine ⟨size, hsize, ?_, rfl, hbound, ?_⟩
  · obtain ⟨bytes, hmul, hround⟩ := Option.bind_eq_some_iff.mp (okOr_ok hsize)
    obtain ⟨-, rfl⟩ := checkedMul_some hmul
    have hpage : formatPageSize = 65536 := rfl
    rw [alignUp, if_neg (by decide)] at hround
    obtain ⟨sum, hadd, rfl⟩ := Option.map_eq_some_iff.mp hround
    obtain ⟨-, rfl⟩ := checkedAdd_some hadd
    rw [hpage]
    omega
  · intro bank hbank
    have hle : bank * size ≤ 1 * size := Nat.mul_le_mul_right size hbank
    rw [snapshotBankStart, if_neg (Nat.not_lt.mpr hbank), hsize]
    change okOr _ _ = _
    rw [checkedAdd_of_lt (by omega), Option.bind_some, checkedMul_of_lt (by omega),
      Option.bind_some, checkedAdd_of_lt (by omega), okOr_some]

theorem Geometry.page_le {n size : Nat} (h : Geometry n length size) : formatPageSize ≤ length := by
  have heq := h.length_eq
  have hstart : headsStart = formatPageSize := rfl
  omega

theorem Geometry.heads_le {n size : Nat} (h : Geometry n length size) :
    headsStart + 8 * n ≤ length := by
  have heq := h.length_eq
  have hholds := h.holds
  omega

/-- The roots lie behind the runtime heads. -/
theorem Geometry.roots {n size bank i : Nat} (h : Geometry n length size)
    (hi : InRoots n bank i) : headsStart + 8 * n ≤ i := by
  obtain ⟨start, hstart, h1, h2⟩ := hi
  have hbank : bank ≤ 1 := by
    by_contra hgt
    rw [snapshotBankStart, if_pos (Nat.not_le.mp hgt)] at hstart
    cases hstart
  rw [h.start bank hbank] at hstart
  obtain rfl := Except.ok.inj hstart
  have hholds := h.holds
  omega

/-- The offsets of the header fields. -/
def headerFields : List Nat := [0, 8, 16, 24, 32, 40, 48, 56, 72, 80, 88, headerChecksumOffset]

/-- The parts of the file, each by its offset and size. -/
def parts (o₀ o₁ s₀ s₁ size : Nat) : List (Nat × Nat) :=
  headerFields.map (·, 8) ++ [(o₀, 40), (o₁, 40), (headsStart, size), (s₀, size), (s₁, size)]

def Separate (a b : Nat × Nat) : Prop := a.1 + a.2 ≤ b.1 ∨ b.1 + b.2 ≤ a.1

/-- One part ends where the next one starts, or before. -/
theorem parts_separate (size : Nat) :
    (parts 128 192 (headsStart + size) (headsStart + size + size) size).Pairwise Separate ∧
      ∀ p ∈ parts 128 192 (headsStart + size) (headsStart + size + size) size,
        p.1 + p.2 ≤ headsStart + size * 3 := by
  have hstart : headsStart = 65536 := rfl
  have htrans : IsTrans (Nat × Nat) fun a b => a.1 + a.2 ≤ b.1 := ⟨fun a b c h1 h2 => by omega⟩
  have hchain : (parts 128 192 (headsStart + size) (headsStart + size + size) size).IsChain
      fun a b => a.1 + a.2 ≤ b.1 := by
    simp only [parts, headerFields, headerChecksumOffset, List.map_cons, List.map_nil,
      List.cons_append, List.nil_append, List.isChain_cons_cons, List.isChain_singleton, and_true]
    omega
  refine ⟨hchain.pairwise.imp Or.inl, ?_⟩
  intro p hp
  simp only [parts, headerFields, headerChecksumOffset, List.map_cons, List.map_nil,
    List.cons_append, List.nil_append, List.mem_cons, List.not_mem_nil, or_false] at hp
  rcases hp with rfl | rfl | rfl | rfl | rfl | rfl | rfl | rfl | rfl | rfl | rfl | rfl | rfl |
    rfl | rfl | rfl | rfl <;> simp only <;> omega

/-- A writer that leaves the manifest of `bank` alone. -/
def Writer.Spares (bank : Nat) : Writer → Prop
  | .writeManifest manifest => manifest.bank ≠ bank
  | .invalidateManifest bank' => bank' ≠ bank
  | _ => True

theorem Writer.covers_header (hg : ∃ size, Geometry cfg.bucketCount length size) (w : Writer) {i : Nat}
    (h : w.Covers cfg i) : 104 ≤ i := by
  obtain ⟨size, hg⟩ := hg
  have hstart : headsStart = 65536 := rfl
  cases w with
  | writeManifest manifest =>
    obtain ⟨-, h1, -⟩ := h
    omega
  | invalidateManifest bank =>
    obtain ⟨-, h1, -⟩ := h
    omega
  | persistRuntimeHeads runtimeHeads =>
    obtain ⟨h1, -⟩ := h
    omega
  | clearSnapshotBank bank =>
    have h1 := hg.roots h
    omega
  | writeSnapshotRoot bank bucket root =>
    have h1 := hg.roots h
    omega

theorem Writer.covers_manifest (hg : ∃ size, Geometry cfg.bucketCount length size) {w : Writer}
    {bank i : Nat} (hbank : bank ≤ 1) (hw : w.Spares bank) (h : w.Covers cfg i) :
    i < 128 + bank * 64 ∨ 128 + bank * 64 + 40 ≤ i := by
  obtain ⟨size, hg⟩ := hg
  have hstart : headsStart = 65536 := rfl
  cases w with
  | writeManifest manifest =>
    obtain ⟨hle, h1, h2⟩ := h
    have hne : manifest.bank ≠ bank := hw
    omega
  | invalidateManifest bank' =>
    obtain ⟨hle, h1, h2⟩ := h
    have hne : bank' ≠ bank := hw
    omega
  | persistRuntimeHeads runtimeHeads =>
    obtain ⟨h1, -⟩ := h
    omega
  | clearSnapshotBank bank =>
    have h1 := hg.roots h
    omega
  | writeSnapshotRoot bank bucket root =>
    have h1 := hg.roots h
    omega

/-- A writer that leaves the runtime heads alone. -/
def Writer.SparesHeads : Writer → Prop
  | .persistRuntimeHeads _ => False
  | _ => True

theorem Writer.covers_heads (hg : ∃ size, Geometry cfg.bucketCount length size) {w : Writer}
    {i : Nat} (hw : w.SparesHeads) (h : w.Covers cfg i) :
    i < headsStart ∨ headsStart + 8 * cfg.bucketCount ≤ i := by
  obtain ⟨size, hg⟩ := hg
  have hstart : headsStart = 65536 := rfl
  cases w with
  | writeManifest manifest =>
    obtain ⟨hle, -, h2⟩ := h
    omega
  | invalidateManifest bank =>
    obtain ⟨hle, -, h2⟩ := h
    omega
  | persistRuntimeHeads runtimeHeads => exact hw.elim
  | clearSnapshotBank bank => exact Or.inr (hg.roots h)
  | writeSnapshotRoot bank bucket root => exact Or.inr (hg.roots h)

theorem readConfig_kept {size : Nat} (hvalid : cfg.validate = .ok ())
    (hblob : cfg.blobCapacity < 2 ^ 64) (hg : Geometry cfg.bucketCount m.length size)
    (hheader : HeaderOf cfg m.heads) {ws : List Writer} (hruns : Runs cfg t ws m m') :
    m'.readConfig = .ok cfg := by
  have hchange : Changes (fun i => 104 ≤ i) m m' :=
    hruns.changes fun w _ i hi => w.covers_header ⟨size, hg⟩ hi
  have hkept : HeaderOf cfg m'.heads := by
    apply hheader.of_words
    intro i hi
    refine hchange.word ?_
    intro j h1 h2 h3
    omega
  have hbuckets : cfg.bucketCount < 2 ^ 64 := by
    have hle := hg.heads_le
    have hb := hg.bound
    have hu : u64Bound = 2 ^ 64 := rfl
    omega
  rw [readConfig_eq (by rw [hchange.length]; exact hg.page_le) (by rw [hchange.length]; exact hg.bound)]
  exact readConfig_of_header hvalid hbuckets hblob hkept

theorem readManifest_kept {size bank : Nat} (hbank : bank ≤ 1)
    (hg : Geometry cfg.bucketCount m.length size) {ws : List Writer}
    (hspares : ∀ w ∈ ws, w.Spares bank) (hruns : Runs cfg t ws m m') :
    m'.readManifest bank = m.readManifest bank := by
  have hchange : Changes (fun i => i < 128 + bank * 64 ∨ 128 + bank * 64 + 40 ≤ i) m m' :=
    hruns.changes fun w hw i hi => w.covers_manifest ⟨size, hg⟩ hbank (hspares w hw) hi
  have hlen := hg.page_le
  have hb := hg.bound
  rw [readManifest_eq hbank (by rw [hchange.length]; exact hlen) (by rw [hchange.length]; exact hb),
    readManifest_eq hbank hlen hb]
  refine congrArg Except.ok (readManifest_words ?_)
  intro i hi
  refine hchange.word ?_
  intro j h1 h2 h3
  omega

theorem createRuntimeHeads_kept {size : Nat} (hg : Geometry cfg.bucketCount m.length size)
    {xs : List UInt64} (hxs : xs.length = cfg.bucketCount)
    (hwords : ∀ i (hi : i < xs.length), m.word (headsStart + 8 * i) = xs[i]) {ws : List Writer}
    (hspares : ∀ w ∈ ws, w.SparesHeads) (hruns : Runs cfg t ws m m') :
    m'.createRuntimeHeads cfg.bucketCount = .ok xs := by
  have hchange : Changes (fun i => i < headsStart ∨ headsStart + 8 * cfg.bucketCount ≤ i) m m' :=
    hruns.changes fun w hw i hi => w.covers_heads ⟨size, hg⟩ (hspares w hw) hi
  have hle := hg.heads_le
  have hb := hg.bound
  rw [← hchange.length] at hle hb
  rw [← hxs] at hle ⊢
  refine createRuntimeHeads_of hb hle ?_
  intro i hi
  rw [← hwords i hi]
  refine hchange.word ?_
  intro j h1 h2 h3
  omega

/-- The heads file: its parts lie apart, the configuration survives every writer, a manifest
is read back until its bank is written again, and so are the runtime heads. -/
theorem heads_format (hvalid : cfg.validate = .ok ()) (hblob : cfg.blobCapacity < 2 ^ 64)
    (hlength : headsLength cfg.bucketCount = .ok length) :
    (∃ size o₀ o₁ s₀ s₁, bankSize cfg.bucketCount = .ok size ∧ 8 * cfg.bucketCount ≤ size ∧
      manifestOffset 0 = .ok o₀ ∧ manifestOffset 1 = .ok o₁ ∧
      snapshotBankStart cfg.bucketCount 0 = .ok s₀ ∧
      snapshotBankStart cfg.bucketCount 1 = .ok s₁ ∧
      (parts o₀ o₁ s₀ s₁ size).Pairwise Separate ∧
      ∀ p ∈ parts o₀ o₁ s₀ s₁ size, p.1 + p.2 ≤ length) ∧
    ∀ t (m : Mapped), m.length = length →
      ((∃ m', (initializeHeader cfg).run t m = some (.ok (), m')) ∧
        ∀ m', (initializeHeader cfg).Returns t m (.ok ()) m' → ∀ ws m'', Runs cfg t ws m' m'' →
          m''.readConfig = .ok cfg) ∧
      (∀ manifest : Manifest, manifest.bank ≤ 1 → manifest.generation < 2 ^ 64 →
        (∃ m', (writeManifest manifest).run t m = some (.ok (), m')) ∧
        ∀ m', (writeManifest manifest).Returns t m (.ok ()) m' →
          m'.readManifest manifest.bank =
            .ok (if manifest.generation % 2 = manifest.bank then some manifest else none)) ∧
      (∀ bank ≤ 1, (∃ m', (invalidateManifest bank).run t m = some (.ok (), m')) ∧
        (∀ m', (invalidateManifest bank).Returns t m (.ok ()) m' →
          m'.readManifest bank = .ok none) ∧
        ∀ ws m', (∀ w ∈ ws, w.Spares bank) → Runs cfg t ws m m' →
          m'.readManifest bank = m.readManifest bank) ∧
      ∀ runtimeHeads : List UInt64, runtimeHeads.length = cfg.bucketCount →
        (∃ m', (persistRuntimeHeads runtimeHeads).run t m = some (.ok (), m')) ∧
        ∀ m', (persistRuntimeHeads runtimeHeads).Returns t m (.ok ()) m' →
          ∀ ws m'', (∀ w ∈ ws, w.SparesHeads) → Runs cfg t ws m' m'' →
            m''.createRuntimeHeads cfg.bucketCount = .ok runtimeHeads := by
  obtain ⟨size, hg⟩ := geometry_of_headsLength hlength
  have hpage : formatPageSize = 65536 := rfl
  have hstart : headsStart = 65536 := rfl
  have hu : u64Bound = 2 ^ 64 := rfl
  refine ⟨?_, ?_⟩
  · have hapart := parts_separate size
    rw [← hg.length_eq] at hapart
    refine ⟨size, 128, 192, headsStart + size, headsStart + size + size, hg.bank_size, hg.holds,
      rfl, rfl, ?_, ?_, hapart⟩
    · rw [hg.start 0 (by decide), Nat.zero_mul, Nat.add_zero]
    · rw [hg.start 1 (by decide), Nat.one_mul]
  · intro t m hm
    subst hm
    have hlen := hg.page_le
    have hb := hg.bound
    refine ⟨⟨?_, ?_⟩, ?_, ?_, ?_⟩
    · obtain ⟨r, m', hrun, -, ⟨rfl, -⟩ | ⟨hv, -⟩⟩ :=
        run_of_wp (p := initializeHeader cfg) (t := t) (initializeHeader_spec hlen hb)
      · exact ⟨m', hrun⟩
      · cases hv
    · intro m' hr ws m'' hruns
      obtain ⟨hlen', ⟨-, hheader⟩ | ⟨-, herr, -⟩⟩ :=
        post_of_returns (initializeHeader_spec hlen hb) hr
      · rw [← hlen'] at hg
        exact readConfig_kept hvalid hblob hg hheader hruns
      · cases herr
    · intro manifest hbank hgeneration
      refine ⟨?_, ?_⟩
      · obtain ⟨r, m', hrun, rfl, -⟩ := run_of_wp (writeManifest_spec (t := t) hbank hlen hb)
        exact ⟨m', hrun⟩
      · intro m' hr
        obtain ⟨-, hlen', h0, h1, h2, h3, h4⟩ :=
          post_of_returns (writeManifest_spec hbank hlen hb) hr
        rw [readManifest_eq hbank (by rw [hlen']; exact hlen) (by rw [hlen']; exact hb)]
        exact congrArg Except.ok (readManifest_written hbank hgeneration h0 h1 h2 h3 h4)
    · intro bank hbank
      refine ⟨?_, ?_, fun ws m' => readManifest_kept hbank hg⟩
      · obtain ⟨r, m', hrun, rfl, -⟩ := run_of_wp (invalidateManifest_spec (t := t) hbank hlen hb)
        exact ⟨m', hrun⟩
      · intro m' hr
        obtain ⟨-, hlen', h0⟩ := post_of_returns (invalidateManifest_spec hbank hlen hb) hr
        rw [readManifest_eq hbank (by rw [hlen']; exact hlen) (by rw [hlen']; exact hb)]
        exact congrArg Except.ok (readManifest_invalid h0)
    · intro xs hxs
      have hroom : headsStart + 8 * xs.length ≤ m.length := hxs ▸ hg.heads_le
      refine ⟨?_, ?_⟩
      · obtain ⟨r, m', hrun, ⟨rfl, -⟩ | ⟨hv, -⟩⟩ :=
          run_of_wp (persistRuntimeHeads_spec (t := t) hb hroom)
        · exact ⟨m', hrun⟩
        · cases hv
      · intro m' hr ws m'' hspares hruns
        rcases post_of_returns (persistRuntimeHeads_spec hb hroom) hr with
          ⟨-, hlen', hwords⟩ | ⟨-, herr, -⟩
        · rw [← hlen'] at hg
          exact createRuntimeHeads_kept hg hxs hwords hspares hruns
        · cases herr

/-- A new heads file for one bucket. -/
def blank : Mapped := ⟨fun _ => 0, 262144⟩

theorem heads_format_blank :
    ∃ m, (initializeHeader Config.small).run 0 blank = some (.ok (), m) ∧
      m.readConfig = .ok Config.small ∧
      ∀ manifest : Manifest, manifest.bank ≤ 1 → manifest.generation < 2 ^ 64 →
        ∀ m', (writeManifest manifest).Returns 0 m (.ok ()) m' →
          ∀ m'', Runs Config.small 0 [.persistRuntimeHeads [65536], .clearSnapshotBank 0] m' m'' →
            m''.readManifest manifest.bank =
              .ok (if manifest.generation % 2 = manifest.bank then some manifest else none) := by
  have hlength : headsLength Config.small.bucketCount = .ok 262144 := by decide +kernel
  have hvalid : Config.small.validate = .ok () := by decide +kernel
  obtain ⟨⟨⟨m, hrun⟩, hconfig⟩, -⟩ := (heads_format hvalid (by decide) hlength).2 0 blank rfl
  have hreturns := returns_of_run hrun
  have hm : m.length = 262144 :=
    (post_of_returns (initializeHeader_spec (by decide) (by decide)) hreturns).1
  refine ⟨m, hrun, hconfig m hreturns [] m (.nil m), ?_⟩
  intro manifest hbank hgeneration m' hr m'' hruns
  have hm' : m'.length = 262144 :=
    (post_of_returns (writeManifest_spec hbank (by rw [hm]; decide) (by rw [hm]; decide)) hr).2.1.trans hm
  obtain ⟨-, hwritten, -⟩ := (heads_format hvalid (by decide) hlength).2 0 m hm
  obtain ⟨-, -, hkept, -⟩ := (heads_format hvalid (by decide) hlength).2 0 m' hm'
  rw [(hkept manifest.bank hbank).2.2 _ m'' (by simp [Writer.Spares]) hruns,
    (hwritten manifest hbank hgeneration).2 m' hr]

end Format

end Mapped

end FlorestaDb
