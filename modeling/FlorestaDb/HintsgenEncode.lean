import FlorestaDb.HintsgenRuns
import FlorestaDb.Lib.Word

/-! The hintsfile: for each height up to the tip the indices of the outputs that are not among
the sorted spent positions, found by one pass over both with one position of lookahead. The
Elias-Fano encoder stores the list it is given, so the file is modelled by those lists. -/
namespace FlorestaDb.Hintsgen

def packOutputPosition (blockHeight blockIndex : Nat) : UInt64 :=
  UInt64.ofNat blockHeight <<< 32 ||| UInt64.ofNat blockIndex

def unpackOutputPosition (position : UInt64) : Nat × Nat :=
  let bytes := Hash.leBytes 8 position.toNat
  (Hash.leValue (bytes.drop 4), Hash.leValue (bytes.take 4))

/-- The lists appended for the heights `1 .. stopHeight`. -/
structure Hintsfile where
  stopHeight : Nat
  blocks : List (List Nat)
  deriving DecidableEq, Repr

section Encoder

structure Scan where
  reader : ValueReader
  nextSpent : Option UInt64
  encodedOutputs : Nat

/-- The scan after the spent position of this output, or `none` when the output is unspent. -/
def Scan.takeSpent (s : Scan) (height outputIndex : Nat) : AnyResult (Option Scan) :=
  match s.nextSpent with
  | none => .ok none
  | some position =>
    let (positionHeight, spentIndex) := unpackOutputPosition position
    if positionHeight < height ∨ positionHeight = height ∧ spentIndex < outputIndex then
      .error (.other "sorted spent output positions contain a duplicate or moved backwards")
    else if positionHeight = height ∧ spentIndex = outputIndex then do
      let (next, reader) ← s.reader.nextValue
      return some { s with reader := reader, nextSpent := next }
    else .ok none

/-- The outputs `outputIndex .. outputIndex + n` of one block. -/
def encodeBlock (height : Nat) : Nat → Nat → Scan → AnyResult (List Nat × Scan)
  | 0, _, s => .ok ([], s)
  | n + 1, outputIndex, s => do
    match ← s.takeSpent height outputIndex with
    | some s => encodeBlock height n (outputIndex + 1) s
    | none =>
      let encoded ← orFail (checkedAdd s.encodedOutputs 1)
        (.invalidInput "encoded output count overflow")
      let (indices, s) ← encodeBlock height n (outputIndex + 1) { s with encodedOutputs := encoded }
      return (outputIndex :: indices, s)

def encodeHeights (counts : List UInt32) : Nat → Nat → Scan → AnyResult (List (List Nat) × Scan)
  | 0, _, s => .ok ([], s)
  | n + 1, height, s => do
    let count ← orFail counts[height]? (.invalidInput "eligible output count is unavailable")
    let (indices, s) ← encodeBlock height count.toNat 0 s
    let (blocks, s) ← encodeHeights counts n (height + 1) s
    return (indices :: blocks, s)

def encodeUnspentHintsfile (sortedSpentPath : Path) (tipHeight : Nat) (counts : List UInt32)
    (files : Files) : AnyResult (Nat × Hintsfile) :=
  if 2 ^ 32 ≤ tipHeight then .error (.invalidInput "hintsfile height exceeds u32")
  else do
    let reader ← ValueReader.openFlat sortedSpentPath files
    let (next, reader) ← reader.nextValue
    let (blocks, s) ← encodeHeights counts tipHeight 1 ⟨reader, next, 0⟩
    if s.nextSpent.isSome then
      .error (.other "sorted spent outputs contain a position above the requested tip")
    else return (s.encodedOutputs, ⟨tipHeight, blocks⟩)

end Encoder

section Positions
variable {h i : Nat} {p q : UInt64}

theorem leBytes_add (m n v : Nat) :
    Hash.leBytes (m + n) v = Hash.leBytes m v ++ Hash.leBytes n (v / 256 ^ m) := by
  induction m generalizing v with
  | zero => rw [Nat.zero_add, Nat.pow_zero, Nat.div_one, Hash.leBytes, List.nil_append]
  | succ m ih =>
    rw [Nat.succ_add, Hash.leBytes, ih, Nat.div_div_eq_div_mul, ← Nat.pow_succ', Hash.leBytes,
      List.cons_append]

theorem unpackOutputPosition_eq (p : UInt64) :
    unpackOutputPosition p = (p.toNat / 2 ^ 32, p.toNat % 2 ^ 32) := by
  have hlt : p.toNat < 2 ^ 64 := p.toNat_lt
  have hlength : (Hash.leBytes 4 p.toNat).length = 4 := Hash.leBytes_length 4 _
  have hpow : (256 : Nat) ^ 4 = 2 ^ 32 := by decide
  have hhalves : Hash.leBytes 8 p.toNat =
      Hash.leBytes 4 p.toNat ++ Hash.leBytes 4 (p.toNat / 2 ^ 32) := by
    rw [← hpow]
    exact leBytes_add 4 4 _
  have hhigh : p.toNat / 2 ^ 32 < 2 ^ 32 := by omega
  rw [unpackOutputPosition, hhalves, List.drop_left' hlength, List.take_left' hlength,
    Hash.leValue_leBytes, Hash.leValue_leBytes, hpow, Nat.mod_eq_of_lt hhigh]

theorem packOutputPosition_toNat (hh : h < 2 ^ 32) (hi : i < 2 ^ 32) :
    (packOutputPosition h i).toNat = h * 2 ^ 32 + i := by
  have h64 : (UInt64.ofNat h).toNat = h := Word.toNat_ofNat_of_lt (by omega)
  have i64 : (UInt64.ofNat i).toNat = i := Word.toNat_ofNat_of_lt (by omega)
  have hshift : (UInt64.ofNat h <<< 32).toNat = h * 2 ^ 32 := by
    rw [Word.toNat_shiftLeft _ _ (by decide)]
    · rw [h64]
      rfl
    · rw [h64]
      change h * 2 ^ 32 < 2 ^ 64
      omega
  rw [packOutputPosition, Word.toNat_or_disjoint _ _ 32 h hshift (by rw [i64]; exact hi), i64]

/-- A position is the one packed from its height and index. -/
theorem packOutputPosition_unpack (p : UInt64) :
    packOutputPosition (unpackOutputPosition p).1 (unpackOutputPosition p).2 = p := by
  have hlt : p.toNat < 2 ^ 64 := p.toNat_lt
  rw [unpackOutputPosition_eq, ← UInt64.toNat_inj, packOutputPosition_toNat (by omega) (by omega)]
  omega

theorem unpackOutputPosition_pack (hh : h < 2 ^ 32) (hi : i < 2 ^ 32) :
    unpackOutputPosition (packOutputPosition h i) = (h, i) := by
  rw [unpackOutputPosition_eq, packOutputPosition_toNat hh hi, Prod.mk.injEq]
  omega

/-- Positions are ordered by height, then by index. -/
theorem position_lt_iff : p < q ↔ (unpackOutputPosition p).1 < (unpackOutputPosition q).1 ∨
    (unpackOutputPosition p).1 = (unpackOutputPosition q).1 ∧
      (unpackOutputPosition p).2 < (unpackOutputPosition q).2 := by
  rw [UInt64.lt_iff_toNat_lt, unpackOutputPosition_eq, unpackOutputPosition_eq]
  omega

end Positions

section Blocks
variable {height n i e : Nat} {spent : List UInt64} {r : List Nat × Scan}

/-- The scan before the spent positions that have not been met. -/
def scanOf (spent : List UInt64) (encoded : Nat) : Scan := ⟨readerOf spent.tail, spent.head?, encoded⟩

theorem nextValue_readerOf (values : List UInt64) :
    (readerOf values).nextValue = .ok (values.head?, readerOf values.tail) := by
  cases values with
  | nil => exact nextValue_nil
  | cons value values => exact nextValue_cons value values

/-- The three outcomes for one output, by where the next spent position lies. -/
theorem takeSpent_cases (height i : Nat) (spent : List UInt64) (e : Nat) :
    (∃ rest, spent = packOutputPosition height i :: rest ∧
      (scanOf spent e).takeSpent height i = .ok (some (scanOf rest e))) ∨
    ((scanOf spent e).takeSpent height i = .ok none ∧
      ∀ p ∈ spent.head?, height < (unpackOutputPosition p).1 ∨
        (unpackOutputPosition p).1 = height ∧ i < (unpackOutputPosition p).2) ∨
    ∃ message, (scanOf spent e).takeSpent height i = .error message ∧
      ∃ p ∈ spent.head?, (unpackOutputPosition p).1 < height ∨
        (unpackOutputPosition p).1 = height ∧ (unpackOutputPosition p).2 < i := by
  cases spent with
  | nil => exact Or.inr (Or.inl ⟨rfl, by simp⟩)
  | cons p rest =>
    have hnext : (scanOf (p :: rest) e).nextSpent = some p := rfl
    rw [Scan.takeSpent, hnext]
    simp only [Option.mem_def, List.head?_cons, Option.some.injEq, exists_eq_left', forall_eq']
    by_cases hback : (unpackOutputPosition p).1 < height ∨
        (unpackOutputPosition p).1 = height ∧ (unpackOutputPosition p).2 < i
    · rw [if_pos hback]
      exact Or.inr (Or.inr ⟨_, rfl, hback⟩)
    · rw [if_neg hback]
      by_cases hthis : (unpackOutputPosition p).1 = height ∧ (unpackOutputPosition p).2 = i
      · have hp : p = packOutputPosition height i := by
          rw [← packOutputPosition_unpack p, hthis.1, hthis.2]
        rw [if_pos hthis]
        refine Or.inl ⟨rest, by rw [hp], ?_⟩
        simp only [scanOf, List.tail_cons, nextValue_readerOf, result_bind]
        rfl
      · rw [if_neg hthis]
        refine Or.inr (Or.inl ⟨rfl, ?_⟩)
        omega

/-- The indices from `i` on that are not among `ds`. -/
def unspentFrom (i n : Nat) (ds : List Nat) : List Nat := (List.range' i n).filter fun d => d ∉ ds

theorem unspentFrom_fresh {ds : List Nat} (hd : ∀ d ∈ ds, i + 1 ≤ d) :
    unspentFrom i (n + 1) ds = i :: unspentFrom (i + 1) n ds := by
  have hi : i ∉ ds := fun hmem => absurd (hd i hmem) (Nat.not_succ_le_self i)
  rw [unspentFrom, List.range'_succ, List.filter_cons_of_pos (by simpa using hi)]
  rfl

theorem unspentFrom_taken (i n : Nat) (ds : List Nat) :
    unspentFrom i (n + 1) (i :: ds) = unspentFrom (i + 1) n ds := by
  rw [unspentFrom, List.range'_succ, List.filter_cons_of_neg (by simp)]
  refine List.filter_congr ?_
  intro d hd
  have hge := (List.mem_range'_1.mp hd).1
  have hne : d ≠ i := by omega
  simp [hne]

theorem result_of_bind {α β : Type} {x : AnyResult α} {f : α → AnyResult β} {b : β}
    (h : (x >>= f) = .ok b) : ∃ a, x = .ok a ∧ f a = .ok b := by
  cases x with
  | error _ => cases h
  | ok a => exact ⟨a, rfl, h⟩

theorem orFail_ok {α : Type} {o : Option α} {f : Failure} {a : α} (h : orFail o f = .ok a) :
    o = some a := by
  cases o with
  | none => cases h
  | some b => exact congrArg some (Except.ok.inj h)

/-- What one block takes off the spent positions, and what it appends. -/
structure BlockScan (height i n : Nat) (spent : List UInt64) (e : Nat) (r : List Nat × Scan)
    (ds : List Nat) (rest : List UInt64) (e' : Nat) : Prop where
  split : spent = ds.map (packOutputPosition height) ++ rest
  increasing : ds.Pairwise (· < ·)
  within : ∀ d ∈ ds, i ≤ d ∧ d < i + n
  result : r = (unspentFrom i n ds, scanOf rest e')
  counted : e' + ds.length = e + n

/-- The induction is on the outputs of the block. -/
theorem encodeBlock_sound (h : encodeBlock height n i (scanOf spent e) = .ok r) :
    ∃ ds rest e', BlockScan height i n spent e r ds rest e' := by
  induction n generalizing i spent e r with
  | zero =>
    cases h
    exact ⟨[], spent, e, rfl, .nil, by simp, rfl, rfl⟩
  | succ n ih =>
    rw [encodeBlock] at h
    obtain ⟨rest, rfl, htake⟩ | ⟨htake, -⟩ | ⟨message, htake, -⟩ := takeSpent_cases height i spent e
    · rw [htake, result_bind] at h
      obtain ⟨ds, rest', e', hsplit, hinc, hin, hr, hcount⟩ := ih h
      refine ⟨i :: ds, rest', e', ?_, List.pairwise_cons.mpr ⟨?_, hinc⟩, ?_, ?_, ?_⟩
      · rw [hsplit]
        rfl
      · intro d hd
        exact (hin d hd).1
      · intro d hd
        cases List.mem_cons.mp hd with
        | inl heq => omega
        | inr hd =>
          have hd' := hin d hd
          omega
      · rw [unspentFrom_taken]
        exact hr
      · rw [List.length_cons]
        omega
    · rw [htake, result_bind] at h
      obtain ⟨encoded, hadd, h⟩ := result_of_bind h
      obtain ⟨-, rfl⟩ := checkedAdd_some (orFail_ok hadd)
      obtain ⟨⟨indices, s⟩, hrest, h⟩ := result_of_bind h
      obtain ⟨ds, rest, e', hsplit, hinc, hin, hr, hcount⟩ := ih (e := e + 1) hrest
      obtain ⟨rfl, rfl⟩ := Prod.mk.inj hr
      refine ⟨ds, rest, e', hsplit, hinc, ?_, ?_, ?_⟩
      · intro d hd
        have hd' := hin d hd
        omega
      · rw [unspentFrom_fresh fun d hd => (hin d hd).1]
        exact (Except.ok.inj h).symm
      · omega
    · rw [htake] at h
      cases h

/-- A block whose spent positions come next, in order and within its outputs, is encoded. -/
theorem encodeBlock_complete {ds : List Nat} {rest : List UInt64} (hheight : height < 2 ^ 32)
    (hbound : i + n ≤ 2 ^ 32) (hinc : ds.Pairwise (· < ·)) (hin : ∀ d ∈ ds, i ≤ d ∧ d < i + n)
    (hrest : ∀ p ∈ rest, height < (unpackOutputPosition p).1) (he : e + n < u64Bound) :
    ∃ indices e', encodeBlock height n i
      (scanOf (ds.map (packOutputPosition height) ++ rest) e) = .ok (indices, scanOf rest e') ∧
      e' ≤ e + n := by
  have hunpack : ∀ d ∈ ds, unpackOutputPosition (packOutputPosition height d) = (height, d) := by
    intro d hd
    have hd' := hin d hd
    exact unpackOutputPosition_pack hheight (by omega)
  induction n generalizing i ds e with
  | zero =>
    cases ds with
    | nil => exact ⟨[], e, rfl, Nat.le_refl _⟩
    | cons d ds =>
      have hd := hin d List.mem_cons_self
      omega
  | succ n ih =>
    rw [encodeBlock]
    obtain ⟨rest', heq, htake⟩ | ⟨htake, hahead⟩ | ⟨message, htake, p, hp, hback⟩ :=
      takeSpent_cases height i (ds.map (packOutputPosition height) ++ rest) e
    · cases ds with
      | nil =>
        have hlt := hrest _ (heq ▸ List.mem_cons_self)
        rw [unpackOutputPosition_pack hheight (by omega)] at hlt
        exact absurd hlt (Nat.lt_irrefl _)
      | cons d ds =>
        obtain ⟨hd, rfl⟩ := List.cons.inj heq
        have hsame := congrArg unpackOutputPosition hd
        rw [hunpack d List.mem_cons_self, unpackOutputPosition_pack hheight (by omega)] at hsame
        obtain rfl : d = i := (Prod.mk.inj hsame).2
        obtain ⟨hafter, hinc'⟩ := List.pairwise_cons.mp hinc
        rw [htake, result_bind]
        have hin' : ∀ d' ∈ ds, d + 1 ≤ d' ∧ d' < d + 1 + n := by
          intro d' hd'
          have h1 := hafter d' hd'
          have h2 := hin d' (List.mem_cons_of_mem _ hd')
          omega
        obtain ⟨indices, e', hblock, hle⟩ := ih (i := d + 1) (e := e) (by omega) hinc' hin'
          (by omega) (fun d' hd' => hunpack d' (List.mem_cons_of_mem _ hd'))
        exact ⟨indices, e', hblock, by omega⟩
    · have hlater : ∀ d ∈ ds, i + 1 ≤ d ∧ d < i + 1 + n := by
        cases ds with
        | nil => simp
        | cons first ds =>
          have hfirst := hahead _ rfl
          rw [hunpack first List.mem_cons_self] at hfirst
          intro d hd
          have hd' := hin d hd
          cases List.mem_cons.mp hd with
          | inl heq => omega
          | inr hmem =>
            have hlt := (List.pairwise_cons.mp hinc).1 d hmem
            omega
      obtain ⟨indices, e', hblock, hle⟩ := ih (i := i + 1) (e := e + 1) (by omega) hinc hlater
        (by omega) hunpack
      refine ⟨i :: indices, e', ?_, by omega⟩
      have hroom : e + 1 < u64Bound := by omega
      have hadd : checkedAdd (scanOf (ds.map (packOutputPosition height) ++ rest) e).encodedOutputs 1
          = some (e + 1) := checkedAdd_of_lt hroom
      rw [htake, result_bind]
      simp only [hadd, orFail_some, result_bind]
      have hsame : { scanOf (ds.map (packOutputPosition height) ++ rest) e with
          encodedOutputs := e + 1 } = scanOf (ds.map (packOutputPosition height) ++ rest) (e + 1) :=
        rfl
      rw [hsame, hblock]
      rfl
    · cases ds with
      | nil =>
        have hlt := hrest p (List.mem_of_mem_head? hp)
        omega
      | cons d ds =>
        obtain rfl : packOutputPosition height d = p := Option.some.inj hp
        have hd := hin d List.mem_cons_self
        rw [hunpack d List.mem_cons_self] at hback
        omega

end Blocks

section Heights
variable {counts : List UInt32} {height n e : Nat} {spent : List UInt64}

def outputCount (counts : List UInt32) (height : Nat) : Nat := (counts[height]?.getD 0).toNat

theorem outputCount_lt (counts : List UInt32) (height : Nat) : outputCount counts height < 2 ^ 32 :=
  (counts[height]?.getD 0).toNat_lt

/-- The outputs of a block that are not spent, in increasing order. -/
def unspentAt (counts : List UInt32) (spent : List UInt64) (height : Nat) : List Nat :=
  (List.range (outputCount counts height)).filter fun i => packOutputPosition height i ∉ spent

/-- A position of an output of one of the heights `height .. height + n`. -/
structure Within (counts : List UInt32) (height n : Nat) (p : UInt64) : Prop where
  height_le : height ≤ (unpackOutputPosition p).1
  height_lt : (unpackOutputPosition p).1 < height + n
  index_lt : (unpackOutputPosition p).2 < outputCount counts (unpackOutputPosition p).1

/-- The spent positions of one height do not matter at another. -/
theorem unspentAt_append_left {front : List UInt64} {h : Nat} (hh : h < 2 ^ 32)
    (hother : ∀ p ∈ front, (unpackOutputPosition p).1 ≠ h) (rest : List UInt64) :
    unspentAt counts (front ++ rest) h = unspentAt counts rest h := by
  refine List.filter_congr ?_
  intro i hi
  have hi' : i < 2 ^ 32 := Nat.lt_trans (List.mem_range.mp hi) (outputCount_lt counts h)
  have hnot : packOutputPosition h i ∉ front := by
    intro hmem
    refine hother _ hmem ?_
    rw [unpackOutputPosition_pack hh hi']
  simp [hnot]

theorem unspentAt_append_right {front rest : List UInt64} {h : Nat} (hh : h < 2 ^ 32)
    (hother : ∀ p ∈ rest, (unpackOutputPosition p).1 ≠ h) :
    unspentAt counts (front ++ rest) h = unspentAt counts front h := by
  rw [← unspentAt_append_left hh hother front]
  refine List.filter_congr ?_
  intro i _
  simp only [List.mem_append, or_comm]

/-- At its own height a block's spent indices are those it has taken. -/
theorem unspentAt_block {ds : List Nat} (hh : height < 2 ^ 32)
    (hin : ∀ d ∈ ds, d < outputCount counts height) :
    unspentAt counts (ds.map (packOutputPosition height)) height =
      unspentFrom 0 (outputCount counts height) ds := by
  rw [unspentFrom, ← List.range_eq_range']
  refine List.filter_congr ?_
  intro i hi
  have hcount := outputCount_lt counts height
  have hi' := List.mem_range.mp hi
  have hiff : packOutputPosition height i ∈ ds.map (packOutputPosition height) ↔ i ∈ ds := by
    refine ⟨?_, fun hmem => List.mem_map_of_mem hmem⟩
    intro hmem
    obtain ⟨d, hd, heq⟩ := List.mem_map.mp hmem
    have hd' := hin d hd
    have hsame := congrArg unpackOutputPosition heq
    rw [unpackOutputPosition_pack hh (by omega), unpackOutputPosition_pack hh (by omega)] at hsame
    rw [← (Prod.mk.inj hsame).2]
    exact hd
  simp only [hiff]

/-- What the heights `height .. height + n` take off the spent positions. -/
structure HeightsScan (counts : List UInt32) (height n : Nat) (spent : List UInt64) (e : Nat)
    (r : List (List Nat) × Scan) (front rest : List UInt64) (e' : Nat) : Prop where
  split : spent = front ++ rest
  increasing : front.Pairwise (· < ·)
  within : ∀ p ∈ front, Within counts height n p
  result : r = ((List.range' height n).map (unspentAt counts front), scanOf rest e')
  counted : e' + front.length = e + ((List.range' height n).map (outputCount counts)).sum

theorem encodeHeights_sound {r : List (List Nat) × Scan} (hheights : height + n ≤ 2 ^ 32)
    (h : encodeHeights counts n height (scanOf spent e) = .ok r) :
    ∃ front rest e', HeightsScan counts height n spent e r front rest e' := by
  induction n generalizing height spent e r with
  | zero =>
    cases h
    exact ⟨[], spent, e, rfl, .nil, by simp, rfl, rfl⟩
  | succ n ih =>
    rw [encodeHeights] at h
    obtain ⟨count, hcount, h⟩ := result_of_bind h
    have hthis : outputCount counts height = count.toNat := by
      rw [outputCount, orFail_ok hcount, Option.getD_some]
    rw [← hthis] at h
    obtain ⟨⟨indices, s⟩, hblock, h⟩ := result_of_bind h
    obtain ⟨ds, rest, e₁, hsplit, hinc, hin, hr, hcounted⟩ := encodeBlock_sound hblock
    obtain ⟨rfl, rfl⟩ := Prod.mk.inj hr
    obtain ⟨⟨blocks, s⟩, hheights', h⟩ := result_of_bind h
    obtain ⟨front, rest', e₂, hsplit', hinc', hin', hr', hcounted'⟩ := ih (by omega) hheights'
    obtain ⟨rfl, rfl⟩ := Prod.mk.inj hr'
    have hlt := outputCount_lt counts height
    have hunpack : ∀ d ∈ ds, unpackOutputPosition (packOutputPosition height d) = (height, d) := by
      intro d hd
      have hd' := hin d hd
      exact unpackOutputPosition_pack (by omega) (by omega)
    have hbelow : ∀ p ∈ ds.map (packOutputPosition height), (unpackOutputPosition p).1 = height := by
      intro p hp
      obtain ⟨d, hd, rfl⟩ := List.mem_map.mp hp
      rw [hunpack d hd]
    have habove : ∀ p ∈ front, height < (unpackOutputPosition p).1 := fun p hp => (hin' p hp).height_le
    refine ⟨ds.map (packOutputPosition height) ++ front, rest', e₂, ?_, ?_, ?_, ?_, ?_⟩
    · rw [hsplit, hsplit', List.append_assoc]
    · refine List.pairwise_append.mpr ⟨?_, hinc', ?_⟩
      · refine List.pairwise_map.mpr (hinc.imp_of_mem ?_)
        intro a b ha hb hab
        rw [position_lt_iff, hunpack a ha, hunpack b hb]
        exact Or.inr ⟨rfl, hab⟩
      · intro p hp q hq
        rw [position_lt_iff, hbelow p hp]
        exact Or.inl (habove q hq)
    · intro p hp
      cases List.mem_append.mp hp with
      | inl hp =>
        obtain ⟨d, hd, rfl⟩ := List.mem_map.mp hp
        have hd' := hin d hd
        refine ⟨?_, ?_, ?_⟩
        · rw [hunpack d hd]
        · rw [hunpack d hd]
          exact Nat.lt_add_of_pos_right (Nat.succ_pos n)
        · rw [hunpack d hd]
          change d < outputCount counts height
          omega
      | inr hp =>
        obtain ⟨h1, h2, h3⟩ := hin' p hp
        exact ⟨by omega, by omega, h3⟩
    · have hfirst : unspentAt counts (ds.map (packOutputPosition height) ++ front) height =
          unspentFrom 0 (outputCount counts height) ds := by
        rw [unspentAt_append_right (by omega) fun p hp => Nat.ne_of_gt (habove p hp),
          unspentAt_block (by omega) fun d hd => by simpa using (hin d hd).2]
      have hlater : (List.range' (height + 1) n).map
            (unspentAt counts (ds.map (packOutputPosition height) ++ front)) =
          (List.range' (height + 1) n).map (unspentAt counts front) := by
        refine List.map_congr_left ?_
        intro h' hmem
        have hrange := List.mem_range'_1.mp hmem
        refine unspentAt_append_left (by omega) ?_ front
        intro p hp
        rw [hbelow p hp]
        omega
      rw [← Except.ok.inj h, List.range'_succ, List.map_cons, hfirst, hlater]
    · rw [List.length_append, List.length_map, List.range'_succ, List.map_cons, List.sum_cons]
      omega

/-- Ordered positions from a height on: first those of the height, then higher ones. -/
theorem split_height (hinc : spent.Pairwise (· < ·))
    (hge : ∀ p ∈ spent, height ≤ (unpackOutputPosition p).1) :
    ∃ (ds : List Nat) (rest : List UInt64), spent = ds.map (packOutputPosition height) ++ rest ∧
      (∀ d ∈ ds, packOutputPosition height d ∈ spent ∧
        unpackOutputPosition (packOutputPosition height d) = (height, d)) ∧
      ds.Pairwise (· < ·) ∧ ∀ p ∈ rest, height < (unpackOutputPosition p).1 := by
  induction spent with
  | nil => exact ⟨[], [], rfl, by simp, .nil, by simp⟩
  | cons p spent ih =>
    obtain ⟨hafter, hinc⟩ := List.pairwise_cons.mp hinc
    have hp := hge p List.mem_cons_self
    by_cases heq : (unpackOutputPosition p).1 = height
    · obtain ⟨ds, rest, hsplit, hds, hdinc, hrest⟩ := ih hinc
        fun q hq => hge q (List.mem_cons_of_mem _ hq)
      have hpack : packOutputPosition height (unpackOutputPosition p).2 = p := by
        have hback := packOutputPosition_unpack p
        rw [heq] at hback
        exact hback
      refine ⟨(unpackOutputPosition p).2 :: ds, rest, ?_, ?_, List.pairwise_cons.mpr ⟨?_, hdinc⟩,
        hrest⟩
      · rw [List.map_cons, hpack, hsplit]
        rfl
      · intro d hd
        cases List.mem_cons.mp hd with
        | inl hthis =>
          rw [hthis, hpack]
          exact ⟨List.mem_cons_self, Prod.ext heq rfl⟩
        | inr hd => exact ⟨List.mem_cons_of_mem _ (hds d hd).1, (hds d hd).2⟩
      · intro d hd
        have hlt := hafter _ (hds d hd).1
        rw [position_lt_iff, (hds d hd).2, heq] at hlt
        simpa using hlt
    · refine ⟨[], p :: spent, rfl, by simp, .nil, ?_⟩
      intro q hq
      cases List.mem_cons.mp hq with
      | inl hq =>
        rw [hq]
        omega
      | inr hq =>
        have hlt := position_lt_iff.mp (hafter q hq)
        omega

theorem encodeHeights_complete (hheights : height + n ≤ 2 ^ 32) (hcounts : height + n ≤ counts.length)
    (hinc : spent.Pairwise (· < ·)) (hin : ∀ p ∈ spent, Within counts height n p)
    (he : e + n * 2 ^ 32 < u64Bound) :
    ∃ blocks e', encodeHeights counts n height (scanOf spent e) = .ok (blocks, scanOf [] e') := by
  induction n generalizing height spent e with
  | zero =>
    cases spent with
    | nil => exact ⟨[], e, rfl⟩
    | cons p spent =>
      obtain ⟨h1, h2, -⟩ := hin p List.mem_cons_self
      omega
  | succ n ih =>
    obtain ⟨ds, rest, rfl, hds, hdinc, hrest⟩ := split_height hinc fun p hp => (hin p hp).height_le
    have hget : counts[height]? = some counts[height] := List.getElem?_eq_getElem (by omega)
    have hthis : outputCount counts height = counts[height].toNat := by
      rw [outputCount, hget, Option.getD_some]
    have hlt := outputCount_lt counts height
    have hblock : ∀ d ∈ ds, 0 ≤ d ∧ d < 0 + outputCount counts height := by
      intro d hd
      obtain ⟨hmem, hunpack⟩ := hds d hd
      have hindex := (hin _ hmem).index_lt
      rw [hunpack] at hindex
      exact ⟨Nat.zero_le d, (Nat.zero_add _).symm ▸ hindex⟩
    obtain ⟨indices, e₁, hencode, hle⟩ := encodeBlock_complete (i := 0) (e := e) (by omega) (by omega)
      hdinc hblock hrest (by omega)
    have hlater : ∀ p ∈ rest, Within counts (height + 1) n p := by
      intro p hp
      obtain ⟨-, h2, h3⟩ := hin p (List.mem_append_right _ hp)
      exact ⟨hrest p hp, by omega, h3⟩
    obtain ⟨blocks, e₂, hheights'⟩ := ih (e := e₁) (by omega) (by omega)
      (List.pairwise_append.mp hinc).2.1 hlater (by omega)
    refine ⟨indices :: blocks, e₂, ?_⟩
    rw [encodeHeights, hget, orFail_some, result_bind, ← hthis, hencode, result_bind]
    simp only [hheights', result_bind]
    rfl

/-- What a hintsfile is made from: positions in strictly increasing order, each of an output of a
height up to the tip. -/
structure Encodable (counts : List UInt32) (tip : Nat) (spent : List UInt64) : Prop where
  increasing : spent.Pairwise (· < ·)
  within : ∀ p ∈ spent, Within counts 1 tip p

variable {files : Files} {path : Path} {tip : Nat}

theorem encodeUnspentHintsfile_eq (hfile : files path = some (valueBytes spent)) (htip : tip < 2 ^ 32) :
    encodeUnspentHintsfile path tip counts files =
      (encodeHeights counts tip 1 (scanOf spent 0) >>= fun x =>
        if x.2.nextSpent.isSome then
          .error (.other "sorted spent outputs contain a position above the requested tip")
        else pure (x.2.encodedOutputs, ⟨tip, x.1⟩)) := by
  rw [encodeUnspentHintsfile, if_neg (by omega), openFlat_ok hfile, result_bind,
    nextValue_readerOf, result_bind]
  rfl

/-- The hintsfile is written exactly when the positions are in order and in range, and then holds
for each height the outputs that are not among them. -/
theorem encodeUnspentHintsfile_iff (hfile : files path = some (valueBytes spent))
    (htip : tip < 2 ^ 32) (hcounts : tip < counts.length) :
    ((∃ r, encodeUnspentHintsfile path tip counts files = .ok r) ↔ Encodable counts tip spent) ∧
    ∀ total hints, encodeUnspentHintsfile path tip counts files = .ok (total, hints) →
      hints = ⟨tip, (List.range' 1 tip).map (unspentAt counts spent)⟩ ∧
      total + spent.length = ((List.range' 1 tip).map (outputCount counts)).sum := by
  have hsound : ∀ r, encodeUnspentHintsfile path tip counts files = .ok r →
      ∃ s, HeightsScan counts 1 tip spent 0 (r.2.blocks, s) spent [] r.1 ∧ r.2.stopHeight = tip := by
    intro r hr
    rw [encodeUnspentHintsfile_eq hfile htip] at hr
    obtain ⟨⟨blocks, s⟩, hscan, hr⟩ := result_of_bind hr
    obtain ⟨front, rest, e', h⟩ := encodeHeights_sound (by omega) hscan
    obtain ⟨rfl, rfl⟩ := Prod.mk.inj h.result
    cases rest with
    | cons p rest => cases hr
    | nil =>
      cases hr
      obtain rfl : spent = front := h.split.trans (List.append_nil front)
      exact ⟨_, h, rfl⟩
  refine ⟨⟨?_, ?_⟩, ?_⟩
  · rintro ⟨r, hr⟩
    obtain ⟨s, h, -⟩ := hsound r hr
    exact ⟨h.increasing, h.within⟩
  · intro h
    have hroom : 0 + tip * 2 ^ 32 < u64Bound := by
      have hu : u64Bound = 2 ^ 64 := rfl
      omega
    obtain ⟨blocks, e', hscan⟩ := encodeHeights_complete (by omega) (by omega) h.increasing h.within
      hroom
    refine ⟨(e', ⟨tip, blocks⟩), ?_⟩
    rw [encodeUnspentHintsfile_eq hfile htip, hscan]
    rfl
  · intro total hints hr
    obtain ⟨s, h, hstop⟩ := hsound _ hr
    have hblocks : hints.blocks = (List.range' 1 tip).map (unspentAt counts spent) :=
      congrArg Prod.fst h.result
    refine ⟨?_, ?_⟩
    · rw [← hblocks, ← hstop]
    · have hcounted := h.counted
      rw [Nat.zero_add] at hcounted
      exact hcounted

/-- However the removers' positions are spread over their runs, sorting and merging lists them
all in order; and from positions in a file the encoder writes, for each height up to the tip, the
outputs that are not among them, or fails when they are not strictly increasing and in range. -/
theorem hintsfile_complement :
    (∀ (files : Files) (workers : Nat) (pushes : List (Nat × UInt64)) (expected : UInt64),
      Fresh files → (∀ p ∈ pushes, p.1 < workers) → expected.toNat = pushes.length →
      ∃ runs files₁ files₂ files₃ values,
        collectRuns workers pushes files = .ok (runs, files₁) ∧
        sortPositionRuns runs files₁ = .ok files₂ ∧
        mergeSortRuns runs expected.toNat files₂ = .ok files₃ ∧
        files₃ .spentOutputs = some (valueBytes values) ∧ values.Pairwise (· ≤ ·) ∧
        values.Perm (pushes.map Prod.snd)) ∧
    ∀ (files : Files) (path : Path) (spent : List UInt64) (tip : Nat) (counts : List UInt32),
      files path = some (valueBytes spent) → tip < 2 ^ 32 → tip < counts.length →
      ((∃ r, encodeUnspentHintsfile path tip counts files = .ok r) ↔ Encodable counts tip spent) ∧
      ∀ total hints, encodeUnspentHintsfile path tip counts files = .ok (total, hints) →
        hints = ⟨tip, (List.range' 1 tip).map (unspentAt counts spent)⟩ ∧
        total + spent.length = ((List.range' 1 tip).map (outputCount counts)).sum := by
  refine ⟨?_, ?_⟩
  · intro files workers pushes expected hfresh hworkers hexpected
    have hb : pushes.length < u64Bound := hexpected ▸ expected.toNat_lt
    rw [hexpected]
    exact spentOutputs_sorted hfresh hworkers hb
  · intro files path spent tip counts hfile htip hcounts
    exact encodeUnspentHintsfile_iff hfile htip hcounts

/-- Two positions in a file, and the outputs of two blocks around them. -/
def spentFile : Files :=
  Files.write (fun _ => none) .spentOutputs
    (valueBytes [packOutputPosition 1 1, packOutputPosition 2 0])

theorem hintsfile_complement_blocks :
    (∃ runs files₁ files₂ files₃ values,
      collectRuns 2 [(0, 9), (1, 8), (0, 1), (1, 2), (0, 5)] (fun _ => none) = .ok (runs, files₁) ∧
      sortPositionRuns runs files₁ = .ok files₂ ∧ mergeSortRuns runs 5 files₂ = .ok files₃ ∧
      files₃ .spentOutputs = some (valueBytes values) ∧ values.Pairwise (· ≤ ·) ∧
      values.Perm [9, 8, 1, 2, 5]) ∧
    encodeUnspentHintsfile .spentOutputs 2 [0, 4, 2] spentFile = .ok (4, ⟨2, [[0, 2, 3], [1]]⟩) ∧
    Encodable [0, 4, 2] 2 [packOutputPosition 1 1, packOutputPosition 2 0] := by
  have hencode : encodeUnspentHintsfile .spentOutputs 2 [0, 4, 2] spentFile =
      .ok (4, ⟨2, [[0, 2, 3], [1]]⟩) := by
    decide +kernel
  refine ⟨?_, hencode, ?_⟩
  · exact hintsfile_complement.1 (fun _ => none) 2 [(0, 9), (1, 8), (0, 1), (1, 2), (0, 5)] 5
      ⟨fun _ _ => rfl, rfl⟩ (by decide) rfl
  · exact (hintsfile_complement.2 spentFile .spentOutputs _ 2 [0, 4, 2] (write_self _ _ _)
      (by decide) (by decide)).1.mp ⟨_, hencode⟩

end Heights

end FlorestaDb.Hintsgen
