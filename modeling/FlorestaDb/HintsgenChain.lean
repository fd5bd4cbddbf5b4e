import FlorestaDb.HintsgenLedger
import FlorestaDb.HintsgenEncode

/-! What the workers read off a block: the outputs that can ever be spent, each with its position in
the block, and the outpoints that the block spends. Of the bitcoin library only what its
documentation says of scripts, coinbases and outpoints is used. -/
namespace FlorestaDb.Hintsgen

section Blocks

inductive ChainType where
  | mainnet
  | testnet
  | testnet4
  | signet
  | regtest
  deriving DecidableEq, Repr

abbrev Txid := Vector UInt8 32

structure OutPoint where
  txid : Txid
  vout : UInt32
  deriving DecidableEq, Repr

structure TxOut where
  scriptPubkey : List UInt8
  deriving DecidableEq, Repr

/-- `txid` is what `compute_txid` returns. -/
structure Transaction where
  txid : Txid
  input : List OutPoint
  output : List TxOut
  deriving DecidableEq, Repr

abbrev Block := List Transaction

/-- The script begins with `OP_RETURN`. -/
def TxOut.isOpReturn (output : TxOut) : Bool := output.scriptPubkey.head? == some 0x6a

def OutPoint.null : OutPoint := ⟨Vector.replicate 32 0, 0xffffffff⟩

/-- The only input of a coinbase is the null outpoint. -/
def Transaction.isCoinbase (transaction : Transaction) : Bool := transaction.input == [OutPoint.null]

end Blocks

section Reading

def maxScriptSize : Nat := 10000
def bip30UnspendableHeights : List Nat := [91722, 91812]

structure IndexedOutput where
  key : Key
  value : List UInt8
  deriving DecidableEq, Repr

def shouldIndexOutput (network : ChainType) (height transactionIndex : Nat) (output : TxOut) : Bool :=
  height ≠ 0 &&
    !(network == .mainnet && transactionIndex == 0 && bip30UnspendableHeights.contains height) &&
    output.scriptPubkey.length ≤ maxScriptSize && !output.isOpReturn

/-- Twelve bytes of the transaction id, then the index of the output. -/
def outpointKey (outpoint : OutPoint) : Key :=
  Vector.ofFn fun i =>
    (outpoint.txid.toList.take 12 ++ Hash.leBytes 4 outpoint.vout.toNat).getD i.val 0

/-- The outputs of one transaction from `vout` on. -/
def appendOutputs (network : ChainType) (height transactionIndex : Nat) (txid : Txid) :
    Nat → List TxOut → Nat → List IndexedOutput → AnyResult (Nat × List IndexedOutput)
  | _, [], eligibleIndex, indexed => .ok (eligibleIndex, indexed)
  | vout, output :: outputs, eligibleIndex, indexed =>
    if !shouldIndexOutput network height transactionIndex output then
      appendOutputs network height transactionIndex txid (vout + 1) outputs eligibleIndex indexed
    else if 2 ^ 32 ≤ vout then .error (.invalidInput "transaction output index exceeds u32")
    else
      let key := outpointKey ⟨txid, UInt32.ofNat vout⟩
      let value := Hash.leBytes 8 (packOutputPosition height eligibleIndex).toNat
      if 2 ^ 32 ≤ eligibleIndex + 1 then .error (.invalidInput "eligible output index overflow")
      else appendOutputs network height transactionIndex txid (vout + 1) outputs (eligibleIndex + 1)
        (indexed ++ [⟨key, value⟩])

def appendEligibleOutputs (height : Nat) (network : ChainType) (transactionIndex : Nat) (txid : Txid)
    (outputs : List TxOut) (eligibleIndex : Nat) (indexed : List IndexedOutput) :
    AnyResult (Nat × List IndexedOutput) :=
  if 2 ^ 32 ≤ height then .error (.invalidInput "block height exceeds u32")
  else appendOutputs network height transactionIndex txid 0 outputs eligibleIndex indexed

def indexTransactions (height : Nat) (network : ChainType) :
    Nat → List Transaction → Nat → List IndexedOutput → AnyResult (List IndexedOutput)
  | _, [], _, indexed => .ok indexed
  | transactionIndex, transaction :: transactions, eligibleIndex, indexed => do
    let (eligibleIndex, indexed) ← appendEligibleOutputs height network transactionIndex transaction.txid
      transaction.output eligibleIndex indexed
    indexTransactions height network (transactionIndex + 1) transactions eligibleIndex indexed

/-- A sum of lengths that must fit `usize`. -/
def totalLength (message : String) : List Nat → Nat → AnyResult Nat
  | [], total => .ok total
  | length :: lengths, total => do
    totalLength message lengths (← orFail (checkedAdd total length) (.invalidInput message))

def indexedOutputs (block : Block) (height : Nat) (network : ChainType) : AnyResult (List IndexedOutput) := do
  let _ ← totalLength "block output count overflow" (block.map fun transaction => transaction.output.length) 0
  indexTransactions height network 0 block 0 []

def appendSpentOutpointKeys (block : Block) (keys : List Key) : AnyResult (List Key) := do
  let spending := block.filter fun transaction => !transaction.isCoinbase
  let _ ← totalLength "block input count overflow" (spending.map fun transaction => transaction.input.length) 0
  return keys ++ spending.flatMap fun transaction => transaction.input.map outpointKey

end Reading

section Eligible
variable {network : ChainType} {height transactionIndex : Nat}

/-- The outputs from `vout` on that are indexed. -/
def eligibleFrom (network : ChainType) (height transactionIndex : Nat) (txid : Txid) (vout : Nat)
    (outputs : List TxOut) : List OutPoint :=
  ((outputs.zipIdx vout).filter fun o => shouldIndexOutput network height transactionIndex o.1).map
    fun o => ⟨txid, UInt32.ofNat o.2⟩

def eligibleIn (network : ChainType) (height first : Nat) (transactions : List Transaction) : List OutPoint :=
  (transactions.zipIdx first).flatMap fun x => eligibleFrom network height x.2 x.1.txid 0 x.1.output

/-- The entries for outputs that are numbered from `first` on. -/
def entriesFrom (height first : Nat) (outpoints : List OutPoint) : List IndexedOutput :=
  (outpoints.zipIdx first).map fun o => ⟨outpointKey o.1, Hash.leBytes 8 (packOutputPosition height o.2).toNat⟩

theorem entriesFrom_append (height first : Nat) (outpoints others : List OutPoint) :
    entriesFrom height first (outpoints ++ others) =
      entriesFrom height first outpoints ++ entriesFrom height (first + outpoints.length) others := by
  rw [entriesFrom, List.zipIdx_append, List.map_append]
  rfl

theorem eligibleFrom_length_le (network : ChainType) (height transactionIndex : Nat) (txid : Txid)
    (vout : Nat) (outputs : List TxOut) :
    (eligibleFrom network height transactionIndex txid vout outputs).length ≤ outputs.length := by
  rw [eligibleFrom, List.length_map]
  exact (List.length_filter_le _ _).trans_eq List.length_zipIdx

theorem appendOutputs_ok {txid : Txid} {vout eligibleIndex : Nat} {outputs : List TxOut}
    {indexed : List IndexedOutput} (hvout : vout + outputs.length ≤ 2 ^ 32)
    (hindex : eligibleIndex + outputs.length < 2 ^ 32) :
    appendOutputs network height transactionIndex txid vout outputs eligibleIndex indexed =
      .ok (eligibleIndex + (eligibleFrom network height transactionIndex txid vout outputs).length,
        indexed ++ entriesFrom height eligibleIndex
          (eligibleFrom network height transactionIndex txid vout outputs)) := by
  induction outputs generalizing vout eligibleIndex indexed with
  | nil => simp [appendOutputs, eligibleFrom, entriesFrom]
  | cons output outputs ih =>
    rw [List.length_cons] at hvout hindex
    rw [appendOutputs]
    by_cases hindexed : shouldIndexOutput network height transactionIndex output = true
    · have hsplit : eligibleFrom network height transactionIndex txid vout (output :: outputs) =
          ⟨txid, UInt32.ofNat vout⟩ ::
            eligibleFrom network height transactionIndex txid (vout + 1) outputs := by
        simp [eligibleFrom, List.zipIdx_cons, hindexed]
      simp only [hindexed, Bool.not_true, Bool.false_eq_true, if_false]
      rw [if_neg (by omega), if_neg (by omega), ih (by omega) (by omega), hsplit]
      simp only [List.length_cons, entriesFrom, List.zipIdx_cons, List.map_cons, List.append_assoc,
        List.singleton_append, Except.ok.injEq, Prod.mk.injEq, and_true]
      omega
    · have hskip : eligibleFrom network height transactionIndex txid vout (output :: outputs) =
          eligibleFrom network height transactionIndex txid (vout + 1) outputs := by
        simp [eligibleFrom, List.zipIdx_cons, hindexed]
      simp only [hindexed, Bool.not_false, if_true]
      rw [ih (by omega) (by omega), hskip]

theorem indexTransactions_ok {first eligibleIndex : Nat} {transactions : List Transaction}
    {indexed : List IndexedOutput} (hheight : height < 2 ^ 32)
    (hindex : eligibleIndex + (transactions.map fun x => x.output.length).sum < 2 ^ 32) :
    indexTransactions height network first transactions eligibleIndex indexed =
      .ok (indexed ++ entriesFrom height eligibleIndex (eligibleIn network height first transactions)) := by
  induction transactions generalizing first eligibleIndex indexed with
  | nil => simp [indexTransactions, eligibleIn, entriesFrom]
  | cons transaction transactions ih =>
    rw [List.map_cons, List.sum_cons] at hindex
    have hle := eligibleFrom_length_le network height first transaction.txid 0 transaction.output
    have hsplit : eligibleIn network height first (transaction :: transactions) =
        eligibleFrom network height first transaction.txid 0 transaction.output ++
          eligibleIn network height (first + 1) transactions := by
      simp [eligibleIn, List.zipIdx_cons]
    rw [indexTransactions, appendEligibleOutputs, if_neg (by omega),
      appendOutputs_ok (by omega) (by omega), result_bind]
    simp only
    rw [ih (by omega), hsplit, entriesFrom_append, List.append_assoc]

theorem totalLength_ok {message : String} {lengths : List Nat} {total : Nat}
    (h : total + lengths.sum < u64Bound) : totalLength message lengths total = .ok (total + lengths.sum) := by
  induction lengths generalizing total with
  | nil => simp [totalLength]
  | cons length lengths ih =>
    rw [List.sum_cons] at h ⊢
    rw [totalLength, checkedAdd_of_lt (by omega), orFail_some, result_bind, ih (by omega), Nat.add_assoc]

/-- The entries of a block list its eligible outputs, numbered in order. -/
theorem indexedOutputs_ok {block : Block} (hheight : height < 2 ^ 32)
    (hsize : (block.map fun x => x.output.length).sum < 2 ^ 32) :
    indexedOutputs block height network = .ok (entriesFrom height 0 (eligibleIn network height 0 block)) := by
  have hbound : u64Bound = 2 ^ 64 := rfl
  rw [indexedOutputs, totalLength_ok (by omega), result_bind, indexTransactions_ok hheight (by omega),
    List.nil_append]

end Eligible

section Chains

/-- The active chain, as the blocks that are read at each height. -/
structure Chain where
  network : ChainType
  blocks : Nat → Block

def Chain.eligible (chain : Chain) (height : Nat) : List OutPoint :=
  eligibleIn chain.network height 0 (chain.blocks height)

def Chain.spent (chain : Chain) (height : Nat) : List OutPoint :=
  ((chain.blocks height).filter fun transaction => !transaction.isCoinbase).flatMap Transaction.input

/-- The work that the heights below `endHeight` are for the workers. -/
def Chain.job (chain : Chain) (adders removers size endHeight : Nat) : Job where
  adders := adders
  removers := removers
  size := size
  endHeight := endHeight
  outputs := fun height =>
    match indexedOutputs (chain.blocks height) height chain.network with
    | .ok outputs => outputs.map fun output => (output.key, output.value)
    | .error _ => []
  spends := fun height =>
    match appendSpentOutpointKeys (chain.blocks height) [] with
    | .ok keys => keys
    | .error _ => []

/-- What the consensus rules promise of the blocks below `endHeight`. -/
structure Chain.Valid (chain : Chain) (endHeight : Nat) : Prop where
  heights : endHeight ≤ 2 ^ 32
  outputs : ∀ h < endHeight, ((chain.blocks h).map fun x => x.output.length).sum < 2 ^ 32 - 1
  inputs : ∀ h < endHeight, ((chain.blocks h).map fun x => x.input.length).sum < u64Bound
  created : ∀ h < endHeight, ∀ o ∈ chain.spent h, ∃ h' ≤ h, o ∈ chain.eligible h'
  once : ((List.range endHeight).flatMap chain.spent).Nodup

/- No two eligible outputs share the sixteen bytes of the outpoint that a key keeps. That is no rule
   of the chain: `outpoint_key` cuts the transaction id. -/
def Chain.DistinctKeys (chain : Chain) (endHeight : Nat) : Prop :=
  ((List.range endHeight).flatMap fun h => (chain.eligible h).map outpointKey).Nodup

structure Chain.Keyed (chain : Chain) (endHeight : Nat) : Prop extends chain.Valid endHeight where
  distinct : chain.DistinctKeys endHeight

variable {chain : Chain} {adders removers size endHeight h h' : Nat}

theorem Chain.job_outputs (hv : chain.Valid endHeight) (hh : h < endHeight) :
    (chain.job adders removers size endHeight).outputs h =
      (chain.eligible h).zipIdx.map fun o =>
        (outpointKey o.1, Hash.leBytes 8 (packOutputPosition h o.2).toNat) := by
  have hheights := hv.heights
  have hsize := hv.outputs h hh
  have hread : indexedOutputs (chain.blocks h) h chain.network = .ok (entriesFrom h 0 (chain.eligible h)) :=
    indexedOutputs_ok (by omega) (by omega)
  simp only [job, hread, entriesFrom, List.map_map]
  rfl

theorem Chain.job_keys (hv : chain.Valid endHeight) (hh : h < endHeight) :
    ((chain.job adders removers size endHeight).outputs h).map Prod.fst =
      (chain.eligible h).map outpointKey := by
  rw [job_outputs hv hh, List.map_map]
  calc (chain.eligible h).zipIdx.map (Prod.fst ∘ fun o =>
        (outpointKey o.1, Hash.leBytes 8 (packOutputPosition h o.2).toNat))
      = ((chain.eligible h).zipIdx.map Prod.fst).map outpointKey := by rw [List.map_map]; rfl
    _ = (chain.eligible h).map outpointKey := by rw [List.zipIdx_map_fst]

theorem Chain.job_spends (hv : chain.Valid endHeight) (hh : h < endHeight) :
    (chain.job adders removers size endHeight).spends h = (chain.spent h).map outpointKey := by
  have hinputs := hv.inputs h hh
  have hle : (((chain.blocks h).filter fun x => !x.isCoinbase).map fun x => x.input.length).sum ≤
      ((chain.blocks h).map fun x => x.input.length).sum :=
    (List.filter_sublist.map _).sum_le_sum fun _ _ => Nat.zero_le _
  have hread : appendSpentOutpointKeys (chain.blocks h) [] = .ok ((chain.spent h).map outpointKey) := by
    rw [appendSpentOutpointKeys, totalLength_ok (by omega), result_bind, List.nil_append, spent,
      List.map_flatMap]
    rfl
  simp only [job, hread]

theorem Chain.eligible_length_le (chain : Chain) (h : Nat) :
    (chain.eligible h).length ≤ ((chain.blocks h).map fun x => x.output.length).sum := by
  have hall : ∀ (first : Nat) (transactions : List Transaction),
      (eligibleIn chain.network h first transactions).length ≤
        (transactions.map fun x => x.output.length).sum := by
    intro first transactions
    induction transactions generalizing first with
    | nil => simp [eligibleIn]
    | cons transaction transactions ih =>
      have hrest := ih (first + 1)
      have hone := eligibleFrom_length_le chain.network h first transaction.txid 0 transaction.output
      simp only [eligibleIn] at hrest
      simp only [eligibleIn, List.zipIdx_cons, List.flatMap_cons, List.length_append, List.map_cons,
        List.sum_cons]
      omega
  exact hall 0 _

/-- A key names one eligible output of the chain. -/
theorem Chain.Keyed.height_unique (hv : chain.Keyed endHeight) (hh : h < endHeight) (hh' : h' < endHeight)
    {key : Key} (hkey : key ∈ (chain.eligible h).map outpointKey)
    (hkey' : key ∈ (chain.eligible h').map outpointKey) : h = h' :=
  nodup_range_unique hv.distinct hh hh' hkey hkey'

theorem Chain.Keyed.keys_nodup (hv : chain.Keyed endHeight) (hh : h < endHeight) :
    ((chain.eligible h).map outpointKey).Nodup :=
  (List.nodup_flatMap.mp hv.distinct).1 h (List.mem_range.mpr hh)

theorem Chain.Keyed.outpoint_unique (hv : chain.Keyed endHeight) (hh : h < endHeight)
    (hh' : h' < endHeight) {o o' : OutPoint} (ho : o ∈ chain.eligible h) (ho' : o' ∈ chain.eligible h')
    (hkey : outpointKey o = outpointKey o') : o = o' := by
  have hmem : outpointKey o ∈ (chain.eligible h).map outpointKey := List.mem_map_of_mem ho
  have hmem' : outpointKey o' ∈ (chain.eligible h').map outpointKey := List.mem_map_of_mem ho'
  rw [← hkey] at hmem'
  have hsame := hv.height_unique hh hh' hmem hmem'
  subst hsame
  exact List.inj_on_of_nodup_map (hv.keys_nodup hh) ho ho' hkey

/-- What is spent was created, so its key is no other outpoint's. -/
theorem Chain.Keyed.spent_key (hv : chain.Keyed endHeight) (hh : h < endHeight) (hh' : h' < endHeight)
    {o o' : OutPoint} (ho : o ∈ chain.eligible h) (ho' : o' ∈ chain.spent h')
    (hkey : outpointKey o = outpointKey o') : o = o' := by
  obtain ⟨k, hk, hcreated⟩ := hv.created h' hh' o' ho'
  exact hv.outpoint_unique hh (Nat.lt_of_le_of_lt hk hh') ho hcreated hkey

theorem Chain.Keyed.spent_inj (hv : chain.Keyed endHeight) (hh : h < endHeight) (hh' : h' < endHeight)
    {o o' : OutPoint} (ho : o ∈ chain.spent h) (ho' : o' ∈ chain.spent h')
    (hkey : outpointKey o = outpointKey o') : o = o' := by
  obtain ⟨k, hk, hcreated⟩ := hv.created h hh o ho
  exact hv.spent_key (Nat.lt_of_le_of_lt hk hh) hh' hcreated ho' hkey

/-- Every outpoint is spent after it was created, and once. -/
theorem Chain.Keyed.wellFormed (hv : chain.Keyed endHeight) (hadders : 0 < adders) (hsize : 0 < size) :
    (chain.job adders removers size endHeight).WellFormed where
  adders_pos := hadders
  size_pos := hsize
  created := by
    intro h hh key hkey
    change h < endHeight at hh
    rw [Chain.job_spends hv.toValid hh] at hkey
    obtain ⟨o, ho, rfl⟩ := List.mem_map.mp hkey
    obtain ⟨h', hle, hcreated⟩ := hv.created h hh o ho
    refine ⟨h', hle, ?_⟩
    rw [Chain.job_keys hv.toValid (Nat.lt_of_le_of_lt hle hh)]
    exact List.mem_map_of_mem hcreated
  nodup := by
    intro h hh
    change h < endHeight at hh
    rw [Chain.job_spends hv.toValid hh]
    apply ((List.nodup_flatMap.mp hv.once).1 h (List.mem_range.mpr hh)).map_on
    exact fun o ho o' ho' hkey => hv.spent_inj hh hh ho ho' hkey
  once := by
    intro h hh h' hh' key hkey hkey'
    change h < endHeight at hh
    change h' < endHeight at hh'
    rw [Chain.job_spends hv.toValid hh] at hkey
    rw [Chain.job_spends hv.toValid hh'] at hkey'
    obtain ⟨o, ho, rfl⟩ := List.mem_map.mp hkey
    obtain ⟨o', ho', heq⟩ := List.mem_map.mp hkey'
    obtain rfl := hv.spent_inj hh hh' ho ho' heq.symm
    exact nodup_range_unique hv.once hh hh' ho ho'

end Chains

end FlorestaDb.Hintsgen
