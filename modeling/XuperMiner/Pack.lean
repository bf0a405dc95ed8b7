import XuperMiner.Thaw

/-!
# XuperMiner.Pack

The block packer `Miner.packBlock` (spec §4.4, §4.5) and the helpers it
calls: `getTimerTx`, `getUnconfirmedTx`, `getAwardTx`, `convertConsData`
and, through `XuperMiner.Thaw`, `GetThawTx`.

The collaborators packing consults are the fields of `PackEnv`.  Two of
them are methods of `Miner` that are not in this repository's source,
`AssignRewards` and `GenerateVoteAward`; they are arguments like the
others.  `Ledger.FormatMinerBlock` builds the block from the miner's
arguments and signs it: its outcome is the id and size of the signed block
(or an error), and the block carries the transactions, `pre_hash` and
height it was given.

`packBlock_ok` says once everything a successful packing did; the later
theorems about packing read it and never unfold `packBlock`.
-/

namespace XuperMiner

/-- What the collaborators answer during one `packBlock`. -/
structure PackEnv where
  /-- `t.ctx.Address.Address`, the miner's address. -/
  address : Address
  /-- `State.MaxTxSizePerBlock()`. -/
  maxTxSizePerBlock : Except Err Int
  /-- `State.GetTimerTx(height)`. -/
  timerTx : Int → Except Err Tx
  /-- `State.GetUnconfirmedTx(false)`, the mempool in its order. -/
  unconfirmedTxs : Except Err (List Tx)
  /-- `State.ReverseTx(address, batch, amount)`. -/
  reverseTx : Address → String → Except Err Tx
  /-- `GenesisBlock.CalcAward(height)`. -/
  calcAward : Int → Int
  /-- `Miner.AssignRewards(address, amount)`: the part kept for voters. -/
  assignRewards : Address → Int → Int
  /-- `tx.GenerateAwardTx(address, amount, desc)`. -/
  generateAwardTx : Address → String → String → Except Err Tx
  /-- `Miner.GenerateVoteAward(address, remainAward)`. -/
  generateVoteAward : Address → Int → List Tx × Except Err Unit
  /-- `Ledger.FormatMinerBlock(...)`: the signed block's id and size. -/
  formatMinerBlock : Except Err (BlockId × Nat)

/-- The consensus data `ProcessBeforeMiner` hands to packing: no bytes, or
bytes that `json.Unmarshal` reads as a `ConsensusStorage` (`some`) or
rejects (`none`). -/
inductive ExtData where
  | empty
  | json (parsed : Option ConsensusStorage)
  deriving DecidableEq, Repr

/-! ## Helpers -/

/-- `Miner.getTimerTx`: any error becomes `ErrGenerateTimerTxFailed`. -/
def getTimerTx (env : PackEnv) (height : Int) : Except Err Tx :=
  match env.timerTx height with
  | .error _ => .error .generateTimerTxFailed
  | .ok tx => .ok tx

/-- The loop of `getUnconfirmedTx`: take transactions while the next one
fits in what is left of the limit, and stop at the first that does not. -/
def takeTxs : Int → List Tx → List Tx
  | _, [] => []
  | sizeLimit, tx :: txs =>
    if (tx.size : Int) > sizeLimit then [] else tx :: takeTxs (sizeLimit - tx.size) txs

/-- `Miner.getUnconfirmedTx(sizeLimit)`. -/
def getUnconfirmedTx (env : PackEnv) (sizeLimit : Int) : Except Err (List Tx) :=
  match env.unconfirmedTxs with
  | .error e => .error e
  | .ok txs => .ok (takeTxs sizeLimit txs)

/-- `getUnconfirmedTx` returns the loop's prefix of the mempool it read. -/
theorem getUnconfirmedTx_eq_ok {env : PackEnv} {sizeLimit : Int} {P : List Tx} :
    getUnconfirmedTx env sizeLimit = .ok P ↔
      ∃ txs, env.unconfirmedTxs = .ok txs ∧ P = takeTxs sizeLimit txs := by
  rcases h : env.unconfirmedTxs with e | txs <;> simp [getUnconfirmedTx, h, eq_comm]

/-! ## The mempool part of a block -/

/-- The total `proto.Size` of a list of transactions. -/
def sizeSum : List Tx → Nat
  | [] => 0
  | tx :: txs => tx.size + sizeSum txs

@[simp] theorem sizeSum_nil : sizeSum [] = 0 := rfl

@[simp] theorem sizeSum_cons (tx : Tx) (txs : List Tx) :
    sizeSum (tx :: txs) = tx.size + sizeSum txs := rfl

/-- What the spec asks of the mempool transactions of a block (§4.5, item
3) for a size budget `limit`: the longest prefix of the mempool, in its
order, whose total size is within `limit`; it stops at the first
transaction that does not fit instead of skipping it, and is empty when
the budget is negative. -/
structure FitsLongest (limit : Int) (txs P : List Tx) : Prop where
  inOrder : P <+: txs
  empty_of_neg : limit < 0 → P = []
  within : 0 ≤ limit → (sizeSum P : Int) ≤ limit
  longest : ∀ Q, Q <+: txs → (sizeSum Q : Int) ≤ limit → Q <+: P
  stops : ∀ tx rest, txs = P ++ tx :: rest → limit < sizeSum P + tx.size

theorem takeTxs_cons (limit : Int) (tx : Tx) (txs : List Tx) :
    takeTxs limit (tx :: txs) =
      if (tx.size : Int) > limit then [] else tx :: takeTxs (limit - tx.size) txs := rfl

/-- The loop takes transactions in mempool order. -/
theorem takeTxs_prefix (limit : Int) (txs : List Tx) : takeTxs limit txs <+: txs := by
  induction txs generalizing limit with
  | nil => exact List.nil_prefix
  | cons tx txs ih =>
    rw [takeTxs_cons]
    split_ifs
    · exact List.nil_prefix
    · exact (List.prefix_cons_inj tx).2 (ih _)

/-- A negative budget takes nothing: every transaction has a size `≥ 0`. -/
theorem takeTxs_neg {limit : Int} (h : limit < 0) (txs : List Tx) : takeTxs limit txs = [] := by
  cases txs with
  | nil => rfl
  | cons tx txs => rw [takeTxs_cons, if_pos (by omega)]

/-- The budget left is the limit less what was taken, so what is taken fits. -/
theorem takeTxs_within {limit : Int} (h : 0 ≤ limit) (txs : List Tx) :
    (sizeSum (takeTxs limit txs) : Int) ≤ limit := by
  induction txs generalizing limit with
  | nil => simpa using h
  | cons tx txs ih =>
    rw [takeTxs_cons]
    split_ifs with hgt
    · simpa using h
    · have := @ih (limit - tx.size) (by omega)
      push_cast [sizeSum_cons]
      omega

/-- The loop stops at a transaction only when it does not fit. -/
theorem takeTxs_stops (limit : Int) {txs rest : List Tx} {tx : Tx}
    (h : txs = takeTxs limit txs ++ tx :: rest) :
    limit < sizeSum (takeTxs limit txs) + tx.size := by
  induction txs generalizing limit with
  | nil => simp at h
  | cons t ts ih =>
    rw [takeTxs_cons] at h ⊢
    split_ifs at h ⊢ with hgt
    · obtain ⟨rfl, -⟩ := List.cons.inj h
      simpa using hgt
    · have := ih (limit - t.size) (List.cons.inj h).2
      push_cast [sizeSum_cons]
      omega

/-- Every prefix within the budget is a prefix of what the loop takes. -/
theorem takeTxs_longest (limit : Int) {txs Q : List Tx} (hq : Q <+: txs)
    (hs : (sizeSum Q : Int) ≤ limit) : Q <+: takeTxs limit txs := by
  induction txs generalizing limit Q with
  | nil => rw [List.prefix_nil.1 hq]; exact List.nil_prefix
  | cons t ts ih =>
    cases Q with
    | nil => exact List.nil_prefix
    | cons q Q =>
      obtain ⟨rfl, hQ⟩ := List.cons_prefix_cons.1 hq
      push_cast [sizeSum_cons] at hs
      rw [takeTxs_cons, if_neg (by omega)]
      exact (List.prefix_cons_inj q).2 (ih _ hQ (by omega))

/-- The loop of `getUnconfirmedTx` meets the spec at every budget. -/
theorem takeTxs_fitsLongest (limit : Int) (txs : List Tx) :
    FitsLongest limit txs (takeTxs limit txs) where
  inOrder := takeTxs_prefix limit txs
  empty_of_neg h := takeTxs_neg h txs
  within h := takeTxs_within h txs
  longest _ hq hs := takeTxs_longest limit hq hs
  stops _ _ h := takeTxs_stops limit h

/-- **`getUnconfirmedTx` takes the longest fitting prefix.**  For every
mempool and every `sizeLimit`, the result is a prefix of the mempool; for
`sizeLimit ≥ 0` it is the longest one within the limit, stopping at the
first transaction that does not fit; for `sizeLimit < 0` it is empty. -/
theorem getUnconfirmedTx_fitsLongest (env : PackEnv) (sizeLimit : Int) (txs : List Tx)
    (h : env.unconfirmedTxs = .ok txs) :
    ∃ P, getUnconfirmedTx env sizeLimit = .ok P ∧ FitsLongest sizeLimit txs P :=
  ⟨_, by rw [getUnconfirmedTx, h], takeTxs_fitsLongest sizeLimit txs⟩

/-- Collaborators for one packing with mempool `txs` and size limit
`limit`: a timer transaction without extension outputs, an award of size
`10`, nothing kept for voters. -/
def mempoolEnv (txs : List Tx) (limit : Int) : PackEnv where
  address := "miner"
  maxTxSizePerBlock := .ok limit
  timerTx := fun _ => .ok ⟨[], 0, 0⟩
  unconfirmedTxs := .ok txs
  reverseTx := fun _ _ => .error (.external 0)
  calcAward := fun _ => 0
  assignRewards := fun _ _ => 0
  generateAwardTx := fun _ _ _ => .ok ⟨[1], 0, 10⟩
  generateVoteAward := fun _ _ => ([], .ok ())
  formatMinerBlock := .ok ([7], 0)

/-- A mempool of transactions of sizes `3`, `5` and `1`. -/
def mempool₀ : List Tx := [⟨[2], 0, 3⟩, ⟨[3], 0, 5⟩, ⟨[4], 0, 1⟩]

/-- Under the limit `4` the loop takes the first transaction only: the
third would still fit, but the loop does not skip the second. -/
theorem getUnconfirmedTx_fitsLongest_mempool₀ :
    (mempoolEnv mempool₀ 0).unconfirmedTxs = .ok mempool₀ ∧
      getUnconfirmedTx (mempoolEnv mempool₀ 0) 4 = .ok [⟨[2], 0, 3⟩] ∧
      ∃ P, getUnconfirmedTx (mempoolEnv mempool₀ 0) 4 = .ok P ∧ FitsLongest 4 mempool₀ P :=
  ⟨rfl, rfl, getUnconfirmedTx_fitsLongest (mempoolEnv mempool₀ 0) 4 mempool₀ rfl⟩

/-- `Miner.getAwardTx(height, flag)`: the award transaction and the part of
the award kept for voters, `remainAward`. -/
def getAwardTx (env : PackEnv) (height : Int) (flag : Bool) : Except Err (Tx × Int) :=
  let amount := env.calcAward height
  if amount < 0 then .error (.msg "amount in transaction can not be negative number")
  else
    let remainAward := if flag = false then env.assignRewards env.address amount else 0
    match env.generateAwardTx env.address (toString (amount - remainAward)) "award" with
    | .error e => .error e
    | .ok awardTx => .ok (awardTx, remainAward)

/-- `Miner.convertConsData`. -/
def convertConsData : ExtData → Option ConsensusStorage
  | .empty => some default
  | .json parsed => parsed

/-- Whether the timer transaction goes into the block. -/
def hasTimerOutputs (autoTx : Tx) : Bool := autoTx.txOutputsExt > 0

/-- The transaction list `packBlock` hands to `FormatMinerBlock`: award,
timer (when it has extension outputs), mempool, thaw, and the vote awards
when `remainAward.Int64() > 0` and the cycle flag is off. -/
def assembleTxs (env : PackEnv) (flag : Bool) (awardTx autoTx : Tx)
    (generalTxList thawTx : List Tx) (remainAward : Int) : List Tx :=
  let txList := [awardTx] ++ (if hasTimerOutputs autoTx then [autoTx] else []) ++
    generalTxList ++ thawTx
  if toInt64 remainAward > 0 ∧ flag = false then
    txList ++ (env.generateVoteAward env.address remainAward).1
  else txList

/-! ## `packBlock` -/

/-- `Miner.packBlock(height, now, consData, flag)`.  `sizeLimit -=
proto.Size(autoTx)` is `int` arithmetic and wraps.  A `GetThawTx` error is
only logged: the block is packed without thaw transactions.  A
`GenerateVoteAward` error is only logged: its transactions are appended
all the same.  The block's `pre_hash` is the state machine's tip. -/
def packBlock (env : PackEnv) (height now : Int) (consData : ExtData) (flag : Bool)
    (w : World) : Except Err Block := do
  let sizeLimit ← env.maxTxSizePerBlock
  let autoTx ← getTimerTx env height
  let sizeLimit := if hasTimerOutputs autoTx then toInt64 (sizeLimit - autoTx.size) else sizeLimit
  let generalTxList ← getUnconfirmedTx env sizeLimit
  let thawTx := (getThawTx env.reverseTx height w).toOption.getD []
  let (awardTx, remainAward) ← getAwardTx env height flag
  let txList := assembleTxs env flag awardTx autoTx generalTxList thawTx remainAward
  let some consInfo := convertConsData consData
    | throw (.msg "convert consensus data failed")
  let (blockid, size) ← env.formatMinerBlock
  return { blockid, preHash := w.latest, height, transactions := txList,
           proposer := env.address, timestamp := now, consensus := consInfo, size }

/-- **What a successful packing did.**  Every call before `FormatMinerBlock`
succeeded, and the block holds the assembled list, `pre_hash` the state
tip and the given height. -/
theorem packBlock_ok {env : PackEnv} {height now : Int} {consData : ExtData} {flag : Bool}
    {w : World} {b : Block} (h : packBlock env height now consData flag w = .ok b) :
    ∃ sizeLimit autoTx generalTxList awardTx remainAward,
      env.maxTxSizePerBlock = .ok sizeLimit ∧ getTimerTx env height = .ok autoTx ∧
      getUnconfirmedTx env
          (if hasTimerOutputs autoTx then toInt64 (sizeLimit - autoTx.size) else sizeLimit) =
        .ok generalTxList ∧
      getAwardTx env height flag = .ok (awardTx, remainAward) ∧
      b.transactions = assembleTxs env flag awardTx autoTx generalTxList
        ((getThawTx env.reverseTx height w).toOption.getD []) remainAward ∧
      b.preHash = w.latest ∧ b.height = height := by
  simp only [packBlock, Except.bind_eq_ok] at h
  obtain ⟨sizeLimit, h1, autoTx, h2, general, h3, ⟨awardTx, remainAward⟩, h4, h5⟩ := h
  refine ⟨sizeLimit, autoTx, general, awardTx, remainAward, h1, h2, h3, h4, ?_⟩
  split at h5
  · simp only [Except.bind_eq_ok] at h5
    obtain ⟨⟨id, size⟩, -, h6⟩ := h5
    cases h6
    exact ⟨rfl, rfl, rfl⟩
  · cases h5

/-! ## The award split -/

/-- A successful `getAwardTx`: the award is not negative, the voters' part is
what `AssignRewards` kept (nothing under the cycle flag), and the award
transaction is for the rest. -/
theorem getAwardTx_ok {env : PackEnv} {height : Int} {flag : Bool} {awardTx : Tx} {r : Int}
    (h : getAwardTx env height flag = .ok (awardTx, r)) :
    0 ≤ env.calcAward height ∧
      r = (if flag = false then env.assignRewards env.address (env.calcAward height) else 0) ∧
      env.generateAwardTx env.address (toString (env.calcAward height - r)) "award" = .ok awardTx := by
  unfold getAwardTx at h
  dsimp only at h
  by_cases hneg : env.calcAward height < 0
  · rw [if_pos hneg] at h; cases h
  rw [if_neg hneg] at h
  split at h
  · cases h
  · rename_i tx hg
    cases h
    exact ⟨by omega, rfl, hg⟩

/-- The assembled list starts with the award transaction. -/
theorem assembleTxs_head (env : PackEnv) (flag : Bool) (awardTx autoTx : Tx)
    (generalTxList thawTx : List Tx) (r : Int) :
    (assembleTxs env flag awardTx autoTx generalTxList thawTx r).head? = some awardTx := by
  unfold assembleTxs; split_ifs <;> rfl

/-- **The award split.**  A packed block's first transaction is the award
for `a - r`, where `a ≥ 0` is the height's award and `r` the part
`AssignRewards` kept for voters (`0` under the cycle flag).  Outside the
cycle flag and for `0 < r < 2 ^ 63`, the block ends with the transactions
`GenerateVoteAward(miner, r)` returned, whether or not it reported an
error. -/
theorem packBlock_award_split {env : PackEnv} {height now : Int} {consData : ExtData}
    {flag : Bool} {w : World} {b : Block} (h : packBlock env height now consData flag w = .ok b) :
    let a := env.calcAward height
    let r := if flag = false then env.assignRewards env.address a else 0
    0 ≤ a ∧ ∃ awardTx, env.generateAwardTx env.address (toString (a - r)) "award" = .ok awardTx ∧
      b.transactions.head? = some awardTx ∧
      (flag = false → 0 < r → r < 2 ^ 63 →
        List.IsSuffix (env.generateVoteAward env.address r).1 b.transactions) := by
  obtain ⟨_, autoTx, general, awardTx, r, -, -, -, haward, htxs, -, -⟩ := packBlock_ok h
  obtain ⟨ha, rfl, hg⟩ := getAwardTx_ok haward
  refine ⟨ha, awardTx, hg, by rw [htxs, assembleTxs_head], fun hf hpos hlt => ?_⟩
  subst hf
  simp only [↓reduceIte] at hpos hlt ⊢
  have hwrap : toInt64 (env.assignRewards env.address (env.calcAward height)) > 0 := by
    rw [toInt64_of_lt (Int.le_of_lt hpos) hlt]; exact hpos
  rw [htxs, assembleTxs, if_pos ⟨hwrap, rfl⟩]
  exact List.suffix_append _ _

/-- The award transaction every test block below carries. -/
def awardTx₀ : Tx := ⟨[1], 0, 10⟩

/-- A vote-award transaction. -/
def voteTx₀ : Tx := ⟨[2], 0, 10⟩

/-- Collaborators for one packing at a height whose award `a` is all kept
for voters (`r = a`), with `GenerateVoteAward` answering `votes`. -/
def allToVotersEnv (a : Int) (votes : List Tx × Except Err Unit) : PackEnv where
  address := "miner"
  maxTxSizePerBlock := .ok 1000
  timerTx := fun _ => .ok ⟨[], 0, 0⟩
  unconfirmedTxs := .ok []
  reverseTx := fun _ _ => .error (.external 0)
  calcAward := fun _ => a
  assignRewards := fun _ a => a
  generateAwardTx := fun _ _ _ => .ok awardTx₀
  generateVoteAward := fun _ _ => votes
  formatMinerBlock := .ok ([7], 0)

/-- A height whose award of `1` all goes to the voters: the block holds
the award transaction, then the vote award. -/
theorem packBlock_award_split_allToVoters :
    let env := allToVotersEnv 1 ([voteTx₀], .ok ())
    let b : Block := { genesisBlock with
      blockid := [7], preHash := [0], height := 1, transactions := [awardTx₀, voteTx₀],
      proposer := "miner" }
    packBlock env 1 0 .empty false genesisWorld = .ok b ∧
      let a := env.calcAward 1
      let r := if false = false then env.assignRewards env.address a else 0
      0 ≤ a ∧ ∃ awardTx, env.generateAwardTx env.address (toString (a - r)) "award" = .ok awardTx ∧
        b.transactions.head? = some awardTx ∧
        (false = false → 0 < r → r < 2 ^ 63 →
          List.IsSuffix (env.generateVoteAward env.address r).1 b.transactions) :=
  ⟨rfl, @packBlock_award_split (allToVotersEnv 1 ([voteTx₀], .ok ())) 1 0 .empty false genesisWorld
    _ rfl⟩

/-- The voters' part of the award is not always paid out.  With
`r = 2 ^ 63`, `remainAward.Int64()` wraps to a negative number, and the
block carries no vote award though `GenerateVoteAward` would have
succeeded.  With `r = 1` and `GenerateVoteAward` failing, packing still
succeeds, and the voters' part is in no transaction. -/
theorem packBlock_vote_award_dropped :
    (packBlock (allToVotersEnv (2 ^ 63) ([voteTx₀], .ok ())) 1 0 .empty false genesisWorld).map
        (·.transactions) = .ok [awardTx₀] ∧
      (packBlock (allToVotersEnv 1 ([], .error (.external 0))) 1 0 .empty false genesisWorld).map
        (·.transactions) = .ok [awardTx₀] :=
  ⟨rfl, rfl⟩

/-! ## The transaction list and the size limit -/

/-- **The packed transaction list.**  A packed block holds the award
transaction, the timer transaction when it has extension outputs, the
longest prefix `P` of the mempool within the budget `L - size(timer)`
(computed as `int`), the thaw transactions and the vote awards.  The
award transaction is made after the mempool is chosen, so the budget
leaves it out: when that budget is not negative, timer and mempool
together stay within `L`. -/
theorem packBlock_txList {env : PackEnv} {height now : Int} {consData : ExtData} {flag : Bool}
    {w : World} {b : Block} (h : packBlock env height now consData flag w = .ok b) :
    ∃ L autoTx mempool awardTx remainAward P,
      env.maxTxSizePerBlock = .ok L ∧ getTimerTx env height = .ok autoTx ∧
      env.unconfirmedTxs = .ok mempool ∧ getAwardTx env height flag = .ok (awardTx, remainAward) ∧
      b.transactions = [awardTx] ++ (if hasTimerOutputs autoTx then [autoTx] else []) ++ P ++
        (getThawTx env.reverseTx height w).toOption.getD [] ++
        (if toInt64 remainAward > 0 ∧ flag = false then
          (env.generateVoteAward env.address remainAward).1 else []) ∧
      FitsLongest (if hasTimerOutputs autoTx then toInt64 (L - autoTx.size) else L) mempool P ∧
      (0 ≤ L - sizeSum (if hasTimerOutputs autoTx then [autoTx] else []) → L < 2 ^ 63 →
        (sizeSum (if hasTimerOutputs autoTx then [autoTx] else []) : Int) + sizeSum P ≤ L) := by
  obtain ⟨L, autoTx, general, awardTx, r, h1, h2, h3, h4, htxs, -, -⟩ := packBlock_ok h
  obtain ⟨mempool, hm, rfl⟩ := getUnconfirmedTx_eq_ok.1 h3
  refine ⟨L, autoTx, mempool, awardTx, r, _, h1, h2, hm, h4, ?_, takeTxs_fitsLongest _ _, ?_⟩
  · rw [htxs, assembleTxs]
    split_ifs <;> simp
  · intro h0 hL
    cases ht : hasTimerOutputs autoTx
    · simp only [ht, Bool.false_eq_true, if_false, sizeSum_nil] at h0 ⊢
      have := @takeTxs_within L (by omega) mempool
      omega
    · simp only [ht, if_true, sizeSum_cons, sizeSum_nil, add_zero] at h0 ⊢
      rw [toInt64_of_lt h0 (by omega)]
      have := takeTxs_within h0 mempool
      omega

/-- A mempool transaction that fills the whole limit. -/
def bigTx : Tx := ⟨[5], 0, 100⟩

/-- The mempool `[3, 5, 1]` under the limit `4`: the block holds the award
transaction and the first mempool transaction. -/
theorem packBlock_txList_mempool₀ :
    let env := mempoolEnv mempool₀ 4
    let b : Block := { genesisBlock with
      blockid := [7], preHash := [0], height := 1, transactions := [⟨[1], 0, 10⟩, ⟨[2], 0, 3⟩],
      proposer := "miner" }
    packBlock env 1 0 .empty true genesisWorld = .ok b ∧
      ∃ L autoTx mempool awardTx remainAward P,
        env.maxTxSizePerBlock = .ok L ∧ getTimerTx env 1 = .ok autoTx ∧
        env.unconfirmedTxs = .ok mempool ∧ getAwardTx env 1 true = .ok (awardTx, remainAward) ∧
        b.transactions = [awardTx] ++ (if hasTimerOutputs autoTx then [autoTx] else []) ++ P ++
          (getThawTx env.reverseTx 1 genesisWorld).toOption.getD [] ++
          (if toInt64 remainAward > 0 ∧ true = false then
            (env.generateVoteAward env.address remainAward).1 else []) ∧
        FitsLongest (if hasTimerOutputs autoTx then toInt64 (L - autoTx.size) else L) mempool P ∧
        (0 ≤ L - sizeSum (if hasTimerOutputs autoTx then [autoTx] else []) → L < 2 ^ 63 →
          (sizeSum (if hasTimerOutputs autoTx then [autoTx] else []) : Int) + sizeSum P ≤ L) :=
  ⟨rfl, @packBlock_txList (mempoolEnv mempool₀ 4) 1 0 .empty true genesisWorld _ rfl⟩

/-- Award and mempool transactions together can exceed
`MaxTxSizePerBlock`: under the limit `100`, with no timer outputs and an
award of size `10`, a mempool transaction of size `100` is taken, and award
and mempool together come to `110`. -/
theorem packBlock_award_over_limit :
    (mempoolEnv [bigTx] 100).maxTxSizePerBlock = .ok 100 ∧
      (packBlock (mempoolEnv [bigTx] 100) 1 0 .empty true genesisWorld).map (·.transactions) =
        .ok [⟨[1], 0, 10⟩, bigTx] ∧
      100 < 10 + bigTx.size :=
  ⟨rfl, rfl, by decide⟩

end XuperMiner
