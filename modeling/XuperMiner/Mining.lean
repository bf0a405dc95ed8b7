import XuperMiner.Pack

/-!
# XuperMiner.Mining

Block production under the miner mutex: `Miner.mining` (spec §4.5, §4.6)
with `truncateForMiner` and `confirmBlockForMiner`.

`mining` runs with `minerMutex` held, so nothing else touches the ledger or
the state machine while it runs: it is one function of the world.  Its
collaborator answers are the fields of `MiningEnv`.  Its result records the
block `packBlock` produced, when mining got that far.
-/

namespace XuperMiner

/-- What the collaborators answer during one `mining` call. -/
structure MiningEnv where
  /-- `State.Walk(ledgerTip)`, when the state tip lags the ledger tip. -/
  walk : Except Err Unit
  /-- `time.Now().UnixNano()`. -/
  now : Int
  /-- `Consensus.ProcessBeforeMiner(now)`: truncation target and data. -/
  processBeforeMiner : Except Err (Option BlockId × ExtData)
  /-- `Ledger.QueryBlockHeader(target)`: the target's height. -/
  queryBlockHeader : Except Err Int
  /-- `State.Walk(target)` in `truncateForMiner`. -/
  truncateWalk : Except Err Unit
  /-- `Ledger.Truncate(target)`. -/
  truncate : Except Err Unit
  /-- The answers during `packBlock`. -/
  pack : PackEnv
  /-- `Consensus.CalculateBlock(block)`: the block's id afterwards. -/
  calculateBlock : Except Err BlockId
  /-- `Ledger.ConfirmBlock(block, false)`. -/
  confirmBlock : ConfirmStatus
  /-- `State.PlayForMiner(blockid)`. -/
  playForMiner : Except Err Unit
  /-- `Consensus.ProcessConfirmBlock(block)`. -/
  processConfirmBlock : Except Err Unit

/-- The outcome of one `mining` call: the world after it, the block it
packed (if it got that far), and its error. -/
structure Mined where
  world : World
  packed : Option Block
  result : Except Err Unit

/-- `Miner.truncateForMiner(target)`: check the target exists, walk the
state machine back to it, then truncate the ledger to it. -/
def truncateForMiner (env : MiningEnv) (target : BlockId) (w : World) :
    World × Except Err Unit :=
  match env.queryBlockHeader with
  | .error e => (w, .error e)
  | .ok h =>
    match env.truncateWalk with
    | .error e => (w, .error e)
    | .ok () =>
      match env.truncate with
      | .error e => (w.moveState target, .error e)
      | .ok () => ((w.moveState target).truncate target h, .ok ())

/-- `Miner.confirmBlockForMiner(block)`: let consensus finish the block,
confirm it in the ledger, play it on the state machine, and report it to
consensus.  A block the ledger attaches to a branch is not played. -/
def confirmBlockForMiner (env : MiningEnv) (block : Block) (w : World) :
    World × Except Err Unit :=
  match env.calculateBlock with
  | .error _ => (w, .error (.msg "consensus calculate block failed"))
  | .ok id =>
    let block := { block with blockid := id }
    if env.confirmBlock.succ then
      let w := w.confirmBlock block env.confirmBlock.orphan
      if env.confirmBlock.orphan then (w, .ok ())
      else
        match env.playForMiner with
        | .error e => (w, .error e)
        | .ok () => ((w.moveState id), env.processConfirmBlock)
    else (w, .error (.msg "ledger confirm block error"))

/-- The first step of `mining`: walk the state machine to the ledger tip
when they differ. -/
def miningWalk (env : MiningEnv) (w : World) : Except Err World :=
  if w.tipBlockid = w.latest then .ok w
  else
    match env.walk with
    | .ok () => .ok (w.moveState w.tipBlockid)
    | .error _ => .error (.msg "mining walk failed")

/-- The consensus pre-hook of `mining`: truncate when asked to, and fix the
height of the block to pack. -/
def miningTarget (env : MiningEnv) (target : Option BlockId) (w : World) :
    World × Except Err Int :=
  match target with
  | none => (w, .ok (w.trunkHeight + 1))
  | some t =>
    match truncateForMiner env t w with
    | (w', .error e) => (w', .error e)
    | (w', .ok ()) => (w', .ok (w'.trunkHeight + 1))

/-- `Miner.mining(flag)`. -/
def mining (env : MiningEnv) (flag : Bool) (w : World) : Mined :=
  match miningWalk env w with
  | .error e => ⟨w, none, .error e⟩
  | .ok w =>
    match env.processBeforeMiner with
    | .error _ => ⟨w, none, .error (.msg "consensus process before miner failed")⟩
    | .ok (target, extData) =>
      match miningTarget env target w with
      | (w, .error e) => ⟨w, none, .error e⟩
      | (w, .ok height) =>
        match packBlock env.pack height env.now extData flag w with
        | .error e => ⟨w, none, .error e⟩
        | .ok block =>
          let (w, r) := confirmBlockForMiner env block w
          ⟨w, some block, r⟩

/-! ## One lemma per step -/

/-- Walking to the tip the state machine already has changes nothing. -/
theorem World.moveState_eq_self {w : World} (h : w.latest = w.tipBlockid) :
    w.moveState w.tipBlockid = w := by
  cases w; simp only [World.moveState] at h ⊢; rw [h]

/-- A successful walk leaves the world with its state tip moved to the
ledger tip. -/
theorem miningWalk_ok {env : MiningEnv} {w w' : World} (h : miningWalk env w = .ok w') :
    w' = w.moveState w.tipBlockid := by
  unfold miningWalk at h
  split at h
  · cases h; exact (World.moveState_eq_self (Eq.symm ‹_›)).symm
  · split at h <;> cases h; rfl

/-- A successful truncation walks the state machine to the target and
makes the target, at its own height, the ledger tip. -/
theorem truncateForMiner_ok {env : MiningEnv} {t : BlockId} {w w' : World}
    (h : truncateForMiner env t w = (w', .ok ())) :
    ∃ th, env.queryBlockHeader = .ok th ∧ w' = (w.moveState t).truncate t th := by
  unfold truncateForMiner at h
  rcases hq : env.queryBlockHeader with e | th
  · simp only [hq] at h; cases h
  rcases hw : env.truncateWalk with e | ⟨⟩
  · simp only [hq, hw] at h; cases h
  rcases ht : env.truncate with e | ⟨⟩
  · simp only [hq, hw, ht] at h; cases h
  simp only [hq, hw, ht, Prod.mk.injEq] at h
  exact ⟨th, rfl, h.1.symm⟩

/-- The consensus pre-hook, from a world whose state machine is on the
ledger tip: it leaves the state machine on the tip it packs on, the height
one above that tip, and that tip is the truncation target when there was
one, the entry tip otherwise. -/
theorem miningTarget_ok {env : MiningEnv} {target : Option BlockId} {w w' : World} {height : Int}
    (hw : w.latest = w.tipBlockid) (h : miningTarget env target w = (w', .ok height)) :
    w'.latest = w'.tipBlockid ∧ height = w'.trunkHeight + 1 ∧
      match target with
      | none => w' = w
      | some t => ∃ th, env.queryBlockHeader = .ok th ∧ w'.tipBlockid = t ∧ w'.trunkHeight = th := by
  unfold miningTarget at h
  rcases target with _ | t
  · cases h; exact ⟨hw, rfl, rfl⟩
  · dsimp only at h
    rcases ht : truncateForMiner env t w with ⟨w'', _ | ⟨⟩⟩
    · rw [ht] at h; cases h
    · rw [ht] at h; cases h
      obtain ⟨th, hth, rfl⟩ := truncateForMiner_ok ht
      exact ⟨rfl, rfl, th, hth, rfl, rfl⟩

/-- A successful confirmation: consensus gave the block its id, the ledger
took it, and unless it went to a branch the state machine played it. -/
theorem confirmBlockForMiner_ok {env : MiningEnv} {b : Block} {w w' : World}
    (h : confirmBlockForMiner env b w = (w', .ok ())) :
    ∃ id, env.calculateBlock = .ok id ∧ env.confirmBlock.succ = true ∧
      w' = if env.confirmBlock.orphan then w.confirmBlock { b with blockid := id } true
        else (w.confirmBlock { b with blockid := id } false).moveState id := by
  unfold confirmBlockForMiner at h
  rcases hc : env.calculateBlock with e | id
  · simp only [hc] at h; cases h
  refine ⟨id, rfl, ?_⟩
  simp only [hc] at h
  rcases hs : env.confirmBlock.succ
  · simp only [hs] at h; cases h
  rcases ho : env.confirmBlock.orphan
  · rcases hp : env.playForMiner with e | ⟨⟩
    · simp only [hs, ho, hp] at h; cases h
    simp [hs, ho, hp] at h
    simp [← h.1]
  · simp [hs, ho] at h
    simp [← h]

/-- **The stages of `mining`.**  A call stops at a failed stage without a
block, or walks, runs the pre-hook, packs at the height it fixed, and ends
with the confirmation's world and result. -/
theorem mining_cases (env : MiningEnv) (flag : Bool) (w : World) :
    (∃ e, (mining env flag w).packed = none ∧ (mining env flag w).result = .error e) ∨
    ∃ w₁ target extData w₂ height b w₃ r,
      miningWalk env w = .ok w₁ ∧ env.processBeforeMiner = .ok (target, extData) ∧
      miningTarget env target w₁ = (w₂, .ok height) ∧
      packBlock env.pack height env.now extData flag w₂ = .ok b ∧
      confirmBlockForMiner env b w₂ = (w₃, r) ∧ mining env flag w = ⟨w₃, some b, r⟩ := by
  unfold mining
  rcases miningWalk env w with e | w₁
  · exact .inl ⟨e, rfl, rfl⟩
  rcases env.processBeforeMiner with e | ⟨target, extData⟩
  · exact .inl ⟨_, rfl, rfl⟩
  dsimp only
  rcases ht : miningTarget env target w₁ with ⟨w₂, e | height⟩
  · exact .inl ⟨e, rfl, rfl⟩
  dsimp only
  rcases hb : packBlock env.pack height env.now extData flag w₂ with e | b
  · exact .inl ⟨e, rfl, rfl⟩
  dsimp only
  rcases hc : confirmBlockForMiner env b w₂ with ⟨w₃, r⟩
  exact .inr ⟨w₁, target, extData, w₂, height, b, w₃, r, rfl, rfl, ht, hb, hc, rfl⟩

/-! ## A node due to release frozen assets -/

/-- A node due to release `100` to `A` at height `1`: the schedule lists the
entry and `A`'s row holds it in `thaw_detail`. -/
def thawDueWorld : World :=
  { genesisWorld with
    table := fun
      | .nodeThaw => some (.nodes ⟨⟨[(1, ⟨[⟨"A", "100"⟩]⟩)], by decide⟩⟩)
      | .amount "A" => some (.frozen
          { total := "100"
            frozenDetail := default
            timestamp := 0
            thawDetail := ⟨[("t", ⟨"100", 1⟩)], by decide⟩ })
      | _ => none }

/-- A mining call whose every collaborator succeeds except `ReverseTx`. -/
def reverseFailsEnv : MiningEnv where
  walk := .ok ()
  now := 0
  processBeforeMiner := .ok (none, .empty)
  queryBlockHeader := .error (.external 0)
  truncateWalk := .ok ()
  truncate := .ok ()
  pack := allToVotersEnv 0 ([], .ok ())
  calculateBlock := .ok [5]
  confirmBlock := ⟨true, false⟩
  playForMiner := .ok ()
  processConfirmBlock := .ok ()

/-! ## Mining keeps the ledger and the state machine together -/

/-- **Mining keeps the stores consistent.**  When `mining` returns nil, the
block it packed extends the ledger tip it packed on (the tip on entry, or
the truncation target) at one above that tip's height; afterwards the
state tip equals the ledger tip, which is the new block's id unless the
ledger attached the block to a branch, and the old tip otherwise. -/
theorem mining_consistent {env : MiningEnv} {flag : Bool} {w : World}
    (h : (mining env flag w).result = .ok ()) :
    ∃ b id, (mining env flag w).packed = some b ∧ env.calculateBlock = .ok id ∧
      (∃ target extData, env.processBeforeMiner = .ok (target, extData) ∧
        match target with
        | none => b.preHash = w.tipBlockid ∧ b.height = w.trunkHeight + 1
        | some t => ∃ th, env.queryBlockHeader = .ok th ∧ b.preHash = t ∧ b.height = th + 1) ∧
      (mining env flag w).world.latest = (mining env flag w).world.tipBlockid ∧
      (mining env flag w).world.tipBlockid = if env.confirmBlock.orphan then b.preHash else id := by
  rcases mining_cases env flag w with ⟨e, -, he⟩ |
    ⟨w₁, target, extData, w₂, height, b, w₃, r, hw, hp, ht, hb, hc, hm⟩
  · rw [he] at h; cases h
  rw [hm] at h ⊢
  obtain rfl : r = .ok () := h
  have hw₁ := miningWalk_ok hw
  obtain ⟨hcons, hheight, hw₂⟩ := miningTarget_ok (by rw [hw₁]; rfl) ht
  obtain ⟨_, _, _, _, _, -, -, -, -, -, hpre, hbh⟩ := packBlock_ok hb
  obtain ⟨id, hid, -, rfl⟩ := confirmBlockForMiner_ok hc
  refine ⟨b, id, rfl, hid, ⟨target, extData, hp, ?_⟩, ?_⟩
  · rcases target with _ | t
    · dsimp only at hw₂ ⊢; subst hw₂ hw₁; simp [hpre, hbh, hheight]
    · obtain ⟨th, hth, htip, hh⟩ := hw₂
      exact ⟨th, hth, by rw [hpre, hcons, htip], by rw [hbh, hheight, hh]⟩
  · split <;> simp [World.confirmBlock, hpre, hcons]

/-- Mining block `1` on `thawDueWorld` returns nil: the block extends the
genesis tip, and both stores end on its id `[5]`. -/
theorem mining_consistent_thawDue :
    (mining reverseFailsEnv false thawDueWorld).result = .ok () ∧
      ∃ b id, (mining reverseFailsEnv false thawDueWorld).packed = some b ∧
        reverseFailsEnv.calculateBlock = .ok id ∧
        (∃ target extData, reverseFailsEnv.processBeforeMiner = .ok (target, extData) ∧
          match target with
          | none => b.preHash = thawDueWorld.tipBlockid ∧ b.height = thawDueWorld.trunkHeight + 1
          | some t => ∃ th, reverseFailsEnv.queryBlockHeader = .ok th ∧ b.preHash = t ∧
              b.height = th + 1) ∧
        (mining reverseFailsEnv false thawDueWorld).world.latest =
          (mining reverseFailsEnv false thawDueWorld).world.tipBlockid ∧
        (mining reverseFailsEnv false thawDueWorld).world.tipBlockid =
          if reverseFailsEnv.confirmBlock.orphan then b.preHash else id :=
  ⟨rfl, mining_consistent rfl⟩

/-! ## Thaw transactions in a mined block -/

/-- A walk leaves the side tables and the batch alone. -/
theorem miningWalk_tables {env : MiningEnv} {w w' : World} (h : miningWalk env w = .ok w') :
    w.SameTables w' := by
  rw [miningWalk_ok h]; exact ⟨rfl, rfl⟩

/-- Truncation leaves the side tables and the batch alone. -/
theorem truncateForMiner_tables (env : MiningEnv) (t : BlockId) (w : World) :
    w.SameTables (truncateForMiner env t w).1 := by
  unfold truncateForMiner
  rcases env.queryBlockHeader with _ | th <;> rcases env.truncateWalk with _ | ⟨⟩ <;>
    rcases env.truncate with _ | ⟨⟩ <;> exact ⟨rfl, rfl⟩

/-- So does the pre-hook. -/
theorem miningTarget_tables (env : MiningEnv) (target : Option BlockId) (w : World) :
    w.SameTables (miningTarget env target w).1 := by
  rcases target with _ | t
  · exact .rfl
  · have := truncateForMiner_tables env t w
    rcases h : truncateForMiner env t w with ⟨w', _ | ⟨⟩⟩ <;>
      simp only [miningTarget, h] at this ⊢ <;> exact this

/-- So does the confirmation: the ledger and the state machine move, the
side tables do not. -/
theorem confirmBlockForMiner_tables (env : MiningEnv) (b : Block) (w : World) :
    w.SameTables (confirmBlockForMiner env b w).1 := by
  unfold confirmBlockForMiner
  rcases env.calculateBlock with _ | id
  · exact .rfl
  dsimp only
  have hc := w.sameTables_confirmBlock { b with blockid := id } env.confirmBlock.orphan
  split_ifs
  · exact hc
  · rcases env.playForMiner with _ | ⟨⟩
    · exact hc
    · exact hc.trans ⟨rfl, rfl⟩
  · exact .rfl

/-- `mining` changes the ledger and the state machine only: the side
tables and the batch stay as they were. -/
theorem mining_tables (env : MiningEnv) (flag : Bool) (w : World) :
    w.SameTables (mining env flag w).world := by
  unfold mining
  rcases hw : miningWalk env w with _ | w₁
  · exact .rfl
  have h₁ := miningWalk_tables hw
  dsimp only
  rcases env.processBeforeMiner with _ | ⟨target, extData⟩
  · exact h₁
  have h₂ := h₁.trans (miningTarget_tables env target w₁)
  dsimp only
  rcases hm : miningTarget env target w₁ with ⟨w₂, _ | height⟩ <;> rw [hm] at h₂
  · exact h₂
  dsimp only
  rcases packBlock env.pack height env.now extData flag w₂ with _ | block
  · exact h₂
  · exact h₂.trans (confirmBlockForMiner_tables env block w₂)

/-- Whether `ProcessBeforeMiner` asks `mining` for a truncation. -/
def MiningEnv.truncates (env : MiningEnv) : Bool :=
  match env.processBeforeMiner with
  | .ok (some _, _) => true
  | _ => false

/-- Without a truncation, `mining` packs at one above the trunk height it
was called at. -/
theorem mining_packed_height {env : MiningEnv} {flag : Bool} {w : World} {b : Block}
    (ht : env.truncates = false) (h : (mining env flag w).packed = some b) :
    b.height = w.trunkHeight + 1 := by
  rcases mining_cases env flag w with ⟨e, hn, -⟩ |
    ⟨w₁, target, extData, w₂, height, b', w₃, r, hw, hp, htg, hb, -, hm⟩
  · rw [hn] at h; cases h
  rw [hm] at h
  obtain rfl : b' = b := Option.some.inj h
  obtain ⟨-, -, -, -, -, -, -, -, -, -, -, hheight⟩ := packBlock_ok hb
  rcases target with _ | t
  · cases htg
    rw [hheight, miningWalk_ok hw]
    rfl
  · simp [MiningEnv.truncates, hp] at ht

/-- **Thaw transactions of a mined block.**  When `mining` returns nil, the
block it packed lists, in this order, the award transaction `getAwardTx`
built, the timer transaction when it has extension outputs, the mempool
transactions `getUnconfirmedTx` chose, the thaw part, and the vote awards;
the thaw part is one reverse transfer per entry the schedule holds at the
block's height, in the schedule's order, or nothing at all when
`GetThawTx` failed. -/
theorem mining_thaw_txs {env : MiningEnv} {flag : Bool} {w : World}
    (h : (mining env flag w).result = .ok ()) :
    ∃ b sizeLimit autoTx generalTxList awardTx remainAward thawTx,
      (mining env flag w).packed = some b ∧
      env.pack.maxTxSizePerBlock = .ok sizeLimit ∧ getTimerTx env.pack b.height = .ok autoTx ∧
      getUnconfirmedTx env.pack
          (if hasTimerOutputs autoTx then toInt64 (sizeLimit - autoTx.size) else sizeLimit) =
        .ok generalTxList ∧
      getAwardTx env.pack b.height flag = .ok (awardTx, remainAward) ∧
      b.transactions = [awardTx] ++ (if hasTimerOutputs autoTx then [autoTx] else []) ++
        generalTxList ++ thawTx ++
        (if toInt64 remainAward > 0 ∧ flag = false then
          (env.pack.generateVoteAward env.pack.address remainAward).1 else []) ∧
      ((∃ entries, thawEntries b.height w = .ok entries ∧
          List.Forall₂ (fun d tx => env.pack.reverseTx d.address d.amount = .ok tx) entries thawTx) ∨
        (thawTx = [] ∧ ∃ e, getThawTx env.pack.reverseTx b.height w = .error e)) := by
  rcases mining_cases env flag w with ⟨e, -, he⟩ |
    ⟨w₁, target, extData, w₂, height, b, w₃, r, hw, -, ht, hb, -, hm⟩
  · rw [he] at h; cases h
  rw [hm]
  have ht₂ := (miningWalk_tables hw).trans (miningTarget_tables env target w₁)
  rw [ht] at ht₂
  obtain ⟨L, autoTx, general, awardTx, remain, h1, h2, h3, h4, htxs, -, hbh⟩ := packBlock_ok hb
  subst hbh
  have hthaw : getThawTx env.pack.reverseTx b.height w₂ = getThawTx env.pack.reverseTx b.height w := by
    unfold getThawTx; rw [thawEntries_congr ht₂.table]
  refine ⟨b, L, autoTx, general, awardTx, remain,
    (getThawTx env.pack.reverseTx b.height w).toOption.getD [], rfl, h1, h2, h3, h4, ?_, ?_⟩
  · rw [htxs, assembleTxs, hthaw]
    split_ifs <;> simp
  rcases hg : getThawTx env.pack.reverseTx b.height w with e | txs
  · exact .inr ⟨rfl, e, rfl⟩
  · exact .inl (getThawTx_ok hg)

/-- On `thawDueWorld` the reverse transfer fails: block `1` is mined with
the thaw part empty. -/
theorem mining_thaw_txs_thawDue :
    (mining reverseFailsEnv false thawDueWorld).result = .ok () ∧
      ∃ b sizeLimit autoTx generalTxList awardTx remainAward thawTx,
        (mining reverseFailsEnv false thawDueWorld).packed = some b ∧
        reverseFailsEnv.pack.maxTxSizePerBlock = .ok sizeLimit ∧
        getTimerTx reverseFailsEnv.pack b.height = .ok autoTx ∧
        getUnconfirmedTx reverseFailsEnv.pack
            (if hasTimerOutputs autoTx then toInt64 (sizeLimit - autoTx.size) else sizeLimit) =
          .ok generalTxList ∧
        getAwardTx reverseFailsEnv.pack b.height false = .ok (awardTx, remainAward) ∧
        b.transactions = [awardTx] ++ (if hasTimerOutputs autoTx then [autoTx] else []) ++
          generalTxList ++ thawTx ++
          (if toInt64 remainAward > 0 ∧ false = false then
            (reverseFailsEnv.pack.generateVoteAward reverseFailsEnv.pack.address remainAward).1
          else []) ∧
        ((∃ entries, thawEntries b.height thawDueWorld = .ok entries ∧
            List.Forall₂ (fun d tx => reverseFailsEnv.pack.reverseTx d.address d.amount = .ok tx)
              entries thawTx) ∨
          (thawTx = [] ∧ ∃ e, getThawTx reverseFailsEnv.pack.reverseTx b.height thawDueWorld = .error e)) :=
  ⟨rfl, mining_thaw_txs rfl⟩

/-- Mining block `1` succeeds although the reverse transfer due at `1`
could not be built: the block carries the award only.  The `ClearThawTx(1)`
that follows still deletes height `1` from the schedule and drops the entry
from `A`'s `thaw_detail`. -/
theorem mining_thaw_unreleased :
    (mining reverseFailsEnv false thawDueWorld).result = .ok () ∧
      (mining reverseFailsEnv false thawDueWorld).packed.map (·.transactions) = some [awardTx₀] ∧
      (((clearThawTx 1 (fun _ => .ok ()) (mining reverseFailsEnv false thawDueWorld).world).1.table
        .nodeThaw).bind (@Message.decode NodeTable _)).map (·.nodeDetails.entries) = some [] ∧
      (((clearThawTx 1 (fun _ => .ok ()) (mining reverseFailsEnv false thawDueWorld).world).1.table
        (.amount "A")).bind (@Message.decode FrozenAssetsTable _)).map (·.thawDetail.entries) =
          some [] :=
  ⟨rfl, rfl, rfl, rfl⟩

end XuperMiner
