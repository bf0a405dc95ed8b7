import XuperMiner.Longest

/-!
# XuperMiner.Sync

The sync engine (spec §4.7) and the ingress `ProcBlock` (§4.9):
`Miner.trySyncBlock`, `syncBlock`, the backfill `downloadMissBlock` with
`getBlock`, and `batchConfirmBlock`.

The backfill loop of `downloadMissBlock` is a Go `for` whose exit depends on
the blocks peers send, so it is run on fuel: one unit per iteration, and
`none` when the fuel runs out before the loop exits.  The `i`-th `GET_BLOCK`
request of a backfill, for block id `id`, is answered by
`SyncEnv.getBlockResponses i id`.
-/

namespace XuperMiner

/-- `xpb.BlockInfo`: the one field `getBlock` reads. -/
structure BlockInfo where
  block : Option Block
  deriving DecidableEq, Repr

/-- A peer's reply: whether its header's `ErrorType` is `SUCCESS`, and its
payload as `p2p.Unmarshal` decodes it (`none` on failure). -/
structure Response (α : Type) where
  success : Bool
  body : Option α
  deriving DecidableEq, Repr

/-- What the collaborators answer during one `trySyncBlock`. -/
structure SyncEnv where
  /-- The network during `getWholeNetLongestBlock`. -/
  net : NetEnv
  /-- `State.Walk(ledgerTip)` in `trySyncBlock`. -/
  walk : Except Err Unit
  /-- `Ledger.SavePendingBlock(block)`. -/
  savePendingBlock : Block → Except Err Unit
  /-- `SendMessageWithResponse(GET_BLOCK(id))`, the `i`-th of the backfill. -/
  getBlockResponses : Nat → BlockId → Except Err (List (Response BlockInfo))
  /-- `Ledger.VerifyBlock(block)`. -/
  verifyBlock : Block → Bool
  /-- `Consensus.CheckMinerMatch(block)`. -/
  checkMinerMatch : Block → Bool
  /-- `Ledger.ConfirmBlock(block, false)`. -/
  confirmBlock : Block → ConfirmStatus
  /-- `State.PlayAndRepost(blockid, false, false)`. -/
  playAndRepost : Block → Except Err Unit
  /-- `Consensus.ProcessConfirmBlock(block)`. -/
  processConfirmBlock : Block → Except Err Unit
  /-- `State.Walk(ledgerTip)` in the deferred repair of `syncBlock`. -/
  syncWalk : Except Err Unit

/-! ## Backfill -/

/-- `Miner.getBlock(blockId)`, as the `i`-th request: the block of the first
successful reply that decodes and carries one.  The block's id is not
compared with `blockId`. -/
def getBlock (env : SyncEnv) (i : Nat) (blockId : BlockId) : Except Err Block :=
  match env.getBlockResponses i blockId with
  | .error e => .error e
  | .ok responses =>
    match responses.findSome? (fun r => if r.success then r.body.bind (·.block) else none) with
    | some b => .ok b
    | none => .error (.msg "no response")

/-- The backfill loop of `downloadMissBlock`, from `beginBlock`: `blkIds`
holds the ids collected so far and `i` the `GET_BLOCK` requests made. -/
def downloadLoop (env : SyncEnv) :
    Nat → Nat → Block → List BlockId → World → Option (World × Except Err (List BlockId))
  | 0, _, _, _, _ => none
  | fuel + 1, i, beginBlock, blkIds, w =>
    if w.existBlock beginBlock.preHash then some (w, .ok blkIds)
    else if beginBlock.preHash.length = 0 ∨ beginBlock.height = 0 then
      some (w, .error .genesisBlockDiff)
    else
      match w.getPendingBlock beginBlock.preHash with
      | some block => downloadLoop env fuel i block (blkIds ++ [block.blockid]) w
      | none =>
        match getBlock env i beginBlock.preHash with
        | .error e => some (w, .error e)
        | .ok block =>
          match env.savePendingBlock block with
          | .error e => some (w, .error e)
          | .ok () =>
            downloadLoop env fuel (i + 1) block (blkIds ++ [block.blockid])
              (w.savePendingBlock block)

/-- `Miner.downloadMissBlock(targetBlock)`, run for at most `fuel`
iterations of its loop. -/
def downloadMissBlock (env : SyncEnv) (fuel : Nat) (targetBlock : Block) (w : World) :
    Option (World × Except Err (List BlockId)) :=
  match env.savePendingBlock targetBlock with
  | .error e => some (w, .error e)
  | .ok () => downloadLoop env fuel 0 targetBlock [targetBlock.blockid] (w.savePendingBlock targetBlock)

/-! ## What the backfill walks -/

/-- One step of the backfill: from `b` the loop moves to the pending block
stored under `b.preHash`, or to the block some `GET_BLOCK` reply for
`b.preHash` carried. -/
def BackfillStep (env : SyncEnv) (b b' : Block) : Prop :=
  b'.blockid = b.preHash ∨ ∃ i, getBlock env i b.preHash = .ok b'

/-- Peers that answer `GET_BLOCK(id)` with the block `id`. -/
def HonestPeers (env : SyncEnv) : Prop :=
  ∀ i id b, getBlock env i id = .ok b → b.blockid = id

/-- The pending store answers a lookup with a block of the id asked for. -/
theorem getPendingBlock_blockid {w : World} {id : BlockId} {b : Block}
    (h : w.getPendingBlock id = some b) : b.blockid = id ∧ b ∈ w.pending := by
  unfold World.getPendingBlock at h
  exact ⟨by simpa using List.find?_some h, List.mem_of_find?_eq_some h⟩

/-- **Backfill walk.**  A run of the loop from `b` that ends without error
walked a chain of `BackfillStep`s from `b` to a block whose `pre_hash` is
in the ledger and collected their ids in order; it only added to the
pending store, and every block it walked to is there. -/
theorem downloadLoop_ok {env : SyncEnv} {fuel i : Nat} {b : Block} {ids ids' : List BlockId}
    {w w' : World} (h : downloadLoop env fuel i b ids w = some (w', .ok ids')) :
    ∃ bs, ids' = ids ++ bs.map (·.blockid) ∧ List.Chain (BackfillStep env) b bs ∧
      w'.existBlock ((b :: bs).getLast (List.cons_ne_nil _ _)).preHash ∧
      (∀ c ∈ bs, c ∈ w'.pending) ∧ w.pending ⊆ w'.pending := by
  induction fuel generalizing i b ids w with
  | zero => cases h
  | succ fuel ih =>
    unfold downloadLoop at h
    split at h
    · cases h; exact ⟨[], by simp, .nil, by simpa, by simp, fun _ => id⟩
    split at h
    · cases h
    split at h
    · rename_i block hp
      obtain ⟨hid, hmem⟩ := getPendingBlock_blockid hp
      obtain ⟨bs, rfl, hc, he, hm, hsub⟩ := ih h
      exact ⟨block :: bs, by simp, .cons (.inl hid) hc, by simpa using he,
        List.forall_mem_cons.2 ⟨hsub hmem, hm⟩, hsub⟩
    split at h
    · cases h
    rename_i block hget
    split at h
    · cases h
    obtain ⟨bs, rfl, hc, he, hm, hsub⟩ := ih h
    exact ⟨block :: bs, by simp, .cons (.inr ⟨i, hget⟩) hc, by simpa using he,
      List.forall_mem_cons.2 ⟨hsub (List.mem_cons_self _ _), hm⟩,
      fun c hc => hsub (List.mem_cons_of_mem _ hc)⟩

/-- **What a successful backfill returns.**  The ids are the target's and
those of a chain of backfill steps from it, ending at a block whose
`pre_hash` the ledger holds; every block of the chain is in the pending
store.  When peers answer `GET_BLOCK` honestly, each block of the chain is
the parent its predecessor names. -/
theorem downloadMissBlock_ok {env : SyncEnv} {fuel : Nat} {target : Block} {w w' : World}
    {ids : List BlockId} (h : downloadMissBlock env fuel target w = some (w', .ok ids)) :
    ∃ bs, ids = (target :: bs).map (·.blockid) ∧ List.Chain (BackfillStep env) target bs ∧
      w'.existBlock ((target :: bs).getLast (List.cons_ne_nil _ _)).preHash ∧
      (∀ c ∈ target :: bs, c ∈ w'.pending) ∧
      (HonestPeers env → List.Chain (fun b b' => b'.blockid = b.preHash) target bs) := by
  unfold downloadMissBlock at h
  split at h
  · cases h
  obtain ⟨bs, rfl, hc, he, hm, hsub⟩ := downloadLoop_ok h
  refine ⟨bs, rfl, hc, he, ?_, fun hon => hc.imp fun b b' hs => ?_⟩
  · simp only [List.mem_cons, forall_eq_or_imp]
    exact ⟨hsub (List.mem_cons_self _ _), hm⟩
  · rcases hs with hs | ⟨i, hs⟩
    · exact hs
    · exact hon i _ _ hs

/-- A walk that reaches a block naming itself as parent, with no such block
in the ledger, never leaves the loop: the pending store hands the block
back at every iteration. -/
theorem downloadLoop_self_parent {env : SyncEnv} {fuel i : Nat} {ids : List BlockId} {w : World}
    {a : Block} (hlen : a.preHash.length ≠ 0) (hh : a.height ≠ 0)
    (hex : w.existBlock a.preHash = false) (hp : w.getPendingBlock a.preHash = some a) :
    downloadLoop env fuel i a ids w = none := by
  induction fuel generalizing ids with
  | zero => rfl
  | succ fuel ih => simp only [downloadLoop, hex, hp, hlen, hh, or_self, if_false, ih]; rfl

/-- A target naming itself as its parent, outside the ledger, keeps the
backfill loop running for any fuel: it is saved first, so the pending store
hands it back at every iteration. -/
theorem downloadMissBlock_self_parent {env : SyncEnv} {fuel : Nat} {w : World} {a : Block}
    (hself : a.preHash = a.blockid) (hlen : a.preHash.length ≠ 0) (hh : a.height ≠ 0)
    (hex : w.existBlock a.preHash = false) (hs : env.savePendingBlock a = .ok ()) :
    downloadMissBlock env fuel a w = none := by
  simp only [downloadMissBlock, hs]
  refine downloadLoop_self_parent hlen hh hex ?_
  simp [World.getPendingBlock, World.savePendingBlock, hself]

/-! ## Batch confirm -/

/-- One block of `batchConfirmBlock`: confirm it in the ledger, play it on
the state machine when the state sits on its parent, report it to
consensus. -/
def confirmPending (env : SyncEnv) (block : Block) (w : World) : World × Except Err Unit :=
  if !env.verifyBlock block then (w, .error (.msg "the verification of block failed from ledger"))
  else if !env.checkMinerMatch block then (w, .error (.msg "consensus check miner match failed"))
  else
    let status := env.confirmBlock block
    if !status.succ then (w, .error (.msg "ledger confirm block failed"))
    else
      let w := w.confirmBlock block status.orphan
      let played : World × Except Err Unit :=
        if w.latest = block.preHash then
          match env.playAndRepost block with
          | .error e => (w, .error e)
          | .ok () => (w.moveState block.blockid, .ok ())
        else (w, .ok ())
      match played with
      | (w, .error e) => (w, .error e)
      | (w, .ok ()) =>
        match env.processConfirmBlock block with
        | .error _ => (w, .error (.msg "consensus process confirm block failed"))
        | .ok () => (w, .ok ())

/-- The loop of `batchConfirmBlock`, over the ids oldest first. -/
def confirmEach (env : SyncEnv) : List BlockId → World → World × Except Err Unit
  | [], w => (w, .ok ())
  | id :: ids, w =>
    match w.getPendingBlock id with
    | none => (w, .error (.msg "get pending block failed from ledger"))
    | some block =>
      match confirmPending env block w with
      | (w, .error e) => (w, .error e)
      | (w, .ok ()) => confirmEach env ids w

/-- `Miner.batchConfirmBlock(blkIds)`: the ids from the last to the first. -/
def batchConfirmBlock (env : SyncEnv) (blkIds : List BlockId) (w : World) :
    World × Except Err Unit :=
  if blkIds.length < 1 then (w, .ok ()) else confirmEach env blkIds.reverse w

/-! ## `syncBlock` and `trySyncBlock` -/

/-- The deferred repair of `syncBlock`: walk the state machine to the
ledger tip when they differ. -/
def repairWalk (outcome : Except Err Unit) (w : World) : World :=
  if w.tipBlockid ≠ w.latest then
    match outcome with
    | .ok () => w.moveState w.tipBlockid
    | .error _ => w
  else w

/-- `Miner.syncBlock(targetBlock)`. -/
def syncBlock (env : SyncEnv) (fuel : Nat) (targetBlock : Block) (w : World) :
    Option (World × Except Err Unit) :=
  if targetBlock.height < w.trunkHeight ∨ targetBlock.blockid = w.tipBlockid then some (w, .ok ())
  else
    match downloadMissBlock env fuel targetBlock w with
    | none => none
    | some (w, .error _) => some (w, .error (.msg "download miss block failed"))
    | some (w, .ok blkIds) =>
      match batchConfirmBlock env blkIds w with
      | (w, r) =>
        some (repairWalk env.syncWalk w, match r with
          | .error _ => .error (.msg "batch confirm block to ledger failed")
          | .ok () => .ok ())

/-- The deferred reset of `trySyncBlock` after an error: the in-sync record
goes back to the ledger tip, so a retry is admitted. -/
def resetInSync (w : World) : World :=
  { w with inSyncTargetHeight := w.trunkHeight, inSyncTargetBlockId := w.tipBlockid }

/-- The critical section of `trySyncBlock`, under `minerMutex`. -/
def syncLocked (env : SyncEnv) (fuel : Nat) (targetBlock : Block) (w : World) :
    Option (World × Except Err Unit) :=
  if targetBlock.height < w.inSyncTargetHeight ∨ targetBlock.blockid = w.inSyncTargetBlockId then
    some (w, .ok ())
  else if w.existBlock targetBlock.blockid then some (w, .ok ())
  else
    let w := { w with inSyncTargetHeight := targetBlock.height,
                      inSyncTargetBlockId := targetBlock.blockid }
    let walked : Except Err World :=
      if w.tipBlockid ≠ w.latest then
        match env.walk with
        | .ok () => .ok (w.moveState w.tipBlockid)
        | .error _ => .error (.msg "try sync block walk failed")
      else .ok w
    match walked with
    | .error e => some (resetInSync w, .error e)
    | .ok w =>
      match syncBlock env fuel targetBlock w with
      | none => none
      | some (w, .error _) => some (resetInSync w, .error (.msg "try sync block failed"))
      | some (w, .ok ()) => some (w, .ok ())

/-- `Miner.trySyncBlock(targetBlock)`; a nil target is looked up on the
network first.  A nil dereference there is a panic, passed on as it is. -/
def trySyncBlock (env : SyncEnv) (fuel : Nat) (targetBlock : Option Block) (w : World) :
    Option (World × Except Err Unit) :=
  match targetBlock with
  | some b => syncLocked env fuel b w
  | none =>
    match getWholeNetLongestBlock env.net with
    | .error .nilDereference => some (w, .error .nilDereference)
    | .error _ => some (w, .error (.msg "try sync block get whole network longest block failed"))
    | .ok b => syncLocked env fuel b w

/-! ## Ingress -/

/-- What the node answers during one `ProcBlock`. -/
structure IngressEnv where
  /-- `State.GetMaxBlockSize()`. -/
  maxBlockSize : Int
  /-- `Ledger.IsValidTx(i, tx, block)`. -/
  isValidTx : Nat → Tx → Bool
  /-- `minerQueue` after this call's increment. -/
  minerQueue : Int
  /-- `EngCfg.MaxBlockQueueSize`. -/
  maxBlockQueueSize : Int
  /-- The answers during the `trySyncBlock` it hands the block to. -/
  sync : SyncEnv

/-- The checks `ProcBlock` makes before it calls `trySyncBlock`, outside
`minerMutex`: the block it hands on, or the error it returns.  The in-sync
record they read may change before `trySyncBlock` takes the lock. -/
def admitBlock (env : IngressEnv) (block : Option Block) (w : World) : Except Err Block :=
  match block with
  | none => .error .parameter
  | some block =>
    if (block.size : Int) > env.maxBlockSize then
      .error (.forbidden "block is too large")
    else if block.height < w.inSyncTargetHeight ∨ block.blockid = w.inSyncTargetBlockId then
      .error (.forbidden "recv block height lower than in sync height")
    else if !(block.transactions.enum.all fun (i, tx) => env.isValidTx i tx) then
      .error (.forbidden "invalid tx got from the block")
    else if env.minerQueue ≥ env.maxBlockQueueSize then
      .error (.forbidden "miner queue full")
    else .ok block

/-- `Miner.ProcBlock(block)`, its checks and its `trySyncBlock` back to
back: admit a pushed block, then sync to it. -/
def procBlock (env : IngressEnv) (fuel : Nat) (block : Option Block) (w : World) :
    Option (World × Except Err Unit) :=
  match admitBlock env block w with
  | .error e => some (w, .error e)
  | .ok block => trySyncBlock env.sync fuel (some block) w

/-! ## Sync leaves the side tables alone -/

/-- The backfill loop only saves pending blocks. -/
theorem downloadLoop_tables {env : SyncEnv} {fuel i : Nat} {b : Block} {ids : List BlockId}
    {w w' : World} {r : Except Err (List BlockId)} (h : downloadLoop env fuel i b ids w = some (w', r)) :
    w.SameTables w' := by
  induction fuel generalizing i b ids w with
  | zero => cases h
  | succ fuel ih =>
    unfold downloadLoop at h
    repeat' split at h
    all_goals first
      | (cases h; exact .rfl)
      | exact ih h
      | exact (w.sameTables_savePendingBlock _).trans (ih h)

/-- So does `downloadMissBlock`. -/
theorem downloadMissBlock_tables {env : SyncEnv} {fuel : Nat} {b : Block} {w w' : World}
    {r : Except Err (List BlockId)} (h : downloadMissBlock env fuel b w = some (w', r)) :
    w.SameTables w' := by
  unfold downloadMissBlock at h
  split at h
  · cases h; exact .rfl
  · exact (w.sameTables_savePendingBlock _).trans (downloadLoop_tables h)

/-- Confirming a block moves the ledger and the state machine only. -/
theorem confirmPending_tables (env : SyncEnv) (b : Block) (w : World) :
    w.SameTables (confirmPending env b w).1 := by
  have hc := w.sameTables_confirmBlock b (env.confirmBlock b).orphan
  unfold confirmPending
  dsimp only
  split_ifs
  any_goals exact .rfl
  all_goals
    rcases env.playAndRepost b with _ | ⟨⟩ <;> rcases env.processConfirmBlock b with _ | ⟨⟩ <;>
      first | exact hc | exact hc.trans ⟨rfl, rfl⟩

/-- So does the loop of `batchConfirmBlock`. -/
theorem confirmEach_tables (env : SyncEnv) (ids : List BlockId) (w : World) :
    w.SameTables (confirmEach env ids w).1 := by
  induction ids generalizing w with
  | nil => exact .rfl
  | cons id ids ih =>
    unfold confirmEach
    split
    · exact .rfl
    · rename_i b _
      have := confirmPending_tables env b w
      split
      · rename_i h; rw [h] at this; exact this
      · rename_i h; rw [h] at this; exact this.trans (ih _)

/-- So does `batchConfirmBlock`. -/
theorem batchConfirmBlock_tables (env : SyncEnv) (ids : List BlockId) (w : World) :
    w.SameTables (batchConfirmBlock env ids w).1 := by
  unfold batchConfirmBlock
  split
  · exact .rfl
  · exact confirmEach_tables env _ w

/-- The deferred walk moves the state machine only. -/
theorem repairWalk_tables (o : Except Err Unit) (w : World) : w.SameTables (repairWalk o w) := by
  unfold repairWalk
  split
  · split <;> exact ⟨rfl, rfl⟩
  · exact .rfl

/-- `syncBlock` leaves the side tables and the batch alone. -/
theorem syncBlock_tables {env : SyncEnv} {fuel : Nat} {b : Block} {w w' : World}
    {r : Except Err Unit} (h : syncBlock env fuel b w = some (w', r)) : w.SameTables w' := by
  unfold syncBlock at h
  split at h
  · cases h; exact .rfl
  split at h
  · cases h
  · rename_i hd; cases h; exact downloadMissBlock_tables hd
  · rename_i ids hd
    simp only [Option.some.injEq, Prod.mk.injEq] at h
    rw [← h.1]
    exact (downloadMissBlock_tables hd).trans
      ((batchConfirmBlock_tables env ids _).trans (repairWalk_tables _ _))

/-- So does the critical section of `trySyncBlock`. -/
theorem syncLocked_tables {env : SyncEnv} {fuel : Nat} {b : Block} {w w' : World}
    {r : Except Err Unit} (h : syncLocked env fuel b w = some (w', r)) : w.SameTables w' := by
  unfold syncLocked at h
  split at h
  · cases h; exact .rfl
  split at h
  · cases h; exact .rfl
  dsimp only at h
  split at h
  · cases h; exact ⟨rfl, rfl⟩
  · rename_i w₁ hw
    have h₁ : w.SameTables w₁ := by
      split at hw
      · split at hw <;> cases hw; exact ⟨rfl, rfl⟩
      · cases hw; exact ⟨rfl, rfl⟩
    split at h <;> cases h <;> rename_i hs
    all_goals exact h₁.trans ((syncBlock_tables hs).trans ⟨rfl, rfl⟩)

/-- So does `trySyncBlock`. -/
theorem trySyncBlock_tables {env : SyncEnv} {fuel : Nat} {t : Option Block} {w w' : World}
    {r : Except Err Unit} (h : trySyncBlock env fuel t w = some (w', r)) : w.SameTables w' := by
  unfold trySyncBlock at h
  split at h
  · exact syncLocked_tables h
  · split at h
    · cases h; exact .rfl
    · cases h; exact .rfl
    · exact syncLocked_tables h

/-- So does `ProcBlock`. -/
theorem procBlock_tables {env : IngressEnv} {fuel : Nat} {b : Option Block} {w w' : World}
    {r : Except Err Unit} (h : procBlock env fuel b w = some (w', r)) : w.SameTables w' := by
  unfold procBlock at h
  split at h
  · cases h; exact .rfl
  · exact trySyncBlock_tables h

/-! ## A block that names itself as its parent -/

/-- A block whose `pre_hash` is its own id. -/
def selfParentBlock : Block := { genesisBlock with blockid := [1], preHash := [1], height := 1 }

/-- Collaborators that accept everything, and peers that answer nothing. -/
def acceptingSync : SyncEnv where
  net := { statusResponses := .ok [], confirmResponses := fun _ => .ok [], sort := id }
  walk := .ok ()
  savePendingBlock := fun _ => .ok ()
  getBlockResponses := fun _ _ => .ok []
  verifyBlock := fun _ => true
  checkMinerMatch := fun _ => true
  confirmBlock := fun _ => { succ := true, orphan := false }
  playAndRepost := fun _ => .ok ()
  processConfirmBlock := fun _ => .ok ()
  syncWalk := .ok ()

/-- A node with room in its queue and every transaction valid. -/
def acceptingIngress : IngressEnv where
  maxBlockSize := 100
  isValidTx := fun _ _ => true
  minerQueue := 1
  maxBlockQueueSize := 10
  sync := acceptingSync

/-- `ProcBlock` of a pushed block that names itself as its parent never
returns: the backfill finds the block in the pending store under its own
`pre_hash` at every iteration, and no amount of fuel ends the loop. -/
theorem procBlock_self_parent_never_returns (fuel : Nat) :
    procBlock acceptingIngress fuel (some selfParentBlock) genesisWorld = none := by
  simp [procBlock, admitBlock, trySyncBlock, syncLocked, syncBlock, acceptingIngress, genesisWorld,
    genesisBlock, selfParentBlock, World.existBlock]
  rw [downloadMissBlock_self_parent rfl (by decide) (by decide) (by decide) rfl]

/-- A target whose parent `[2]` the node lacks. -/
def orphanTarget : Block := { selfParentBlock with blockid := [3], preHash := [2], height := 2 }

/-- A block `[9]` on top of the genesis block. -/
def strayBlock : Block := { selfParentBlock with blockid := [9], preHash := [0] }

/-- Peers that answer every `GET_BLOCK` with `strayBlock`. -/
def strayPeers : SyncEnv :=
  { acceptingSync with getBlockResponses := fun _ _ => .ok [⟨true, some ⟨some strayBlock⟩⟩] }

/-- The backfill of `orphanTarget` asks for `[2]`, takes the `[9]` a peer
sent, and returns `[[3], [9]]` without error, though the pending block
under `[3]` names `[2]`, not `[9]`, as its parent. -/
theorem downloadMissBlock_stray_reply :
    ((downloadMissBlock strayPeers 2 orphanTarget genesisWorld).map fun r =>
      (r.2, r.1.getPendingBlock [3])) = some (.ok [[3], [9]], some orphanTarget) ∧
      orphanTarget.preHash ≠ [9] :=
  ⟨rfl, by decide⟩

/-- The backfill of `orphanTarget` from stray peers returns without error,
so what a successful backfill returns holds of it: the chain from
`[3]` to `[9]` is a backfill step though not a parent link. -/
theorem downloadMissBlock_ok_stray :
    downloadMissBlock strayPeers 2 orphanTarget genesisWorld =
        some ({ genesisWorld with pending := [strayBlock, orphanTarget] }, .ok [[3], [9]]) ∧
      ∃ bs, [[3], [9]] = (orphanTarget :: bs).map (·.blockid) ∧
        List.Chain (BackfillStep strayPeers) orphanTarget bs ∧
        World.existBlock { genesisWorld with pending := [strayBlock, orphanTarget] }
          ((orphanTarget :: bs).getLast (List.cons_ne_nil _ _)).preHash ∧
        (∀ c ∈ orphanTarget :: bs,
          c ∈ ({ genesisWorld with pending := [strayBlock, orphanTarget] } : World).pending) ∧
        (HonestPeers strayPeers → List.Chain (fun b b' => b'.blockid = b.preHash) orphanTarget bs) :=
  ⟨rfl, @downloadMissBlock_ok strayPeers 2 orphanTarget genesisWorld _ _ rfl⟩

end XuperMiner
