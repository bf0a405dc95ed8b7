import XuperMiner.Table

/-!
# XuperMiner.World

The state the miner shares with its collaborators, and what each
collaborator call does to it.

The ledger, the state machine and the consensus engine are not part of
this repository's source; only their contracts (spec §6) are modelled.  A
call whose result the miner only inspects is an argument of the miner's
functions (an *outcome*: any value is possible); a call that moves the
ledger or the state machine is one of the updates below, applied when the
outcome says the call succeeded:

* `State.Walk(x)` and `State.PlayForMiner(x)`/`PlayAndRepost(x)` make `x`
  the state tip;
* `Ledger.Truncate(x)` makes `x` the ledger tip, at its own height, and
  discards the descendants of `x` (spec glossary: "roll the ledger back to
  a target block, discarding all descendants"); it touches neither the
  confirmed table nor the confirm batch;
* a successful `Ledger.ConfirmBlock(b)` adds `b` to the ledger, and unless
  `b` was attached to a branch (`orphan`) makes it the tip;
* `ConfirmBatch.Put` stages a row and a successful `ConfirmBatch.Write`
  commits every staged row (`XuperMiner.Table`).

A failed call leaves its collaborator unchanged.
-/

namespace XuperMiner

/-- The status `Ledger.ConfirmBlock` returns (its `Error` is only logged). -/
structure ConfirmStatus where
  succ : Bool
  orphan : Bool
  deriving DecidableEq, Repr

/-- The miner's shared state: the ledger (meta, blocks, pending store,
confirmed table, confirm batch), the state machine's tip, and the miner's
own in-sync record (`inSyncTargetHeight`, `inSyncTargetBlockId`). -/
structure World where
  tipBlockid : BlockId
  trunkHeight : Int
  blocks : List Block
  pending : List Block
  latest : BlockId
  table : ConfirmedTable
  batch : ConfirmBatch
  inSyncTargetHeight : Int
  inSyncTargetBlockId : BlockId

namespace World

/-! ## Reads -/

/-- `Ledger.ExistBlock(id)`. -/
def existBlock (w : World) (id : BlockId) : Bool := w.blocks.any (·.blockid == id)

/-- `Ledger.GetPendingBlock(id)`: the newest pending block saved under `id`. -/
def getPendingBlock (w : World) (id : BlockId) : Option Block :=
  w.pending.find? (·.blockid == id)

/-- Whether the state machine and the ledger agree on the tip. -/
def consistent (w : World) : Prop := w.latest = w.tipBlockid

instance (w : World) : Decidable w.consistent := inferInstanceAs (Decidable (_ = _))

/-! ## Collaborator updates -/

/-- `Ledger.SavePendingBlock(b)`. -/
def savePendingBlock (w : World) (b : Block) : World := { w with pending := b :: w.pending }

/-- A successful `State.Walk(x)`, `PlayForMiner(x)` or `PlayAndRepost(x)`. -/
def moveState (w : World) (x : BlockId) : World := { w with latest := x }

/-- What `Ledger.Truncate(x)` keeps of the blocks `bs`, newest first.
Scanning from the oldest block, the blocks in front of the oldest block `x`
whose parent is `x` or a block dropped before them are dropped: the
descendants of `x`.  The second component is `none` until the scan meets
block `x`, then the ids of `x` and of the blocks dropped so far. -/
def truncateScan (x : BlockId) : List Block → List Block × Option (List BlockId)
  | [] => ([], none)
  | b :: bs =>
    match truncateScan x bs with
    | (kept, none) => (b :: kept, if b.blockid = x then some [x] else none)
    | (kept, some desc) =>
      if b.preHash ∈ desc then (kept, some (b.blockid :: desc)) else (b :: kept, some desc)

/-- A successful `Ledger.Truncate(x)`, `x` being at height `h`. -/
def truncate (w : World) (x : BlockId) (h : Int) : World :=
  { w with blocks := (truncateScan x w.blocks).1, tipBlockid := x, trunkHeight := h }

/-- A successful `Ledger.ConfirmBlock(b)`. -/
def confirmBlock (w : World) (b : Block) (orphan : Bool) : World :=
  if orphan then { w with blocks := b :: w.blocks }
  else { w with blocks := b :: w.blocks, tipBlockid := b.blockid, trunkHeight := b.height }

/-- `ConfirmBatch.Put(k, r)` (the key written with `ConfirmedTablePrefix`). -/
def put (w : World) (k : Key) (r : Row) : World := { w with batch := w.batch ++ [(k, r)] }

/-- `ConfirmBatch.Write()`, with the outcome the store gave it. -/
def write (w : World) : Except Err Unit → World
  | .ok _ => { w with table := w.table.commit w.batch }
  | .error _ => w

@[simp] theorem moveState_latest (w : World) (x : BlockId) : (w.moveState x).latest = x := rfl
@[simp] theorem moveState_tipBlockid (w : World) (x : BlockId) :
    (w.moveState x).tipBlockid = w.tipBlockid := rfl
@[simp] theorem moveState_trunkHeight (w : World) (x : BlockId) :
    (w.moveState x).trunkHeight = w.trunkHeight := rfl
@[simp] theorem moveState_table (w : World) (x : BlockId) : (w.moveState x).table = w.table := rfl
@[simp] theorem moveState_batch (w : World) (x : BlockId) : (w.moveState x).batch = w.batch := rfl
@[simp] theorem truncate_tipBlockid (w : World) (x : BlockId) (h : Int) :
    (w.truncate x h).tipBlockid = x := rfl
@[simp] theorem truncate_trunkHeight (w : World) (x : BlockId) (h : Int) :
    (w.truncate x h).trunkHeight = h := rfl
@[simp] theorem truncate_latest (w : World) (x : BlockId) (h : Int) :
    (w.truncate x h).latest = w.latest := rfl
@[simp] theorem put_batch (w : World) (k : Key) (r : Row) :
    (w.put k r).batch = w.batch ++ [(k, r)] := rfl
@[simp] theorem put_table (w : World) (k : Key) (r : Row) : (w.put k r).table = w.table := rfl
@[simp] theorem write_batch (w : World) (o : Except Err Unit) : (w.write o).batch = w.batch := by
  cases o <;> rfl

@[simp] theorem savePendingBlock_table (w : World) (b : Block) :
    (w.savePendingBlock b).table = w.table := rfl
@[simp] theorem savePendingBlock_batch (w : World) (b : Block) :
    (w.savePendingBlock b).batch = w.batch := rfl
@[simp] theorem confirmBlock_table (w : World) (b : Block) (o : Bool) :
    (w.confirmBlock b o).table = w.table := by
  unfold confirmBlock; split <;> rfl
@[simp] theorem confirmBlock_batch (w : World) (b : Block) (o : Bool) :
    (w.confirmBlock b o).batch = w.batch := by
  unfold confirmBlock; split <;> rfl

/-- `w'` holds the side tables and the batch of `w`: every ledger and
state-machine update keeps them. -/
structure SameTables (w w' : World) : Prop where
  table : w'.table = w.table
  batch : w'.batch = w.batch

theorem SameTables.rfl {w : World} : SameTables w w := ⟨Eq.refl _, Eq.refl _⟩

theorem SameTables.trans {w₁ w₂ w₃ : World} (h₁ : SameTables w₁ w₂) (h₂ : SameTables w₂ w₃) :
    SameTables w₁ w₃ := ⟨h₂.1.trans h₁.1, h₂.2.trans h₁.2⟩

theorem sameTables_savePendingBlock (w : World) (b : Block) :
    SameTables w (w.savePendingBlock b) := ⟨rfl, rfl⟩

theorem sameTables_confirmBlock (w : World) (b : Block) (o : Bool) :
    SameTables w (w.confirmBlock b o) := ⟨by simp, by simp⟩

/-- A confirm leaves the state machine where it was. -/
@[simp] theorem confirmBlock_latest (w : World) (b : Block) (o : Bool) :
    (w.confirmBlock b o).latest = w.latest := by
  unfold confirmBlock; split <;> rfl

/-- A non-orphan confirm makes the block the ledger tip. -/
theorem confirmBlock_tip (w : World) (b : Block) :
    (w.confirmBlock b false).tipBlockid = b.blockid ∧
      (w.confirmBlock b false).trunkHeight = b.height := ⟨rfl, rfl⟩

/-- An orphan confirm leaves the ledger tip where it was. -/
theorem confirmBlock_orphan (w : World) (b : Block) :
    (w.confirmBlock b true).tipBlockid = w.tipBlockid ∧
      (w.confirmBlock b true).trunkHeight = w.trunkHeight := ⟨rfl, rfl⟩

/-- A confirmed block is in the ledger afterwards. -/
theorem existBlock_confirmBlock (w : World) (b : Block) (o : Bool) (id : BlockId) :
    (w.confirmBlock b o).existBlock id = (b.blockid == id || w.existBlock id) := by
  unfold confirmBlock existBlock; split <;> simp

/-! ## What truncation keeps

The scan's three cases, one equation each, and what it keeps, by
induction along its own recursion (`truncateScan.induct`). -/

section Scan

variable {x : BlockId} {b : Block} {bs kept : List Block} {d : List BlockId}

/-- Before the scan meets `x` it keeps the block, and starts collecting at
block `x`. -/
theorem truncateScan_cons_none (hs : truncateScan x bs = (kept, none)) :
    truncateScan x (b :: bs) = (b :: kept, if b.blockid = x then some [x] else none) := by
  rw [truncateScan, hs]

/-- After it met `x`, the scan drops a block whose parent it collected. -/
theorem truncateScan_cons_drop (hs : truncateScan x bs = (kept, some d)) (hp : b.preHash ∈ d) :
    truncateScan x (b :: bs) = (kept, some (b.blockid :: d)) := by
  rw [truncateScan, hs]; exact if_pos hp

/-- After it met `x`, the scan keeps every other block. -/
theorem truncateScan_cons_keep (hs : truncateScan x bs = (kept, some d)) (hp : b.preHash ∉ d) :
    truncateScan x (b :: bs) = (b :: kept, some d) := by
  rw [truncateScan, hs]; exact if_neg hp

/-- Before the scan meets block `x` it keeps every block. -/
theorem truncateScan_of_none : truncateScan x bs = (kept, none) → kept = bs := by
  induction bs using truncateScan.induct x generalizing kept with
  | case1 => rintro ⟨⟩; rfl
  | case2 b bs k hs ih =>
    rw [truncateScan_cons_none hs, ih hs]
    split_ifs <;> rintro ⟨⟩; rfl
  | case3 b bs k d hs hp => rw [truncateScan_cons_drop hs hp]; rintro ⟨⟩
  | case4 b bs k d hs hp => rw [truncateScan_cons_keep hs hp]; rintro ⟨⟩

/-- The scan has met block `x` only if the blocks hold one. -/
theorem exists_of_truncateScan_some : (truncateScan x bs).2 = some d → ∃ b ∈ bs, b.blockid = x := by
  induction bs using truncateScan.induct x generalizing d with
  | case1 => rintro ⟨⟩
  | case2 b bs k hs =>
    rw [truncateScan_cons_none hs]
    split_ifs with hb <;> rintro ⟨⟩
    exact ⟨b, List.mem_cons_self _ _, hb⟩
  | case3 b bs k d' hs hp ih | case4 b bs k d' hs hp ih =>
    obtain ⟨c, hc, rfl⟩ := ih (by rw [hs])
    exact fun _ => ⟨c, List.mem_cons_of_mem _ hc, rfl⟩

/-- **The target survives.**  A ledger that holds block `x` still holds
one after the truncation to `x`. -/
theorem any_truncateScan :
    bs.any (·.blockid == x) = true → (truncateScan x bs).1.any (·.blockid == x) = true := by
  induction bs using truncateScan.induct x with
  | case1 => exact id
  | case2 b bs k hs => rw [truncateScan_cons_none hs, truncateScan_of_none hs]; exact id
  | case3 b bs k d hs hp ih | case4 b bs k d hs hp ih =>
    obtain ⟨c, hc, hcx⟩ := exists_of_truncateScan_some (by rw [hs])
    have hk := ih (List.any_eq_true.2 ⟨c, hc, beq_iff_eq.2 hcx⟩)
    rw [hs] at hk
    first | rw [truncateScan_cons_drop hs hp] | rw [truncateScan_cons_keep hs hp]
    simp [hk]

/-- **What truncation drops.**  A block the truncation to `x` drops has its
id among the ids the scan collected. -/
theorem truncateScan_dropped {q : Block} :
    q ∈ bs → q ∉ (truncateScan x bs).1 → ∃ d, (truncateScan x bs).2 = some d ∧ q.blockid ∈ d := by
  induction bs using truncateScan.induct x with
  | case1 => rintro ⟨⟩
  | case2 b bs k hs =>
    rw [truncateScan_cons_none hs, truncateScan_of_none hs]
    exact absurd
  | case3 b bs k d hs hp ih =>
    rw [truncateScan_cons_drop hs hp, hs] at *
    rintro (_ | ⟨_, hq⟩) hn
    · exact ⟨_, rfl, List.mem_cons_self _ _⟩
    · obtain ⟨_, ⟨⟩, h⟩ := ih hq hn
      exact ⟨_, rfl, List.mem_cons_of_mem _ h⟩
  | case4 b bs k d hs hp ih =>
    rw [truncateScan_cons_keep hs hp, hs] at *
    rintro (_ | ⟨_, hq⟩) hn
    · exact absurd (List.mem_cons_self _ _) hn
    · exact ih hq (fun h => hn (List.mem_cons_of_mem _ h))

end Scan

/-- A truncation keeps its target in the ledger. -/
theorem existBlock_truncate {w : World} {x : BlockId} (h : Int) (hx : w.existBlock x = true) :
    (w.truncate x h).existBlock x = true :=
  any_truncateScan hx

end World

/-! ## A node at genesis -/

/-- The genesis block `[0]`. -/
def genesisBlock : Block where
  blockid := [0]
  preHash := []
  height := 0
  transactions := []
  proposer := ""
  timestamp := 0
  consensus := default
  size := 0

/-- A node whose ledger holds only its genesis block, with the state
machine on it, nothing pending, no side table rows and no sync under way. -/
def genesisWorld : World where
  tipBlockid := [0]
  trunkHeight := 0
  blocks := [genesisBlock]
  pending := []
  latest := [0]
  table := fun _ => none
  batch := []
  inSyncTargetHeight := 0
  inSyncTargetBlockId := []

end XuperMiner
