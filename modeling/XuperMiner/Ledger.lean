import Mathlib.Data.List.Chain
import XuperMiner.Loop

/-!
# XuperMiner.Ledger

The blocks the miner hands to `Ledger.ConfirmBlock`, and the truncations
it asks of `Ledger.Truncate`, over whole runs of `Miner.Start` and the
ingress thread's `ProcBlock` calls.

The miner confirms blocks on two paths: `mining` confirms the block it
packed on the state tip, and `syncBlock` confirms, oldest first, the chain
`downloadMissBlock` walked back from a target until it met a block the
ledger holds.  Either way a block goes to the ledger only after its parent
(`pre_hash`) has.  `mining` may first truncate the ledger to a block
consensus names, which discards that block's descendants.  The ledger is
modelled as the list of the blocks it holds, newest first.  Between
truncations a run only puts in front of that list blocks naming a block
behind them (`LinkedOver`); across truncations it keeps the list *linked*:
every block it did not start with names as parent a block behind it
(`LinkedFrom`).  Two collaborator contracts are needed, and nothing else:

* peers answer `GET_BLOCK(id)` with block `id` (`HonestPeers`): `getBlock`
  does not compare the ids, and a stray reply makes the backfill confirm a
  block whose parent the ledger lacks (the example after
  `procBlock_grows`);
* `Ledger.QueryBlockHeader(target)` answers only for blocks the ledger
  holds (`MiningEnv.HeaderHonest`), so a truncation target is a ledger
  block.

The main results:

* `trySyncBlock_accepted` — a `trySyncBlock` on a pushed block that returns
  `nil` leaves the block in the ledger, unless it skipped it under the
  lock.  `ProcBlock` checks the in-sync record before it takes
  `minerMutex`; runs may split the two (`Action.procChecks`,
  `Action.lockSync`), and the example after this theorem is a push that
  returns `nil` for a block the ledger never takes;
* `run_ledger_linked` — every run keeps the ledger linked, truncations
  included, and the ledger tip and the state tip on ledger blocks;
* `run_ledger_grows` — from any point of a run on, as long as consensus
  asks for no truncation, the ledger only grows, in front, by blocks
  naming a parent behind them.
-/

namespace XuperMiner

/-! ## Ledgers grown by linked blocks -/

/-- `new ++ old` is the ledger `old` after it accepted the blocks of `new`,
newest first, each naming as parent (`pre_hash`) a block the ledger held
when it was accepted. -/
def LinkedOver : List Block → List Block → Prop
  | [], _ => True
  | b :: new, old => (new ++ old).any (·.blockid == b.preHash) = true ∧ LinkedOver new old

instance decLinkedOver : (new old : List Block) → Decidable (LinkedOver new old)
  | [], _ => isTrue trivial
  | _ :: new, old =>
    haveI := decLinkedOver new old
    inferInstanceAs (Decidable (_ ∧ _))

/-- Linked growths compose. -/
theorem LinkedOver.append : ∀ {n₂ n₁ old : List Block},
    LinkedOver n₂ (n₁ ++ old) → LinkedOver n₁ old → LinkedOver (n₂ ++ n₁) old
  | [], _, _, _, h₁ => h₁
  | _ :: _, _, _, ⟨hb, h₂⟩, h₁ =>
    ⟨by simpa only [List.append_eq, List.append_assoc] using hb, LinkedOver.append h₂ h₁⟩

/-- The ledger tip and the state tip are blocks of the ledger. -/
structure World.Anchored (w : World) : Prop where
  tip : w.existBlock w.tipBlockid = true
  latest : w.existBlock w.latest = true

@[simp] theorem World.existBlock_moveState (w : World) (x id : BlockId) :
    (w.moveState x).existBlock id = w.existBlock id := rfl

/-- A ledger that grew in front keeps every block it had. -/
theorem World.existBlock_of_blocks {w w' : World} {new : List Block}
    (h : w'.blocks = new ++ w.blocks) {id : BlockId} (he : w.existBlock id = true) :
    w'.existBlock id = true := by
  simp only [World.existBlock] at he ⊢
  rw [h, List.any_append, he, Bool.or_true]

/-- `w'` is `w` after the ledger accepted blocks that each name a parent
the ledger held, with the tips kept on ledger blocks. -/
structure Grows (w w' : World) : Prop where
  blocks : ∃ new, w'.blocks = new ++ w.blocks ∧ LinkedOver new w.blocks
  anchored : w.Anchored → w'.Anchored

namespace Grows

variable {w w₁ w₂ w₃ : World}

theorem refl (w : World) : Grows w w := ⟨⟨[], rfl, trivial⟩, id⟩

theorem trans (h₁ : Grows w₁ w₂) (h₂ : Grows w₂ w₃) : Grows w₁ w₃ := by
  obtain ⟨n₁, e₁, l₁⟩ := h₁.blocks
  obtain ⟨n₂, e₂, l₂⟩ := h₂.blocks
  refine ⟨⟨n₂ ++ n₁, by rw [e₂, e₁, List.append_assoc], ?_⟩, h₂.anchored ∘ h₁.anchored⟩
  exact LinkedOver.append (e₁ ▸ l₂) l₁

/-- A block of the ledger stays in it. -/
theorem existBlock (h : Grows w₁ w₂) {id : BlockId} (he : w₁.existBlock id = true) :
    w₂.existBlock id = true := by
  obtain ⟨new, e, -⟩ := h.blocks
  exact World.existBlock_of_blocks e he

/-- An update that leaves the ledger and both tips alone. -/
theorem of_eq (hb : w₂.blocks = w₁.blocks) (ht : w₂.tipBlockid = w₁.tipBlockid)
    (hl : w₂.latest = w₁.latest) : Grows w₁ w₂ where
  blocks := ⟨[], hb, trivial⟩
  anchored h := ⟨by rw [World.existBlock, hb, ht]; exact h.tip,
    by rw [World.existBlock, hb, hl]; exact h.latest⟩

/-- Saving a pending block. -/
theorem savePendingBlock (w : World) (b : Block) : Grows w (w.savePendingBlock b) :=
  of_eq rfl rfl rfl

/-- A walk of the state machine to a ledger block. -/
theorem moveState {x : BlockId} (hx : w.Anchored → w.existBlock x = true) :
    Grows w (w.moveState x) where
  blocks := ⟨[], rfl, trivial⟩
  anchored h := ⟨h.tip, hx h⟩

/-- Confirming a block whose parent the ledger holds. -/
theorem confirmBlock {b : Block} (o : Bool) (hp : w.existBlock b.preHash = true) :
    Grows w (w.confirmBlock b o) where
  blocks := ⟨[b], by unfold World.confirmBlock; split <;> rfl, hp, trivial⟩
  anchored h := by
    refine ⟨?_, ?_⟩
    · cases o
      · simp [World.existBlock_confirmBlock, (w.confirmBlock_tip b).1]
      · simp [World.existBlock_confirmBlock, (w.confirmBlock_orphan b).1, h.tip]
    · simp [World.existBlock_confirmBlock, h.latest]

end Grows

/-! ## Ledgers linked back to where they started -/

/-- Every block of `bs` (newest first) that is not one of `base` names as
parent a block behind it.  Unlike `LinkedOver`, this survives a
truncation, which drops blocks from inside the list. -/
def LinkedFrom (base : List Block) : List Block → Prop
  | [] => True
  | b :: bs => (b ∈ base ∨ bs.any (·.blockid == b.preHash) = true) ∧ LinkedFrom base bs

instance decLinkedFrom (base : List Block) : (bs : List Block) → Decidable (LinkedFrom base bs)
  | [] => isTrue trivial
  | _ :: bs =>
    haveI := decLinkedFrom base bs
    inferInstanceAs (Decidable (_ ∧ _))

/-- The blocks of `base` are linked back to `base`. -/
theorem LinkedFrom.of_subset {base : List Block} :
    ∀ {bs : List Block}, (∀ b ∈ bs, b ∈ base) → LinkedFrom base bs
  | [], _ => trivial
  | b :: _, h => ⟨.inl (h b (List.mem_cons_self _ _)),
      LinkedFrom.of_subset fun c hc => h c (List.mem_cons_of_mem _ hc)⟩

/-- Blocks put in front, each naming a parent behind it, keep a ledger
linked. -/
theorem LinkedFrom.append {base old : List Block} (ho : LinkedFrom base old) :
    ∀ {new : List Block}, LinkedOver new old → LinkedFrom base (new ++ old)
  | [], _ => ho
  | _ :: _, ⟨hb, hn⟩ => ⟨.inr hb, LinkedFrom.append ho hn⟩

/-- **Truncation keeps a ledger linked.**  A block the truncation keeps
keeps its parents: a dropped parent would make it a descendant of the
target as well. -/
theorem linkedFrom_truncateScan {base : List Block} {x : BlockId} {bs : List Block} :
    LinkedFrom base bs → LinkedFrom base (World.truncateScan x bs).1 := by
  induction bs using World.truncateScan.induct x with
  | case1 => exact id
  | case2 b bs k hs =>
    rw [World.truncateScan_cons_none hs, World.truncateScan_of_none hs]; exact id
  | case3 b bs k d hs hp ih =>
    rw [World.truncateScan_cons_drop hs hp]
    rw [hs] at ih
    exact fun h => ih h.2
  | case4 b bs k d hs hp ih =>
    rw [World.truncateScan_cons_keep hs hp]
    rw [hs] at ih
    rintro ⟨hb, hbs⟩
    refine ⟨hb.imp_right fun hq => ?_, ih hbs⟩
    obtain ⟨q, hq, hqp⟩ := List.any_eq_true.1 hq
    -- the parent was kept: a dropped one would have had `b` dropped too
    have hkept : q ∈ k := by
      by_contra hk
      have hd := World.truncateScan_dropped hq (by rw [hs]; exact hk)
      rw [hs] at hd
      obtain ⟨_, ⟨⟩, hqd⟩ := hd
      exact hp (beq_iff_eq.1 hqp ▸ hqd)
    exact List.any_eq_true.2 ⟨q, hkept, hqp⟩

/-- `w'` is `w` after updates that keep the ledger linked back to `base`
and the tips on ledger blocks. -/
structure Keeps (base : List Block) (w w' : World) : Prop where
  linked : LinkedFrom base w.blocks → LinkedFrom base w'.blocks
  anchored : w.Anchored → w'.Anchored

theorem Keeps.refl {base : List Block} (w : World) : Keeps base w w := ⟨id, id⟩

theorem Keeps.trans {base : List Block} {w₁ w₂ w₃ : World} (h₁ : Keeps base w₁ w₂)
    (h₂ : Keeps base w₂ w₃) : Keeps base w₁ w₃ :=
  ⟨h₂.linked ∘ h₁.linked, h₂.anchored ∘ h₁.anchored⟩

/-- Linked growth keeps a ledger linked. -/
theorem Grows.keeps {base : List Block} {w w' : World} (h : Grows w w') : Keeps base w w' where
  linked hl := by
    obtain ⟨new, e, hn⟩ := h.blocks
    rw [e]
    exact hl.append hn
  anchored := h.anchored

/-- A truncation to a ledger block the state machine is at keeps the
ledger linked and both tips on that block. -/
theorem Keeps.truncate {base : List Block} {w : World} {x : BlockId} (h : Int)
    (hx : w.existBlock x = true) (hl : w.latest = x) : Keeps base w (w.truncate x h) where
  linked := linkedFrom_truncateScan
  anchored _ := ⟨World.existBlock_truncate h hx, by
    rw [World.truncate_latest, hl]; exact World.existBlock_truncate h hx⟩

/-! ## The backfill with honest peers -/

/-- Saving a pending block answers lookups of its id with it. -/
theorem World.getPendingBlock_savePendingBlock (w : World) (b : Block) (id : BlockId) :
    (w.savePendingBlock b).getPendingBlock id =
      if b.blockid = id then some b else w.getPendingBlock id := by
  by_cases h : b.blockid = id <;>
    simp [World.getPendingBlock, World.savePendingBlock, List.find?_cons, h]

/-- One iteration of the backfill loop: it returns, or moves to the pending
block under `pre_hash`, or to the block a `GET_BLOCK` reply carried, which
it saves. -/
theorem downloadLoop_succ_cases {env : SyncEnv} {fuel i : Nat} {b : Block} {ids : List BlockId}
    {w : World} {r : Option (World × Except Err (List BlockId))}
    (h : downloadLoop env (fuel + 1) i b ids w = r) :
    (w.existBlock b.preHash = true ∧ r = some (w, .ok ids)) ∨ (∃ e, r = some (w, .error e)) ∨
    (∃ block, w.getPendingBlock b.preHash = some block ∧
      r = downloadLoop env fuel i block (ids ++ [block.blockid]) w) ∨
    (∃ block, w.getPendingBlock b.preHash = none ∧ getBlock env i b.preHash = .ok block ∧
      r = downloadLoop env fuel (i + 1) block (ids ++ [block.blockid]) (w.savePendingBlock block)) := by
  subst h
  rw [downloadLoop]
  split_ifs with hex
  · exact .inl ⟨hex, rfl⟩
  · exact .inr (.inl ⟨_, rfl⟩)
  rcases w.getPendingBlock b.preHash with _ | block
  · dsimp only
    rcases getBlock env i b.preHash with e | block
    · exact .inr (.inl ⟨e, rfl⟩)
    dsimp only
    rcases env.savePendingBlock block with e | ⟨⟩
    · exact .inr (.inl ⟨e, rfl⟩)
    · exact .inr (.inr (.inr ⟨block, rfl, rfl, rfl⟩))
  · exact .inr (.inr (.inl ⟨block, rfl, rfl⟩))

/-- With honest peers the backfill saves a block only under an id the
pending store lacks, so a lookup that answered keeps its answer. -/
theorem downloadLoop_getPendingBlock {env : SyncEnv} (hon : HonestPeers env) {fuel i : Nat}
    {b : Block} {ids : List BlockId} {w w' : World} {r : Except Err (List BlockId)}
    (h : downloadLoop env fuel i b ids w = some (w', r)) {id : BlockId} {c : Block}
    (hc : w.getPendingBlock id = some c) : w'.getPendingBlock id = some c := by
  induction fuel generalizing i b ids w with
  | zero => cases h
  | succ fuel ih =>
    rcases downloadLoop_succ_cases h with ⟨-, h⟩ | ⟨e, h⟩ | ⟨block, -, h⟩ | ⟨block, hn, hg, h⟩
    · cases h; exact hc
    · cases h; exact hc
    · exact ih h.symm hc
    · refine ih h.symm ?_
      rw [World.getPendingBlock_savePendingBlock, if_neg fun he => ?_, hc]
      rw [hon i _ _ hg] at he
      rw [he, hc] at hn
      cases hn

/-- With honest peers, a backfill that returns ids walked parent links from
`b` to a block whose parent the ledger holds, and the pending store
answers each block of the walk under its id. -/
theorem downloadLoop_chain {env : SyncEnv} (hon : HonestPeers env) {fuel i : Nat} {b : Block}
    {ids ids' : List BlockId} {w w' : World} (hb : w.getPendingBlock b.blockid = some b)
    (h : downloadLoop env fuel i b ids w = some (w', .ok ids')) :
    ∃ bs, ids' = ids ++ bs.map (·.blockid) ∧ List.Chain (fun c c' => c'.blockid = c.preHash) b bs ∧
      w'.existBlock ((b :: bs).getLast (List.cons_ne_nil _ _)).preHash = true ∧
      ∀ c ∈ b :: bs, w'.getPendingBlock c.blockid = some c := by
  induction fuel generalizing i b ids w with
  | zero => cases h
  | succ fuel ih =>
    rcases downloadLoop_succ_cases h with ⟨hex, h⟩ | ⟨e, h⟩ | ⟨block, hp, h⟩ | ⟨block, hn, hg, h⟩
    · cases h
      exact ⟨[], by simp, .nil, hex, by simpa using hb⟩
    · cases h
    · have hid := (getPendingBlock_blockid hp).1
      obtain ⟨bs, rfl, hc, he, hm⟩ := ih (by rw [hid]; exact hp) h.symm
      exact ⟨block :: bs, by simp, .cons hid hc, by simpa using he,
        List.forall_mem_cons.2 ⟨downloadLoop_getPendingBlock hon h.symm hb, hm⟩⟩
    · have hid := hon i _ _ hg
      have hb' : (w.savePendingBlock block).getPendingBlock b.blockid = some b := by
        rw [World.getPendingBlock_savePendingBlock, if_neg fun he => ?_, hb]
        rw [← he, hid, hn] at hb
        cases hb
      obtain ⟨bs, rfl, hc, he, hm⟩ :=
        ih (by rw [World.getPendingBlock_savePendingBlock, if_pos rfl]) h.symm
      exact ⟨block :: bs, by simp, .cons hid hc, by simpa using he,
        List.forall_mem_cons.2 ⟨downloadLoop_getPendingBlock hon h.symm hb', hm⟩⟩

/-- The same for `downloadMissBlock`, whose walk starts at the target it
saved first. -/
theorem downloadMissBlock_chain {env : SyncEnv} (hon : HonestPeers env) {fuel : Nat}
    {target : Block} {w w' : World} {ids : List BlockId}
    (h : downloadMissBlock env fuel target w = some (w', .ok ids)) :
    ∃ bs, ids = (target :: bs).map (·.blockid) ∧
      List.Chain (fun c c' => c'.blockid = c.preHash) target bs ∧
      w'.existBlock ((target :: bs).getLast (List.cons_ne_nil _ _)).preHash = true ∧
      ∀ c ∈ target :: bs, w'.getPendingBlock c.blockid = some c := by
  unfold downloadMissBlock at h
  split at h
  · cases h
  obtain ⟨bs, rfl, hc, he, hm⟩ :=
    downloadLoop_chain hon (by rw [World.getPendingBlock_savePendingBlock, if_pos rfl]) h
  exact ⟨bs, rfl, hc, he, hm⟩

/-- The backfill only saves pending blocks. -/
theorem downloadLoop_grows {env : SyncEnv} {fuel i : Nat} {b : Block} {ids : List BlockId}
    {w w' : World} {r : Except Err (List BlockId)} (h : downloadLoop env fuel i b ids w = some (w', r)) :
    Grows w w' := by
  induction fuel generalizing i b ids w with
  | zero => cases h
  | succ fuel ih =>
    rcases downloadLoop_succ_cases h with ⟨-, h⟩ | ⟨e, h⟩ | ⟨block, -, h⟩ | ⟨block, -, -, h⟩
    · cases h; exact .refl _
    · cases h; exact .refl _
    · exact ih h.symm
    · exact (Grows.savePendingBlock w block).trans (ih h.symm)

theorem downloadMissBlock_grows {env : SyncEnv} {fuel : Nat} {target : Block} {w w' : World}
    {r : Except Err (List BlockId)} (h : downloadMissBlock env fuel target w = some (w', r)) :
    Grows w w' := by
  unfold downloadMissBlock at h
  split at h
  · cases h; exact .refl _
  · exact (Grows.savePendingBlock w target).trans (downloadLoop_grows h)

/-! ## Confirming the walked chain -/

/-- What one block of `batchConfirmBlock` leaves: the world as it was, with
an error, or the block confirmed, the state machine perhaps played onto it. -/
theorem confirmPending_cases (env : SyncEnv) (b : Block) (w : World) :
    ((confirmPending env b w).1 = w ∧ (confirmPending env b w).2 ≠ .ok ()) ∨
      ∃ o, (confirmPending env b w).1 = w.confirmBlock b o ∨
        (confirmPending env b w).1 = (w.confirmBlock b o).moveState b.blockid := by
  unfold confirmPending
  dsimp only
  split_ifs
  iterate 3 exact .inl ⟨rfl, nofun⟩
  all_goals
    refine .inr ⟨(env.confirmBlock b).orphan, ?_⟩
    rcases env.playAndRepost b with _ | ⟨⟩ <;> rcases env.processConfirmBlock b with _ | ⟨⟩ <;> simp

/-- `confirmPending` only adds its block to the ledger, and leaves the
pending store alone. -/
theorem confirmPending_blocks (env : SyncEnv) (b : Block) (w : World) :
    ((confirmPending env b w).1.blocks = w.blocks ∨
      (confirmPending env b w).1.blocks = b :: w.blocks) ∧
    (confirmPending env b w).1.pending = w.pending := by
  have hc : ∀ o, (w.confirmBlock b o).blocks = b :: w.blocks ∧ (w.confirmBlock b o).pending = w.pending :=
    fun o => by unfold World.confirmBlock; split <;> exact ⟨rfl, rfl⟩
  rcases confirmPending_cases env b w with ⟨h, -⟩ | ⟨o, h | h⟩ <;> rw [h]
  exacts [⟨.inl rfl, rfl⟩, ⟨.inr (hc o).1, (hc o).2⟩, ⟨.inr (hc o).1, (hc o).2⟩]

/-- A `confirmPending` that returns `nil` confirmed its block. -/
theorem confirmPending_ok {env : SyncEnv} {b : Block} {w : World}
    (h : (confirmPending env b w).2 = .ok ()) : (confirmPending env b w).1.existBlock b.blockid = true := by
  rcases confirmPending_cases env b w with ⟨-, hn⟩ | ⟨o, he | he⟩
  · exact absurd h hn
  all_goals (rw [he]; simp [World.existBlock_confirmBlock])

/-- Confirming a block whose parent the ledger holds grows the ledger. -/
theorem confirmPending_grows (env : SyncEnv) {b : Block} {w : World}
    (hp : w.existBlock b.preHash = true) : Grows w (confirmPending env b w).1 := by
  rcases confirmPending_cases env b w with ⟨h, -⟩ | ⟨o, h | h⟩ <;> rw [h]
  · exact .refl w
  · exact .confirmBlock o hp
  · exact (Grows.confirmBlock o hp).trans
      (.moveState fun _ => by simp [World.existBlock_confirmBlock])

/-- The loop of `batchConfirmBlock` only adds blocks to the ledger; when it
returns `nil`, every id it was given names a ledger block. -/
theorem confirmEach_blocks (env : SyncEnv) (ids : List BlockId) (w : World) :
    (∃ new, (confirmEach env ids w).1.blocks = new ++ w.blocks) ∧
      ((confirmEach env ids w).2 = .ok () → ∀ id ∈ ids, (confirmEach env ids w).1.existBlock id = true) := by
  induction ids generalizing w with
  | nil => exact ⟨⟨[], rfl⟩, fun _ _ h => absurd h (List.not_mem_nil _)⟩
  | cons id ids ih =>
    rw [confirmEach]
    rcases hp : w.getPendingBlock id with _ | b
    · exact ⟨⟨[], rfl⟩, nofun⟩
    have hid := (getPendingBlock_blockid hp).1
    dsimp only
    have hb := (confirmPending_blocks env b w).1
    rcases hc : confirmPending env b w with ⟨w₁, _ | ⟨⟩⟩ <;> rw [hc] at hb
    · refine ⟨?_, nofun⟩
      rcases hb with hb | hb
      exacts [⟨[], hb⟩, ⟨[b], hb⟩]
    obtain ⟨⟨new, hn⟩, hok⟩ := ih w₁
    refine ⟨?_, fun h a ha => ?_⟩
    · rcases hb with hb | hb
      exacts [⟨new, by rw [hn, hb]⟩, ⟨new ++ [b], by rw [hn, hb, List.append_assoc]; rfl⟩]
    rcases List.mem_cons.1 ha with rfl | ha
    · have he := @confirmPending_ok env b w (by rw [hc])
      rw [hc, hid] at he
      exact World.existBlock_of_blocks hn he
    · exact hok h a ha

/-- The pending store answers only by what it holds. -/
theorem World.getPendingBlock_of_pending {w w' : World} (h : w'.pending = w.pending) (id : BlockId) :
    w'.getPendingBlock id = w.getPendingBlock id := by
  unfold World.getPendingBlock; rw [h]

/-- Confirming, oldest first, a chain of parent links whose first block's
parent the ledger holds, each block the one the pending store answers
under its id, grows the ledger by linked blocks. -/
theorem confirmEach_grows (env : SyncEnv) : ∀ (cs : List Block) (w : World),
    (∀ c ∈ cs, w.getPendingBlock c.blockid = some c) →
    List.Chain' (fun c c' => c'.preHash = c.blockid) cs →
    (∀ c ∈ cs.head?, w.existBlock c.preHash = true) →
    Grows w (confirmEach env (cs.map (·.blockid)) w).1
  | [], w, _, _, _ => .refl w
  | c :: cs, w, hpend, hchain, hfirst => by
    rw [List.map_cons, confirmEach, hpend c (List.mem_cons_self _ _)]
    dsimp only
    have hg := confirmPending_grows env (hfirst c rfl)
    have hpe := (confirmPending_blocks env c w).2
    have hok := @confirmPending_ok env c w
    rcases hc : confirmPending env c w with ⟨w₁, _ | ⟨⟩⟩ <;> rw [hc] at hg hpe hok
    · exact hg
    obtain ⟨hhead, htail⟩ := List.chain'_cons'.1 hchain
    refine hg.trans (confirmEach_grows env cs w₁ (fun c' hc' => ?_) htail fun c' hc' => ?_)
    · rw [World.getPendingBlock_of_pending hpe]
      exact hpend c' (List.mem_cons_of_mem _ hc')
    · rw [hhead c' hc']
      exact hok rfl

/-! ## `syncBlock`, `trySyncBlock` and `ProcBlock` -/

/-- The ids a backfill returns start with its target's. -/
theorem downloadMissBlock_target_mem {env : SyncEnv} {fuel : Nat} {target : Block} {w w' : World}
    {ids : List BlockId} (h : downloadMissBlock env fuel target w = some (w', .ok ids)) :
    target.blockid ∈ ids := by
  unfold downloadMissBlock at h
  split at h
  · cases h
  · obtain ⟨bs, rfl, -⟩ := downloadLoop_ok h
    exact List.mem_cons_self _ _

/-- The deferred repair walks the state machine to the ledger tip. -/
theorem repairWalk_grows (o : Except Err Unit) (w : World) :
    Grows w (repairWalk o w) ∧ (repairWalk o w).blocks = w.blocks := by
  unfold repairWalk
  split
  · split
    · exact ⟨.moveState fun h => h.tip, rfl⟩
    · exact ⟨.refl w, rfl⟩
  · exact ⟨.refl w, rfl⟩

/-- `syncBlock` with honest peers grows the ledger by linked blocks; when it
returns `nil` it skipped its target, or the target is in the ledger. -/
theorem syncBlock_grows {env : SyncEnv} {fuel : Nat} {target : Block} {w w' : World}
    {r : Except Err Unit} (h : syncBlock env fuel target w = some (w', r)) :
    (HonestPeers env → Grows w w') ∧
      (r = .ok () → target.height < w.trunkHeight ∨ target.blockid = w.tipBlockid ∨
        w'.existBlock target.blockid = true) := by
  unfold syncBlock at h
  split_ifs at h with hskip
  · cases h
    exact ⟨fun _ => .refl w, fun _ => hskip.elim .inl (.inr ∘ .inl)⟩
  rcases hd : downloadMissBlock env fuel target w with _ | ⟨w₁, e | ids⟩ <;> rw [hd] at h
  · cases h
  · cases h
    exact ⟨fun _ => downloadMissBlock_grows hd, nofun⟩
  dsimp only at h
  have hmem := downloadMissBlock_target_mem hd
  rcases hb : batchConfirmBlock env ids w₁ with ⟨w₂, r₂⟩
  rw [hb] at h
  cases h
  have hr := repairWalk_grows env.syncWalk w₂
  rw [batchConfirmBlock, if_neg (by have := List.length_pos_of_mem hmem; omega)] at hb
  refine ⟨fun hon => ?_, fun hok => .inr (.inr ?_)⟩
  · obtain ⟨bs, rfl, hc, he, hm⟩ := downloadMissBlock_chain hon hd
    have hg := confirmEach_grows env (target :: bs).reverse w₁
      (fun c hc => hm c (List.mem_reverse.1 hc)) (List.chain'_reverse.2 (hc.imp fun _ _ => Eq.symm))
      (by rw [List.head?_reverse, List.getLast?_eq_getLast _ (List.cons_ne_nil _ _)]
          rintro c ⟨⟩
          exact he)
    rw [List.map_reverse, hb] at hg
    exact (downloadMissBlock_grows hd).trans (hg.trans hr.1)
  · have hok₂ : r₂ = .ok () := by cases r₂ <;> simp_all
    have he := (confirmEach_blocks env ids.reverse w₁).2 (by rw [hb, hok₂]) target.blockid
      (List.mem_reverse.2 hmem)
    rw [hb] at he
    simpa [World.existBlock, hr.2] using he

/-- Resetting the in-sync record touches neither the ledger nor the state. -/
theorem Grows.resetInSync (w : World) : Grows w (resetInSync w) := .of_eq rfl rfl rfl

/-- The critical section of `trySyncBlock`: with honest peers it grows the
ledger by linked blocks; when it returns `nil` it skipped its target
(the in-sync record's, below the trunk, the ledger tip) or the target is
in the ledger. -/
theorem syncLocked_grows {env : SyncEnv} {fuel : Nat} {b : Block} {w w' : World}
    {r : Except Err Unit} (h : syncLocked env fuel b w = some (w', r)) :
    (HonestPeers env → Grows w w') ∧
      (r = .ok () → b.height < w.inSyncTargetHeight ∨ b.blockid = w.inSyncTargetBlockId ∨
        b.height < w.trunkHeight ∨ b.blockid = w.tipBlockid ∨ w'.existBlock b.blockid = true) := by
  unfold syncLocked at h
  split_ifs at h with hrec hex
  · cases h
    exact ⟨fun _ => .refl w, fun _ => hrec.elim .inl (.inr ∘ .inl)⟩
  · cases h
    exact ⟨fun _ => .refl w, fun _ => .inr (.inr (.inr (.inr hex)))⟩
  dsimp only at h
  split at h
  · cases h
    exact ⟨fun _ => .resetInSync _, nofun⟩
  rename_i w₁ hw
  have g₀ : Grows w { w with inSyncTargetHeight := b.height, inSyncTargetBlockId := b.blockid } :=
    .of_eq rfl rfl rfl
  have hw₁ : Grows w w₁ ∧ w₁.trunkHeight = w.trunkHeight ∧ w₁.tipBlockid = w.tipBlockid := by
    split at hw
    · split at hw
      · cases hw
        exact ⟨g₀.trans (.moveState fun h => h.tip), rfl, rfl⟩
      · cases hw
    · cases hw
      exact ⟨g₀, rfl, rfl⟩
  split at h
  · cases h
  · rename_i w₂ e hs
    cases h
    exact ⟨fun hon => hw₁.1.trans (((syncBlock_grows hs).1 hon).trans (.resetInSync _)), nofun⟩
  · rename_i w₂ hs
    cases h
    obtain ⟨hg, hok⟩ := syncBlock_grows hs
    refine ⟨fun hon => hw₁.1.trans (hg hon), fun _ => ?_⟩
    rw [← hw₁.2.1, ← hw₁.2.2]
    exact .inr (.inr (hok rfl))

/-- `trySyncBlock`, on a pushed target or the network's longest block, with
honest peers grows the ledger by linked blocks. -/
theorem trySyncBlock_grows {env : SyncEnv} {fuel : Nat} {target : Option Block} {w w' : World}
    {r : Except Err Unit} (hon : HonestPeers env) (h : trySyncBlock env fuel target w = some (w', r)) :
    Grows w w' := by
  unfold trySyncBlock at h
  repeat' split at h
  all_goals first | exact (syncLocked_grows h).1 hon | (cases h; exact .refl w)

/-- So does `ProcBlock`. -/
theorem procBlock_grows {env : IngressEnv} {fuel : Nat} {block : Option Block} {w w' : World}
    {r : Except Err Unit} (hon : HonestPeers env.sync) (h : procBlock env fuel block w = some (w', r)) :
    Grows w w' := by
  unfold procBlock at h
  split at h
  · cases h; exact .refl w
  · exact trySyncBlock_grows hon h

/-- An ingress that accepts everything, behind peers that answer every
`GET_BLOCK` with `strayBlock`. -/
def strayIngress : IngressEnv := { acceptingIngress with sync := strayPeers }

/-- Without honest peers the ledger takes a block whose parent it lacks.
`ProcBlock` of `orphanTarget`, whose parent `[2]` the node lacks, confirms
the `[9]` a peer sent for `[2]`, then `orphanTarget` on top of it. -/
example :
    (procBlock strayIngress 2 (some orphanTarget) genesisWorld).map (·.1.blocks) =
        some ([orphanTarget, strayBlock] ++ genesisWorld.blocks) ∧
      ¬ LinkedOver [orphanTarget, strayBlock] genesisWorld.blocks :=
  ⟨rfl, by decide⟩

/-- **A sync to a pushed block that returns `nil`.**  When `trySyncBlock`
is handed a block, as `ProcBlock` hands it the block it admitted, and
returns `nil`, either it skipped the block under the lock (below the
in-sync height, the in-sync target, below the trunk height, or the ledger
tip) or the block is in the ledger afterwards, whatever the peers, the
pending store and the ledger answer.  `ProcBlock` checks the in-sync
record before it takes the lock, so another sync may move the record in
between and make this skip a block `ProcBlock` admitted (the example
below). -/
theorem trySyncBlock_accepted {env : SyncEnv} {fuel : Nat} {b : Block} {w w' : World}
    (h : trySyncBlock env fuel (some b) w = some (w', .ok ())) :
    b.height < w.inSyncTargetHeight ∨ b.blockid = w.inSyncTargetBlockId ∨
      b.height < w.trunkHeight ∨ b.blockid = w.tipBlockid ∨ w'.existBlock b.blockid = true :=
  (syncLocked_grows h).2 rfl

/-- Block `1` pushed to a node at genesis is in the ledger afterwards. -/
theorem trySyncBlock_accepted_chainBlock :
    let w' := ((trySyncBlock acceptingSync 1 (some (chainBlock 1)) genesisWorld).map Prod.fst).getD
      genesisWorld
    trySyncBlock acceptingSync 1 (some (chainBlock 1)) genesisWorld = some (w', .ok ()) ∧
      ((chainBlock 1).height < genesisWorld.inSyncTargetHeight ∨
        (chainBlock 1).blockid = genesisWorld.inSyncTargetBlockId ∨
        (chainBlock 1).height < genesisWorld.trunkHeight ∨
        (chainBlock 1).blockid = genesisWorld.tipBlockid ∨ w'.existBlock (chainBlock 1).blockid = true) :=
  ⟨rfl, @trySyncBlock_accepted acceptingSync 1 (chainBlock 1) genesisWorld _ rfl⟩

/-- A block at height `2` on a fork, whose parent `[9]` peers send. -/
def forkBlock : Block := { orphanTarget with preHash := [9] }

/-- Two racing pushes.  `ProcBlock` admits block `1`, above the trunk
height, and the fork block; the fork's sync takes `minerMutex` first and
moves the in-sync record to height `2`, so block `1`'s sync returns `nil`
and block `1` is not in the ledger. -/
example :
    let s := run (Sys.start genesisWorld) [.procChecks acceptingIngress 1 (some (chainBlock 1)),
      .procChecks strayIngress 2 (some forkBlock), .lockSync 1]
    admitBlock acceptingIngress (some (chainBlock 1)) genesisWorld = .ok (chainBlock 1) ∧
      genesisWorld.trunkHeight < (chainBlock 1).height ∧
      (trySyncBlock acceptingSync 1 (some (chainBlock 1)) s.world).map (·.2) = some (.ok ()) ∧
      (run s [.lockSync 0]).world.existBlock (chainBlock 1).blockid = false :=
  ⟨rfl, by decide, rfl, rfl⟩

/-! ## `mining` -/

/-- `Ledger.QueryBlockHeader` answers only for blocks of the ledger `w`: a
truncation target `ProcessBeforeMiner` names and the ledger answers for is
a ledger block. -/
def MiningEnv.HeaderHonest (env : MiningEnv) (w : World) : Prop :=
  ∀ t ext height, env.processBeforeMiner = .ok (some t, ext) → env.queryBlockHeader = .ok height →
    w.existBlock t = true

/-- A truncation whose target the ledger answers for walks the state
machine to the target and truncates the ledger to it: the ledger stays
linked, and both tips end on ledger blocks. -/
theorem truncateForMiner_keeps {base : List Block} {env : MiningEnv} {t : BlockId} {w : World}
    (ht : ∀ height, env.queryBlockHeader = .ok height → w.existBlock t = true) :
    Keeps base w (truncateForMiner env t w).1 := by
  unfold truncateForMiner
  rcases hq : env.queryBlockHeader with _ | height
  · exact .refl w
  have hm : Grows w (w.moveState t) := .moveState fun _ => ht height hq
  dsimp only
  rcases env.truncateWalk with _ | ⟨⟩
  · exact .refl w
  rcases env.truncate with _ | ⟨⟩
  · exact hm.keeps
  · exact hm.keeps.trans (.truncate height (ht height hq) rfl)

/-- The confirmation of a block whose parent the ledger holds: the block,
with the id consensus gave it, goes to the ledger, and the state machine
is played onto it. -/
theorem confirmBlockForMiner_grows {env : MiningEnv} {b : Block} {w : World}
    (hp : w.existBlock b.preHash = true) : Grows w (confirmBlockForMiner env b w).1 := by
  unfold confirmBlockForMiner
  rcases env.calculateBlock with _ | id
  · exact .refl w
  dsimp only
  have hc := @Grows.confirmBlock w { b with blockid := id } env.confirmBlock.orphan hp
  split_ifs
  · exact hc
  · rcases env.playForMiner with _ | ⟨⟩
    · exact hc
    · exact hc.trans (.moveState fun _ => by simp [World.existBlock_confirmBlock])
  · exact .refl w

/-- The stages of `mining`: a walk of the state machine to the ledger tip,
the truncation consensus asks for, if any, and the confirmation of a block
packed on the state tip.  Its world is the one the last stage it reached
left. -/
theorem mining_stages (env : MiningEnv) (flag : Bool) (w : World) :
    ∃ w₁ w₂, Grows w w₁ ∧
      (w₂ = w₁ ∨ ∃ t ext, env.processBeforeMiner = .ok (some t, ext) ∧
        w₂ = (truncateForMiner env t w₁).1) ∧
      ((mining env flag w).world = w₂ ∨
        ∃ b, b.preHash = w₂.latest ∧ (mining env flag w).world = (confirmBlockForMiner env b w₂).1) := by
  unfold mining
  rcases hw : miningWalk env w with _ | w₁
  · exact ⟨w, w, .refl w, .inl rfl, .inl rfl⟩
  have g₁ : Grows w w₁ := by rw [miningWalk_ok hw]; exact .moveState fun h => h.tip
  dsimp only
  rcases hp : env.processBeforeMiner with _ | ⟨target, extData⟩
  · exact ⟨w₁, w₁, g₁, .inl rfl, .inl rfl⟩
  dsimp only
  have h₂ : (miningTarget env target w₁).1 = w₁ ∨
      ∃ t ext, (.ok (target, extData) : Except Err (Option BlockId × ExtData)) = .ok (some t, ext) ∧
        (miningTarget env target w₁).1 = (truncateForMiner env t w₁).1 := by
    rcases target with _ | t
    · exact .inl rfl
    · refine .inr ⟨t, extData, rfl, ?_⟩
      rcases htr : truncateForMiner env t w₁ with ⟨w', _ | ⟨⟩⟩ <;> simp only [miningTarget, htr]
  rcases hm : miningTarget env target w₁ with ⟨w₂, _ | height⟩ <;> rw [hm] at h₂ <;> dsimp only at h₂ ⊢
  · exact ⟨w₁, w₂, g₁, h₂, .inl rfl⟩
  rcases hb : packBlock env.pack height env.now extData flag w₂ with _ | block
  · exact ⟨w₁, w₂, g₁, h₂, .inl rfl⟩
  obtain ⟨_, _, _, _, _, -, -, -, -, -, hpre, -⟩ := packBlock_ok hb
  exact ⟨w₁, w₂, g₁, h₂, .inr ⟨block, hpre, rfl⟩⟩

/-- `mining` from a state whose tips are ledger blocks, with the ledger
answering `QueryBlockHeader` honestly, keeps the ledger linked and both
tips on ledger blocks. -/
theorem mining_keeps {base : List Block} {env : MiningEnv} {flag : Bool} {w : World}
    (hon : env.HeaderHonest w) (ha : w.Anchored) : Keeps base w (mining env flag w).world := by
  obtain ⟨w₁, w₂, g₁, h₂, h₃⟩ := mining_stages env flag w
  have k : Keeps base w w₂ := by
    rcases h₂ with rfl | ⟨t, ext, hp, rfl⟩
    · exact g₁.keeps
    · exact g₁.keeps.trans (truncateForMiner_keeps fun height hq => g₁.existBlock (hon t ext height hp hq))
  rcases h₃ with h | ⟨b, hpre, h⟩ <;> rw [h]
  · exact k
  · exact k.trans (confirmBlockForMiner_grows (hpre ▸ (k.anchored ha).latest)).keeps

/-- Without a truncation `mining` only grows the ledger, by the block it
packed on the state tip. -/
theorem mining_grows {env : MiningEnv} {flag : Bool} {w : World} (hn : env.truncates = false)
    (ha : w.Anchored) : Grows w (mining env flag w).world := by
  obtain ⟨w₁, w₂, g₁, h₂, h₃⟩ := mining_stages env flag w
  obtain rfl : w₂ = w₁ := h₂.resolve_right fun ⟨t, ext, hp, _⟩ => by
    simp [MiningEnv.truncates, hp] at hn
  rcases h₃ with h | ⟨b, hpre, h⟩ <;> rw [h]
  · exact g₁
  · exact g₁.trans (confirmBlockForMiner_grows (hpre ▸ (g₁.anchored ha).latest))

/-! ## Whole runs -/

/-- Puts and writes on the confirm batch leave the ledger and both tips. -/
theorem Staged.grows {keys : Key → Prop} {w w' : World} (h : Staged keys w w') : Grows w w' := by
  obtain ⟨t, b, rfl⟩ := h.frame
  exact .of_eq rfl rfl rfl

/-- The collaborators an action consults answer honestly in the state `s`
it is taken in: peers answer `GET_BLOCK(id)` with block `id`, and the
ledger answers `QueryBlockHeader` only for its own blocks.  The peers of a
`ProcBlock` split at the lock are checked when it is admitted. -/
def Action.Honest (s : Sys) : Action → Prop
  | .miner env => HonestPeers env.sync ∧ env.mining.HeaderHonest s.world
  | .ingress env _ _ => HonestPeers env.sync
  | .procChecks env _ _ => HonestPeers env.sync
  | .lockSync _ => True
  | .stop => True

/-- Consensus asks the action's `mining`, if it makes one, for no
truncation. -/
def Action.NoTruncate : Action → Prop
  | .miner env => env.mining.truncates = false
  | _ => True

/-- The mining thread comes to the loop head only from the end of an
iteration. -/
theorem minerStep_walk {env : PhaseEnv} {s s' : Sys} (h : minerStep env s = some s')
    (hw : s'.loop.phase = .walk) : s.loop.phase = .finish := by
  unfold minerStep at h
  rcases hp : s.loop.phase <;> simp only [hp] at h <;> (try cases h) <;> try rfl
  all_goals revert hw
  · unfold walkStep; split_ifs <;> simp
  · unfold competeStep; split_ifs <;> simp
  · unfold readTermStep; split; split; split <;> simp
  · simp [updateCacheStep]
  · unfold syncStep at h
    split_ifs at h
    · obtain ⟨⟨w, r⟩, -, rfl⟩ := Option.map_eq_some'.1 h
      simp
    · cases h; simp
  · unfold mineStep; split_ifs <;> simp
  · simp [clearStep]
  · intro hw; rw [hp] at hw; cases hw

/-- The mining thread leaves the waiting `ProcBlock` calls alone. -/
theorem minerStep_waiting {env : PhaseEnv} {s s' : Sys} (h : minerStep env s = some s') :
    s'.waiting = s.waiting := by
  unfold minerStep at h
  rcases hp : s.loop.phase <;> simp only [hp] at h <;> (try cases h)
  · unfold walkStep; split_ifs <;> rfl
  · unfold competeStep; split_ifs <;> rfl
  · rfl
  · rfl
  · unfold syncStep at h
    split_ifs at h
    · obtain ⟨⟨w, r⟩, -, rfl⟩ := Option.map_eq_some'.1 h
      rfl
    · cases h; rfl
  · unfold mineStep; split_ifs <;> rfl
  · rfl
  · rfl
  · rfl

/-- What every state of an honest run from a start on `w₀` keeps: the
ledger is linked back to `w₀`'s, the two tips are ledger blocks, so is the
loop's snapshot of the ledger tip whenever the next iteration is to walk to
it, and the `ProcBlock` calls waiting for `minerMutex` have honest peers. -/
structure LedgerInv (w₀ : World) (s : Sys) : Prop where
  linked : LinkedFrom w₀.blocks s.world.blocks
  anchored : s.world.Anchored
  snapshot : s.loop.phase = .walk → s.isExit = false → s.world.existBlock s.loop.ledgerTipId = true
  waiting : ∀ p ∈ s.waiting, HonestPeers p.1.sync

/-- `Miner.Start` enters its loop with the invariant. -/
theorem ledgerInv_start {w : World} (ha : w.Anchored) : LedgerInv w (Sys.start w) :=
  ⟨.of_subset fun _ => id, ha, fun _ _ => ha.tip, fun _ h => by simp [Sys.start] at h⟩

/-- A step of the ingress thread or of the mining thread away from the loop
head: it keeps the invariant when it keeps the ledger linked and the tips
on ledger blocks, and grows the ledger when the loop's snapshot is to be
walked to. -/
theorem LedgerInv.next {w₀ : World} {s s' : Sys} (hi : LedgerInv w₀ s)
    (k : Keeps w₀.blocks s.world s'.world)
    (hsnap : s'.loop.phase = .walk → s'.isExit = false → s'.world.existBlock s'.loop.ledgerTipId = true)
    (hw : ∀ p ∈ s'.waiting, HonestPeers p.1.sync) : LedgerInv w₀ s' :=
  ⟨k.linked hi.linked, k.anchored hi.anchored, hsnap, hw⟩

/-- A step of the ingress thread, which grows the ledger and changes the
waiting calls, keeps the invariant: the loop's snapshot stays a ledger
block. -/
theorem LedgerInv.grow {w₀ : World} {s : Sys} {w : World} {q : List (IngressEnv × Nat × Block)}
    (hi : LedgerInv w₀ s) (g : Grows s.world w) (hq : ∀ p ∈ q, HonestPeers p.1.sync) :
    LedgerInv w₀ { s with world := w, waiting := q } :=
  hi.next g.keeps (fun hp he => g.existBlock (hi.snapshot hp he)) hq

/-- **One step of the mining thread**, with honest collaborators: it keeps
the ledger linked and the tips on ledger blocks, and only grows the ledger
unless consensus asks its `mining` for a truncation. -/
theorem minerStep_keeps {w₀ : World} {env : PhaseEnv} {s s' : Sys}
    (hA : (Action.miner env).Honest s) (hi : LedgerInv w₀ s) (h : minerStep env s = some s') :
    Keeps w₀.blocks s.world s'.world ∧ (env.mining.truncates = false → Grows s.world s'.world) := by
  have grow (g : Grows s.world s'.world) : Keeps w₀.blocks s.world s'.world ∧
      (env.mining.truncates = false → Grows s.world s'.world) := ⟨g.keeps, fun _ => g⟩
  unfold minerStep at h
  rcases hp : s.loop.phase <;> simp only [hp] at h <;> (try cases h)
  · refine grow ?_
    unfold walkStep
    split_ifs with hx
    · exact .refl _
    · split
      · exact .moveState fun _ => hi.snapshot hp (by simpa using hx)
      · exact .refl _
    · exact .refl _
  · refine grow ?_
    unfold competeStep
    split <;> exact .refl _
  · exact grow (readTermTable_staged env.termStatus env.termWritten s.world).grows
  · exact grow (updateCacheTable_staged env.cacheWritten s.world).grows
  · unfold syncStep at h
    split_ifs at h
    · obtain ⟨⟨w, r⟩, hs, rfl⟩ := Option.map_eq_some'.1 h
      exact grow (trySyncBlock_grows hA.1 hs)
    · cases h
      exact grow (.refl _)
  · unfold mineStep
    split_ifs
    · exact ⟨mining_keeps hA.2 hi.anchored, fun hn => mining_grows hn hi.anchored⟩
    · exact ⟨.refl _, fun _ => .refl _⟩
  · exact grow (clearThawTx_staged (s.world.trunkHeight - 1) env.clearWritten s.world).grows
  · exact grow (.refl _)
  · exact grow (.refl _)

/-- The mining thread comes to the loop head through `finishStep`, which
takes the ledger tip as the loop's snapshot of it. -/
theorem minerStep_snapshot {w₀ : World} {env : PhaseEnv} {s s' : Sys} (hi : LedgerInv w₀ s)
    (h : minerStep env s = some s') (hw : s'.loop.phase = .walk) (he : s'.isExit = false) :
    s'.world.existBlock s'.loop.ledgerTipId = true := by
  simp only [minerStep, minerStep_walk h hw, Option.some.injEq] at h
  subst h
  simp only [finishStep] at he ⊢
  rw [if_neg (by simpa using he)]
  exact hi.anchored.tip

/-- **One honest step.**  It keeps the invariant, and unless consensus asks
its `mining` for a truncation it only grows the ledger. -/
theorem step_ledger {w₀ : World} {s s' : Sys} {a : Action} (hA : a.Honest s)
    (h : step s a = some s') (hi : LedgerInv w₀ s) :
    LedgerInv w₀ s' ∧ (a.NoTruncate → Grows s.world s'.world) := by
  cases a with
  | ingress env fuel block =>
    obtain ⟨⟨w, r⟩, hp, rfl⟩ := Option.map_eq_some'.1 h
    have g := procBlock_grows hA hp
    exact ⟨hi.grow g hi.waiting, fun _ => g⟩
  | procChecks env fuel block =>
    obtain ⟨q, rfl, hq⟩ := step_procChecks h
    refine ⟨hi.grow (.refl _) fun p hp => ?_, fun _ => .refl _⟩
    rcases hq p hp with hp | rfl
    exacts [hi.waiting p hp, hA]
  | lockSync i =>
    obtain ⟨w, q, rfl, hq, rfl | ⟨env, fuel, b, r, hm, hs⟩⟩ := step_lockSync h
    · exact ⟨hi.grow (.refl _) fun p hp => hi.waiting p (hq p hp), fun _ => .refl _⟩
    · have g := trySyncBlock_grows (hi.waiting _ hm) hs
      exact ⟨hi.grow g fun p hp => hi.waiting p (hq p hp), fun _ => g⟩
  | stop =>
    cases h
    exact ⟨hi.next (.refl _) (fun _ he => by cases he) hi.waiting, fun _ => .refl _⟩
  | miner env =>
    have k := minerStep_keeps hA hi h
    exact ⟨hi.next k.1 (minerStep_snapshot hi h) fun p hp => hi.waiting p (minerStep_waiting h ▸ hp),
      k.2⟩

/-- Every action of a run is allowed by `A` in the state the run has
reached when it is taken. -/
def AllowedRun (A : Sys → Action → Prop) : Sys → List Action → Prop
  | _, [] => True
  | s, a :: acts => A s a ∧ ∀ s', step s a = some s' → AllowedRun A s' acts

/-- What every allowed step keeps holds after every allowed run. -/
theorem run_induction_allowed (P : Sys → Prop) (A : Sys → Action → Prop)
    (hstep : ∀ s s' a, A s a → step s a = some s' → P s → P s') :
    ∀ {s : Sys} (acts : List Action), P s → AllowedRun A s acts → P (run s acts)
  | _, [], h, _ => h
  | s, a :: acts, h, ⟨ha, hrest⟩ => by
    simp only [run]
    split
    · rename_i s' hs
      exact run_induction_allowed P A hstep acts (hstep s s' a ha hs h) (hrest s' hs)
    · exact h

/-- Actions allowed in every state make an allowed run. -/
theorem AllowedRun.of_forall {A : Sys → Action → Prop} :
    ∀ {s : Sys} {acts : List Action}, (∀ a ∈ acts, ∀ s, A s a) → AllowedRun A s acts
  | _, [], _ => trivial
  | s, a :: _, h => ⟨h a (.head _) s, fun _ _ => AllowedRun.of_forall fun a' ha' => h a' (.tail _ ha')⟩

/-- An allowed run checked along the run itself: the first action is
allowed where the run takes it, and the rest from where it leads. -/
theorem AllowedRun.of_step {A : Sys → Action → Prop} {s s' : Sys} {a : Action} {acts : List Action}
    (hs : step s a = some s') (ha : A s a) (hr : AllowedRun A s' acts) : AllowedRun A s (a :: acts) :=
  ⟨ha, fun _ h => (Option.some.inj (hs.symm.trans h)) ▸ hr⟩

/-- An allowed run whose actions all have a property `B` is allowed by
`A` and `B` together. -/
theorem AllowedRun.and_forall {A : Sys → Action → Prop} {B : Action → Prop} :
    ∀ {s : Sys} {acts : List Action}, AllowedRun A s acts → (∀ a ∈ acts, B a) →
      AllowedRun (fun s a => A s a ∧ B a) s acts
  | _, [], _, _ => trivial
  | _, a :: _, ⟨ha, hr⟩, hb => ⟨⟨ha, hb a (.head _)⟩, fun s' hs =>
      AllowedRun.and_forall (hr s' hs) fun a' ha' => hb a' (.tail _ ha')⟩

/-- Every state an honest run reaches keeps the invariant. -/
theorem run_ledgerInv {w₀ : World} {s : Sys} (acts : List Action) (hi : LedgerInv w₀ s)
    (hA : AllowedRun Action.Honest s acts) : LedgerInv w₀ (run s acts) :=
  run_induction_allowed (LedgerInv w₀) Action.Honest (fun _ _ _ ha h hi => (step_ledger ha h hi).1)
    acts hi hA

/-- Along an honest run in which consensus asks for no truncation, the
ledger only grows. -/
theorem run_grows {w₀ : World} {s : Sys} (acts : List Action) (hi : LedgerInv w₀ s)
    (hA : AllowedRun Action.Honest s acts) (hn : ∀ a ∈ acts, a.NoTruncate) :
    Grows s.world (run s acts).world :=
  (run_induction_allowed (fun t => LedgerInv w₀ t ∧ Grows s.world t.world)
    (fun t a => a.Honest t ∧ a.NoTruncate)
    (fun _ _ _ ha h hi => ⟨(step_ledger ha.1 h hi.1).1, hi.2.trans ((step_ledger ha.1 h hi.1).2 ha.2)⟩)
    acts ⟨hi, .refl _⟩ (hA.and_forall hn)).2

/-- So does the part of an honest run after any prefix of it. -/
theorem run_append_grows {w₀ : World} (acts₂ : List Action) (hn : ∀ a ∈ acts₂, a.NoTruncate) :
    ∀ {s : Sys} (acts₁ : List Action), LedgerInv w₀ s → AllowedRun Action.Honest s (acts₁ ++ acts₂) →
      Grows (run s acts₁).world (run s (acts₁ ++ acts₂)).world
  | _, [], hi, hA => run_grows acts₂ hi hA hn
  | s, a :: acts₁, hi, ⟨ha, hr⟩ => by
    simp only [List.cons_append, run]
    split
    · rename_i s' hs
      exact run_append_grows acts₂ hn acts₁ (step_ledger ha hs hi).1 (hr s' hs)
    · exact .refl _

/-- A node holding blocks `1` to `3` on the genesis block, both tips at
block `3`. -/
def chainWorld : World :=
  { genesisWorld with
    blocks := [chainBlock 3, chainBlock 2, chainBlock 1, genesisBlock]
    tipBlockid := [3], trunkHeight := 3, latest := [3] }

/-- A miner that consensus asks to truncate to block `1` before it packs
(its block gets the id `[5]`). -/
def truncEnv : PhaseEnv :=
  { idleEnv with
    competeMaster := (true, false, .ok ())
    mining :=
      { reverseFailsEnv with
        processBeforeMiner := .ok (some [1], .empty), queryBlockHeader := .ok 1 } }

/-- One iteration of `truncEnv`. -/
def truncRun : List Action := List.replicate 7 (.miner truncEnv)

/-- `truncEnv` is honest wherever the ledger holds block `1`. -/
theorem truncEnv_honest {s : Sys} (h : s.world.existBlock [1] = true) :
    Action.Honest s (.miner truncEnv) :=
  ⟨fun _ _ _ h => (by cases h), fun _ _ _ hp _ => (by cases hp; exact h)⟩

/-- `truncRun` from `chainWorld`, then actions honest everywhere, is an
honest run: block `1` stays in the ledger along `truncRun`. -/
theorem allowed_truncRun {acts : List Action} (h : ∀ a ∈ acts, ∀ s, Action.Honest s a) :
    AllowedRun Action.Honest (Sys.start chainWorld) (truncRun ++ acts) := by
  simp only [truncRun, List.replicate, List.cons_append, List.nil_append]
  repeat refine .of_step rfl (truncEnv_honest rfl) ?_
  exact .of_forall h

/-- **The ledger a run keeps linked.**  Start `Miner.Start` on a node whose
ledger tip and state tip are ledger blocks, and interleave any `ProcBlock`
calls, whole or split at `minerMutex`, and `Stop` calls, under any answers
of the collaborators in which peers answer `GET_BLOCK(id)` with block `id`
and the ledger answers `QueryBlockHeader` only for its own blocks.  After
the run, truncations included, every block of the ledger the node did not
start with names as parent a block behind it in the ledger, and the ledger
tip and the state tip are ledger blocks. -/
theorem run_ledger_linked (w : World) (ha : w.Anchored) (acts : List Action)
    (hA : AllowedRun Action.Honest (Sys.start w) acts) :
    LinkedFrom w.blocks (run (Sys.start w) acts).world.blocks ∧
      (run (Sys.start w) acts).world.Anchored :=
  let hi := run_ledgerInv acts (ledgerInv_start ha) hA
  ⟨hi.linked, hi.anchored⟩

/-- An iteration in which consensus asks for a truncation to block `1`:
the miner drops blocks `2` and `3` and confirms its block `[5]` on block
`1`, and the ledger stays linked. -/
theorem run_ledger_linked_truncRun :
    chainWorld.Anchored ∧ AllowedRun Action.Honest (Sys.start chainWorld) truncRun ∧
      (run (Sys.start chainWorld) truncRun).world.blocks.map (·.blockid) = [[5], [1], [0]] ∧
      LinkedFrom chainWorld.blocks (run (Sys.start chainWorld) truncRun).world.blocks ∧
      (run (Sys.start chainWorld) truncRun).world.Anchored := by
  have ha : chainWorld.Anchored := ⟨rfl, rfl⟩
  have hA : AllowedRun Action.Honest (Sys.start chainWorld) truncRun := by
    rw [← List.append_nil truncRun]
    exact allowed_truncRun fun _ h => nomatch h
  exact ⟨ha, hA, by decide, run_ledger_linked chainWorld ha truncRun hA⟩

/-- **Growth between truncations.**  In the same runs, from any point on,
as long as consensus asks `mining` for no truncation, the ledger only
gains blocks, in front of the ones it held, each naming as parent a block
the ledger held when it took it. -/
theorem run_ledger_grows (w : World) (ha : w.Anchored) (acts₁ acts₂ : List Action)
    (hA : AllowedRun Action.Honest (Sys.start w) (acts₁ ++ acts₂))
    (hn : ∀ a ∈ acts₂, a.NoTruncate) :
    ∃ new, (run (Sys.start w) (acts₁ ++ acts₂)).world.blocks =
        new ++ (run (Sys.start w) acts₁).world.blocks ∧
      LinkedOver new (run (Sys.start w) acts₁).world.blocks :=
  (run_append_grows acts₂ hn acts₁ (ledgerInv_start ha) hA).blocks

/-- Block `[6]`, on the block `truncEnv` mines. -/
def sixthBlock : Block := { genesisBlock with blockid := [6], preHash := [5], height := 3 }

/-- After the truncating iteration, block `[6]` pushed through `ProcBlock`:
the ledger grows by it alone. -/
theorem run_ledger_grows_truncRun :
    let acts₂ := [Action.ingress acceptingIngress 1 (some sixthBlock)]
    chainWorld.Anchored ∧ AllowedRun Action.Honest (Sys.start chainWorld) (truncRun ++ acts₂) ∧
      (∀ a ∈ acts₂, a.NoTruncate) ∧
      (run (Sys.start chainWorld) (truncRun ++ acts₂)).world.blocks.map (·.blockid) =
        [[6], [5], [1], [0]] ∧
      ∃ new, (run (Sys.start chainWorld) (truncRun ++ acts₂)).world.blocks =
          new ++ (run (Sys.start chainWorld) truncRun).world.blocks ∧
        LinkedOver new (run (Sys.start chainWorld) truncRun).world.blocks := by
  have ha : chainWorld.Anchored := ⟨rfl, rfl⟩
  have hA := @allowed_truncRun [.ingress acceptingIngress 1 (some sixthBlock)] fun a ha _ => by
    rw [List.mem_singleton.1 ha]
    exact fun _ _ _ h => by cases h
  have hn : ∀ a ∈ [Action.ingress acceptingIngress 1 (some sixthBlock)], a.NoTruncate := fun a ha => by
    rw [List.mem_singleton.1 ha]
    trivial
  exact ⟨ha, hA, hn, by decide, run_ledger_grows chainWorld ha truncRun _ hA hn⟩

end XuperMiner
