import Mathlib.Data.List.Sort
import XuperMiner.World

/-!
# XuperMiner.Longest

Whole-network tip discovery (spec §4.7, first paragraph):
`Miner.getWholeNetLongestBlock` asks the neighbours for their chain
status, sorts the answers by descending trunk height (`BCSByHeight`) and
returns the block of the first status a confirmation probe
(`Miner.isConfirmed`, counted by `countConfirmBlock`) accepts.

Neighbours' answers are arguments (`NetEnv`).  `sort.Sort` is not stable
and its tie order is an implementation detail, so the order it leaves is
an argument too, `NetEnv.sort`; `SortContract` is what `sort.Sort`
promises.  Go evaluates `s[i].LedgerMeta.TrunkHeight` in `Less` and
`bcs.Block.Blockid` in `isConfirmed` without a nil check: a comparison
sort over two or more statuses compares every one of them, so a status
without `ledger_meta` among two or more makes the sort panic, and a
status without `block` panics when it is probed.
-/

namespace XuperMiner

/-- `xldgpb.LedgerMeta`: the one field the miner reads. -/
structure LedgerMeta where
  trunkHeight : Int
  deriving DecidableEq, Repr

/-- `xpb.ChainStatus`: a neighbour's view of its chain; either part may be
missing from the decoded message. -/
structure ChainStatus where
  ledgerMeta : Option LedgerMeta
  block : Option Block
  deriving DecidableEq, Repr

/-- A status's trunk height, `0` without `ledger_meta` (`GetTrunkHeight`). -/
def ChainStatus.trunkHeight (s : ChainStatus) : Int := (s.ledgerMeta.map (·.trunkHeight)).getD 0

/-- What the network answers during one `getWholeNetLongestBlock`. -/
structure NetEnv where
  /-- `SendMessageWithResponse(GET_BLOCKCHAINSTATUS)`: each reply as
  `p2p.Unmarshal` decodes it (`none` on failure), or the transport's error. -/
  statusResponses : Except Err (List (Option ChainStatus))
  /-- `SendMessageWithResponse(CONFIRM_BLOCKCHAINSTATUS(blockid))`: each
  reply's `TipStatus.IsTrunkTip` (`none` when it does not decode). -/
  confirmResponses : BlockId → Except Err (List (Option Bool))
  /-- The order `sort.Sort(BCSByHeight(...))` leaves. -/
  sort : List ChainStatus → List ChainStatus

/-- What `sort.Sort(BCSByHeight(l))` guarantees: a permutation of `l`,
ordered by non-increasing trunk height. -/
def SortContract (sort : List ChainStatus → List ChainStatus) : Prop :=
  ∀ l, (sort l).Perm l ∧ (sort l).Sorted (fun a b => b.trunkHeight ≤ a.trunkHeight)

/-! ## The confirmation probe -/

/-- `countConfirmBlock`: agreeing replies must be at least the disagreeing
ones and at least a third of all replies, `len(messages)/3` in integer
division; replies that do not decode count in the length only. -/
def countConfirmBlock (messages : List (Option Bool)) : Bool :=
  let agreeCnt := messages.countP (· = some true)
  let disagreeCnt := messages.countP (· = some false)
  agreeCnt ≥ disagreeCnt && agreeCnt ≥ messages.length / 3

/-- The probe's acceptance rule: at least as many agreeing replies as
disagreeing ones, and fewer than `3 * (agree + 1)` replies in all, which
is what `agree ≥ len / 3` says in integer division. -/
theorem countConfirmBlock_eq_true_iff (messages : List (Option Bool)) :
    countConfirmBlock messages = true ↔
      messages.countP (· = some false) ≤ messages.countP (· = some true) ∧
        messages.length < 3 * (messages.countP (· = some true) + 1) := by
  simp only [countConfirmBlock, Bool.and_eq_true, decide_eq_true_eq, ge_iff_le,
    Nat.div_le_iff_le_mul_add_pred (by decide : 0 < 3)]
  omega

/-- The probe accepts a candidate that fewer than a third of the replies
agree with: one agreeing reply among four, and no agreeing reply among
two that do not decode. -/
theorem countConfirmBlock_accepts_below_third :
    countConfirmBlock [some true, none, none, none] = true ∧
      3 * [some true, none, none, none].countP (· = some true) < 4 ∧
      countConfirmBlock [none, none] = true ∧ [none, none].countP (· = some true) = 0 := by
  decide

/-- `Miner.isConfirmed` on the block id of a status: a transport error is
a rejection. -/
def isConfirmed (net : NetEnv) (blockid : BlockId) : Bool :=
  match net.confirmResponses blockid with
  | .error _ => false
  | .ok response => countConfirmBlock response

/-! ## `getWholeNetLongestBlock` -/

/-- The probing loop over the sorted statuses: the first confirmed one's
block, reading `bcs.Block.Blockid` of each status it probes. -/
def firstConfirmed (net : NetEnv) : List ChainStatus → Except Err Block
  | [] => .error (.msg "not found longest block")
  | bcs :: rest =>
    match bcs.block with
    | none => .error .nilDereference
    | some b => if isConfirmed net b.blockid then .ok b else firstConfirmed net rest

/-- Whether `sort.Sort(BCSByHeight(l))` dereferences a missing
`ledger_meta`. -/
def sortPanics (l : List ChainStatus) : Bool := 2 ≤ l.length && l.any (·.ledgerMeta.isNone)

/-- `Miner.getWholeNetLongestBlock`. -/
def getWholeNetLongestBlock (net : NetEnv) : Except Err Block :=
  match net.statusResponses with
  | .error e => .error e
  | .ok responses =>
    let bcStatus := responses.filterMap id
    if sortPanics bcStatus then .error .nilDereference
    else firstConfirmed net (net.sort bcStatus)

/-! ## The block returned is a highest confirmed one -/

/-- The probing loop returns the block of the first status it confirms, and
every status before it carried a block the probe rejected. -/
theorem firstConfirmed_ok {net : NetEnv} {l : List ChainStatus} {b : Block}
    (h : firstConfirmed net l = .ok b) :
    ∃ pre s post, l = pre ++ s :: post ∧ s.block = some b ∧ isConfirmed net b.blockid ∧
      ∀ s' ∈ pre, ∃ b', s'.block = some b' ∧ isConfirmed net b'.blockid = false := by
  induction l with
  | nil => cases h
  | cons s rest ih =>
    unfold firstConfirmed at h
    rcases hs : s.block with _ | c
    · rw [hs] at h; cases h
    simp only [hs] at h
    by_cases hc : isConfirmed net c.blockid
    · rw [if_pos hc] at h; cases h
      exact ⟨[], s, rest, rfl, hs, hc, by simp⟩
    · rw [if_neg hc] at h
      obtain ⟨pre, s', post, rfl, h1, h2, h3⟩ := ih h
      refine ⟨s :: pre, s', post, rfl, h1, h2, ?_⟩
      simp only [List.mem_cons, forall_eq_or_imp]
      exact ⟨⟨c, hs, by simpa using hc⟩, h3⟩

/-- **Maximality.**  When `getWholeNetLongestBlock` returns a block, it is
the block of a received status the probe confirms, and no received status
whose block the probe confirms has a greater trunk height. -/
theorem getWholeNetLongestBlock_maximal {net : NetEnv} (hsort : SortContract net.sort)
    {b : Block} (h : getWholeNetLongestBlock net = .ok b) :
    ∃ responses s, net.statusResponses = .ok responses ∧ some s ∈ responses ∧
      s.block = some b ∧ isConfirmed net b.blockid ∧
      ∀ s', some s' ∈ responses → ∀ b', s'.block = some b' → isConfirmed net b'.blockid →
        s'.trunkHeight ≤ s.trunkHeight := by
  unfold getWholeNetLongestBlock at h
  rcases hr : net.statusResponses with e | responses
  · rw [hr] at h; cases h
  rw [hr] at h
  dsimp only at h
  split at h
  · cases h
  obtain ⟨hperm, hsorted⟩ := hsort (responses.filterMap id)
  obtain ⟨pre, s, post, hl, hs, hb, hpre⟩ := firstConfirmed_ok h
  have hmem : ∀ x, x ∈ net.sort (responses.filterMap id) ↔ some x ∈ responses := fun x => by
    rw [hperm.mem_iff]; simp
  refine ⟨responses, s, rfl, (hmem s).1 (by simp [hl]), hs, hb, fun s' hs' b' hb' hc' => ?_⟩
  rw [← hmem, hl, List.mem_append, List.mem_cons] at hs'
  rw [hl, List.Sorted, List.pairwise_append] at hsorted
  rcases hs' with hs' | rfl | hs'
  · obtain ⟨b'', hb'', hnc⟩ := hpre s' hs'
    rw [hb''] at hb'; cases hb'
    rw [hc'] at hnc; cases hnc
  · exact le_rfl
  · exact (List.pairwise_cons.1 hsorted.2.1).1 s' hs'

/-- The order `BCSByHeight` asks for: higher trunk first. -/
def byHeight (a b : ChainStatus) : Prop := b.trunkHeight ≤ a.trunkHeight

instance : DecidableRel byHeight := fun _ _ => inferInstanceAs (Decidable (_ ≤ _))

instance : IsTotal ChainStatus byHeight := ⟨fun a b => Int.le_total b.trunkHeight a.trunkHeight⟩

instance : IsTrans ChainStatus byHeight := ⟨fun _ _ _ hab hbc => Int.le_trans hbc hab⟩

/-- Insertion sort by `byHeight` keeps the contract of `sort.Sort`. -/
theorem insertionSort_sortContract : SortContract (List.insertionSort byHeight) :=
  fun l => ⟨List.perm_insertionSort byHeight l, List.sorted_insertionSort byHeight l⟩

/-- Two neighbours on the genesis block, at trunk heights `1` and `0`, both
confirmed. -/
def genesisNet : NetEnv where
  statusResponses := .ok [some ⟨some ⟨0⟩, some genesisBlock⟩, some ⟨some ⟨1⟩, some genesisBlock⟩]
  confirmResponses := fun _ => .ok [some true]
  sort := List.insertionSort byHeight

/-- On `genesisNet` the genesis block comes back, from the status of height `1`. -/
theorem getWholeNetLongestBlock_maximal_genesisNet :
    SortContract genesisNet.sort ∧ getWholeNetLongestBlock genesisNet = .ok genesisBlock ∧
      ∃ responses s, genesisNet.statusResponses = .ok responses ∧ some s ∈ responses ∧
        s.block = some genesisBlock ∧ isConfirmed genesisNet genesisBlock.blockid ∧
        ∀ s', some s' ∈ responses → ∀ b', s'.block = some b' → isConfirmed genesisNet b'.blockid →
          s'.trunkHeight ≤ s.trunkHeight :=
  ⟨insertionSort_sortContract, rfl, getWholeNetLongestBlock_maximal insertionSort_sortContract rfl⟩

/-- Two neighbours answer, one without `ledger_meta`. -/
def metaLessNet : NetEnv where
  statusResponses := .ok [some ⟨none, none⟩, some ⟨some ⟨3⟩, none⟩]
  confirmResponses := fun _ => .ok [some true]
  sort := id

/-- With a status that lacks `ledger_meta` among two, sorting the statuses
dereferences the nil `LedgerMeta`. -/
theorem getWholeNetLongestBlock_meta_less :
    getWholeNetLongestBlock metaLessNet = .error .nilDereference := rfl

end XuperMiner
