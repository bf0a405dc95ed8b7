import Mathlib.Data.List.Forall2
import XuperMiner.World

/-!
# XuperMiner.Thaw

The thaw schedule (spec §4.3): `Miner.GetThawTx`, which turns the entries
the un-bonding schedule holds at a height into reverse-transfer
transactions, and `Miner.ClearThawTx`, which after the block is confirmed
prunes every listed address's `amount_` row and deletes the height from the
schedule.

`State.ReverseTx` is an argument (`reverseTx`); it is handed the shared
batch but, as the spec describes it, only builds a transaction.  The
outcome of the `i`-th `ConfirmBatch.Write` of one `ClearThawTx` call is
`written i`: the call writes once per listed address, ignoring the
outcome, and once more at the end.
-/

namespace XuperMiner

/-! ## Reading the schedule -/

/-- The entries the un-bonding schedule lists at `height`: a missing or
undecodable schedule is an error, a missing height is no entry. -/
def thawEntries (height : Int) (w : World) : Except Err (List NodeDetail) :=
  match w.table .nodeThaw with
  | none => .error .notFound
  | some buf =>
    match (Message.decode buf : Option NodeTable) with
    | none => .error .unmarshal
    | some nodes => .ok ((nodes.nodeDetails.get? height).map (·.nodeDetail) |>.getD [])

/-- The schedule is read from the committed table only. -/
theorem thawEntries_congr {height : Int} {w w' : World} (h : w.table = w'.table) :
    thawEntries height w = thawEntries height w' := by
  unfold thawEntries; rw [h]

/-- `Miner.GetThawTx`: one reverse transfer per entry due at `height`, in
the schedule's order; the first `ReverseTx` error aborts the call. -/
def getThawTx (reverseTx : Address → String → Except Err Tx) (height : Int) (w : World) :
    Except Err (List Tx) :=
  match thawEntries height w with
  | .error e => .error e
  | .ok entries => entries.mapM fun d => reverseTx d.address d.amount

/-- A successful `GetThawTx` returns exactly one transaction per due entry,
each the reverse transfer of that entry. -/
theorem getThawTx_ok {reverseTx : Address → String → Except Err Tx} {height : Int} {w : World}
    {txs : List Tx} (h : getThawTx reverseTx height w = .ok txs) :
    ∃ entries, thawEntries height w = .ok entries ∧
      List.Forall₂ (fun d tx => reverseTx d.address d.amount = .ok tx) entries txs := by
  unfold getThawTx at h
  rcases he : thawEntries height w with e | entries
  · rw [he] at h; cases h
  · rw [he] at h
    refine ⟨entries, rfl, ?_⟩
    clear he
    induction entries generalizing txs with
    | nil => cases h; exact .nil
    | cons d ds ih =>
      simp only [List.mapM_cons, Except.bind_eq_ok] at h
      obtain ⟨tx, hd, txs', hds, h⟩ := h
      cases h
      exact .cons hd (ih hds)

/-! ## Pruning an `amount_` row -/

/-- The new `amount_` row `ClearThawTx` writes for one address: the
`thaw_detail` entries due after `height` are kept, the others dropped and
their amounts subtracted from `total`; `frozen_detail` and `timestamp` are
copied. -/
def clearThawRow (height : Int) (table : FrozenAssetsTable) : FrozenAssetsTable where
  total := toString (table.thawDetail.entries.foldl
    (fun acc e => if e.2.height > height then acc else acc - setString e.2.amount)
    (setString table.total))
  frozenDetail := table.frozenDetail
  timestamp := table.timestamp
  thawDetail := table.thawDetail.filter (·.2.height > height)

/-- The loop of `ClearThawTx` over the entries due at `height`: read the
address's `amount_` row, stage its pruned row, and write the batch.  `i`
counts the writes made so far.  A missing or undecodable row aborts. -/
def clearThawRows (height : Int) (written : Nat → Except Err Unit) :
    Nat → List NodeDetail → World → World × Except Err Unit
  | _, [], w => (w, .ok ())
  | i, d :: ds, w =>
    match w.table (.amount d.address) with
    | none => (w, .error .notFound)
    | some buf =>
      match (Message.decode buf : Option FrozenAssetsTable) with
      | none => (w, .error .unmarshal)
      | some t =>
        clearThawRows height written (i + 1) ds
          ((w.put (.amount d.address) (Message.encode (clearThawRow height t))).write (written i))

/-- `Miner.ClearThawTx`: prune every listed address at `height`, then stage
the schedule without `height` and write.  A missing schedule or height is
not an error. -/
def clearThawTx (height : Int) (written : Nat → Except Err Unit) (w : World) :
    World × Except Err Unit :=
  match w.table .nodeThaw with
  | none => (w, .ok ())
  | some buf =>
    match (Message.decode buf : Option NodeTable) with
    | none => (w, .error .unmarshal)
    | some nodes =>
      match nodes.nodeDetails.get? height with
      | none => (w, .ok ())
      | some value =>
        match clearThawRows height written 0 value.nodeDetail w with
        | (w', .error e) => (w', .error e)
        | (w', .ok ()) =>
          let n := value.nodeDetail.length
          ((w'.put .nodeThaw (Message.encode { nodes with
              nodeDetails := nodes.nodeDetails.erase height })).write (written n),
            match written n with
            | .ok _ => .ok ()
            | .error e => .error e)

end XuperMiner
