import XuperMiner.Thaw

/-!
# XuperMiner.Clear

What a run of `Miner.ClearThawTx(height)` does to the confirmed table
(spec §4.3, and the thaw conservation law of §5), and that running it
again from wherever an earlier run stopped changes nothing more.

`ClearThawTx` reads every row from the committed table, and after each
listed address stages the pruned row and writes the whole shared batch.
From a state whose batch holds no put the table lacks (`World.Settled`),
every state a run passes through is a `ThawRun`: the puts `Q` staged since
the start are pruned `amount_` rows of listed addresses or the schedule
without `height` (`ThawPut`), and the table is the start's with a prefix
of `Q` committed.  Since pruning is idempotent, every read of a listed row
prunes to the same row, and a run that returns `nil` leaves
`clearedTable`, however many of its writes failed and wherever it was
resumed from.
-/

namespace XuperMiner

open ConfirmedTable

/-- The batch holds no put the committed table lacks. -/
def World.Settled (w : World) : Prop := w.table.commit w.batch = w.table

/-- The schedule put of `ClearThawTx(height)` over the schedule `nodes`. -/
def schedPut (height : Int) (nodes : NodeTable) : Key × Row :=
  (.nodeThaw, Message.encode ({ nodes with nodeDetails := nodes.nodeDetails.erase height } : NodeTable))

/-- A put that a run of `ClearThawTx(height)` from the committed table `t`
may stage: the pruned row of an address `ds` lists, or the schedule put. -/
def ThawPut (height : Int) (t : ConfirmedTable) (nodes : NodeTable) (ds : List NodeDetail)
    (p : Key × Row) : Prop :=
  (∃ d ∈ ds, ∃ row : FrozenAssetsTable, (t (.amount d.address)).bind Message.decode = some row ∧
    p = (.amount d.address, Message.encode (clearThawRow height row))) ∨
  p = schedPut height nodes

/-- A state on the way of `ClearThawTx(height)` runs from `S`, with `Q` the
puts staged since `S` and `X` the prefix of them the table holds.  A prefix
of `Q` that holds the schedule put holds a put for every listed address. -/
structure ThawRun (height : Int) (S : World) (nodes : NodeTable) (ds : List NodeDetail)
    (Q X : ConfirmBatch) (w : World) : Prop where
  settled : S.Settled
  batch_eq : w.batch = S.batch ++ Q
  puts : ∀ p ∈ Q, ThawPut height S.table nodes ds p
  committed : X <+: Q
  table_eq : w.table = S.table.commit X
  sched_after : ∀ Y, Y <+: Q → schedPut height nodes ∈ Y →
    ∀ d ∈ ds, ∃ r, (.amount d.address, r) ∈ Y

section ThawRun

variable {height : Int} {S w : World} {nodes : NodeTable} {ds : List NodeDetail}
  {Q X : ConfirmBatch}

/-- A thaw put of an `amount_` row stages the pruned row read from `t`. -/
theorem ThawPut.amount {t : ConfirmedTable} {a : Address} {r : Row}
    (hp : ThawPut height t nodes ds (.amount a, r)) :
    ∃ row : FrozenAssetsTable, (t (.amount a)).bind Message.decode = some row ∧
      r = Message.encode (clearThawRow height row) := by
  rcases hp with ⟨d, -, row, hrow, hp⟩ | hp
  · obtain ⟨ha, rfl⟩ := Prod.mk.inj hp
    exact ⟨row, Key.amount.inj ha ▸ hrow, rfl⟩
  · exact absurd (congrArg Prod.fst hp) (by simp [schedPut])

/-- A thaw put of the schedule is the schedule put. -/
theorem ThawPut.nodeThaw {t : ConfirmedTable} {r : Row}
    (hp : ThawPut height t nodes ds (.nodeThaw, r)) : r = (schedPut height nodes).2 := by
  rcases hp with ⟨d, -, row, -, hp⟩ | hp
  · exact absurd (congrArg Prod.fst hp) (by simp)
  · exact congrArg Prod.snd hp

/-- A settled state starts a run. -/
theorem ThawRun.start (hs : S.Settled) : ThawRun height S nodes ds [] [] S where
  settled := hs
  batch_eq := (List.append_nil _).symm
  puts _ h := absurd h (List.not_mem_nil _)
  committed := List.nil_prefix
  table_eq := rfl
  sched_after _ hY h := absurd (List.prefix_nil.1 hY ▸ h) (List.not_mem_nil _)

/-- Staging a thaw put and a successful write: the whole of `Q` is
committed.  The schedule put comes after a put for every listed address. -/
theorem ThawRun.stage_ok (hr : ThawRun height S nodes ds Q X w) {p : Key × Row}
    (hp : ThawPut height S.table nodes ds p)
    (hsched : p = schedPut height nodes → ∀ d ∈ ds, ∃ r, (.amount d.address, r) ∈ Q) :
    ThawRun height S nodes ds (Q ++ [p]) (Q ++ [p]) ((w.put p.1 p.2).write (.ok ())) where
  settled := hr.settled
  batch_eq := by simp [World.write, hr.batch_eq]
  puts q hq := (List.mem_append.1 hq).elim (hr.puts q) fun h => List.mem_singleton.1 h ▸ hp
  committed := List.prefix_refl _
  table_eq := by
    show w.table.commit (w.batch ++ [p]) = _
    rw [hr.table_eq, hr.batch_eq, List.append_assoc,
      commit_prefix_commit_of_settled hr.settled (hr.committed.trans (List.prefix_append _ _))]
  sched_after Y hY hs := by
    rcases List.prefix_concat_iff.1 hY with rfl | hY
    · rcases List.mem_append.1 hs with hs | hs
      · exact fun d hd => (hr.sched_after Q (List.prefix_refl _) hs d hd).imp
          fun _ h => List.mem_append_left _ h
      · exact fun d hd => (hsched (List.mem_singleton.1 hs).symm d hd).imp
          fun _ h => List.mem_append_left _ h
    · exact hr.sched_after Y hY hs

/-- Staging a thaw put and a failed write: nothing more is committed. -/
theorem ThawRun.stage_error (hr : ThawRun height S nodes ds Q X w) {p : Key × Row}
    (hp : ThawPut height S.table nodes ds p)
    (hsched : p = schedPut height nodes → ∀ d ∈ ds, ∃ r, (.amount d.address, r) ∈ Q) (e : Err) :
    ThawRun height S nodes ds (Q ++ [p]) X ((w.put p.1 p.2).write (.error e)) where
  settled := hr.settled
  batch_eq := by simp [World.write, hr.batch_eq]
  puts q hq := (List.mem_append.1 hq).elim (hr.puts q) fun h => List.mem_singleton.1 h ▸ hp
  committed := hr.committed.trans (List.prefix_append _ _)
  table_eq := hr.table_eq
  sched_after := (hr.stage_ok hp hsched).sched_after

/-- Staging a thaw put and writing, whatever the write's outcome. -/
theorem ThawRun.stage (hr : ThawRun height S nodes ds Q X w) {p : Key × Row}
    (hp : ThawPut height S.table nodes ds p)
    (hsched : p = schedPut height nodes → ∀ d ∈ ds, ∃ r, (.amount d.address, r) ∈ Q)
    (o : Except Err Unit) :
    ∃ X', ThawRun height S nodes ds (Q ++ [p]) X' ((w.put p.1 p.2).write o) := by
  rcases o with e | ⟨⟩
  · exact ⟨X, hr.stage_error hp hsched e⟩
  · exact ⟨_, hr.stage_ok hp hsched⟩

end ThawRun

end XuperMiner
