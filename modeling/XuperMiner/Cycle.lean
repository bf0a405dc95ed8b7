import XuperMiner.World

/-!
# XuperMiner.Cycle

The cycle watcher `Miner.ReadTermTable` and the candidate-cache rewriter
`Miner.UpdateCacheTable` (spec §4.1, §4.2).

Both stage their rows on the shared confirm batch and call `Write` on it.
`ReadTermTable` is a three-way decision on the committed `tdpos_term` row
(`TermDecision`); `UpdateCacheTable` is a loop over the candidates that
may return before its `Write`, leaving what it staged on the batch.
-/

namespace XuperMiner

/-! ## `ReadTermTable` -/

/-- The tail of `ReadTermTable`: stage the new `tdpos_term` row, write the
batch, and answer the row's `NewCycle` when the write succeeded. -/
def putTermTable (tt : TermTable) (written : Except Err Unit) (w : World) :
    World × Except Err Bool :=
  let w := w.put .term (Message.encode tt)
  (w.write written, match written with
    | .ok _ => .ok tt.newCycle
    | .error e => .error e)

/-- `Miner.ReadTermTable`.  `status` is what `Consensus.GetConsensusStatus`
returned (the current term), `written` the outcome of the batch `Write`.
`proto.Marshal` of a `TermTable` does not fail. -/
def readTermTable (status : Except Err Int) (written : Except Err Unit) (w : World) :
    World × Except Err Bool :=
  match status with
  | .error _ => (w, .ok false)
  | .ok cur =>
    match w.table .term with
    | some buf =>
      match (Message.decode buf : Option TermTable) with
      | none => (w, .error .unmarshal)
      | some tt =>
        if tt.trem = cur ∧ tt.newCycle = false then (w, .ok false)
        else putTermTable (if tt.trem ≠ cur then { trem := cur, newCycle := true }
          else { tt with newCycle := false }) written w
    | none => putTermTable { trem := cur, newCycle := false } written w

/-- What one `ReadTermTable` call does, read off the committed row and the
current term: nothing, or stage one row and write. -/
inductive TermDecision where
  | skip (result : Except Err Bool)
  | stage (tt : TermTable)

/-- The decision `readTermTable` takes, before its `Write`. -/
def termDecision (status : Except Err Int) (row : Option Row) : TermDecision :=
  match status with
  | .error _ => .skip (.ok false)
  | .ok cur =>
    match row with
    | some buf =>
      match (Message.decode buf : Option TermTable) with
      | none => .skip (.error .unmarshal)
      | some tt =>
        if tt.trem = cur ∧ tt.newCycle = false then .skip (.ok false)
        else .stage (if tt.trem ≠ cur then { trem := cur, newCycle := true }
          else { tt with newCycle := false })
    | none => .stage { trem := cur, newCycle := false }

/-- `readTermTable` is its decision followed by the staging tail. -/
theorem readTermTable_eq (status : Except Err Int) (written : Except Err Unit) (w : World) :
    readTermTable status written w =
      match termDecision status (w.table .term) with
      | .skip r => (w, r)
      | .stage tt => putTermTable tt written w := by
  unfold readTermTable termDecision
  rcases status with _ | cur
  · rfl
  · rcases w.table .term with _ | buf
    · rfl
    · dsimp only
      rcases (Message.decode buf : Option TermTable) with _ | tt
      · rfl
      · dsimp only; split <;> rfl

/-- A staged row always records the current term, and its `NewCycle` is
set exactly when the committed row records another term. -/
theorem termDecision_stage {status : Except Err Int} {row : Option Row} {tt : TermTable}
    (h : termDecision status row = .stage tt) :
    ∃ cur, status = .ok cur ∧ tt.trem = cur ∧
      (tt.newCycle = true ↔ ∃ old : TermTable, row.bind Message.decode = some old ∧ old.trem ≠ cur) := by
  unfold termDecision at h
  rcases status with _ | cur
  · cases h
  · refine ⟨cur, rfl, ?_⟩
    rcases row with _ | buf
    · cases h; simp
    · dsimp only at h
      cases hd : (Message.decode buf : Option TermTable) with
      | none => rw [hd] at h; cases h
      | some old =>
        rw [hd] at h; dsimp only at h
        split at h
        · cases h
        · split at h <;> cases h <;> simp_all

/-- No decision answers `true` without staging a row. -/
theorem termDecision_ne_skip_true (status : Except Err Int) (row : Option Row) :
    termDecision status row ≠ .skip (.ok true) := by
  unfold termDecision
  rcases status with _ | cur
  · simp
  · rcases row with _ | buf
    · simp
    · dsimp only
      rcases (Message.decode buf : Option TermTable) with _ | tt
      · simp
      · dsimp only; split <;> simp

/-! ## `UpdateCacheTable` -/

/-- The rewrite of one `cache_` row: voters, ratio and voted total copied
from the candidate's `CandidateRatio`, every other field kept. -/
def refreshCache (ballot : CandidateRatio) (cache : CacheVoteCandidate) : CacheVoteCandidate :=
  { cache with
    votingUser := ballot.votingUser, ratio := ballot.ratio, totalVote := ballot.beVotedTotal }

/-- The loop of `UpdateCacheTable`: for each candidate, copy its
`ballot_` row's voters, ratio and voted total into its `cache_` row and
stage it.  A `ballot_` row that is missing or does not decode is read as
the zero record (a nil buffer); a `cache_` row that exists but does not
decode stops the loop (`false`), with the rows staged so far left on the
batch. -/
def stageCacheRows : List Address → World → World × Bool
  | [], w => (w, true)
  | a :: as, w =>
    match (Message.decodeBuf (w.table (.cache a)) : Option CacheVoteCandidate) with
    | none => (w, false)
    | some cache =>
      stageCacheRows as (w.put (.cache a) (Message.encode (refreshCache
        ((Message.decodeBuf (w.table (.ballot a))).getD default) cache)))

/-- `Miner.UpdateCacheTable`, `written` being the outcome of its `Write`.
The candidates are the values of `AllCandidate.Candidate`, in the map's
iteration order. -/
def updateCacheTable (written : Except Err Unit) (w : World) : World :=
  match w.table .candidates with
  | none => w
  | some buf =>
    match (Message.decode buf : Option AllCandidate) with
    | none => w
    | some free =>
      let (w', done) := stageCacheRows (free.candidate.entries.map Prod.snd) w
      if done then w'.write written else w'

/-- The loop only stages: it appends `cache_` rows to the batch and
changes nothing else. -/
theorem stageCacheRows_frame (as : List Address) (w : World) :
    ∃ puts, (stageCacheRows as w).1 = { w with batch := w.batch ++ puts } ∧
      ∀ p ∈ puts, ∃ a, p.1 = .cache a := by
  induction as generalizing w with
  | nil => exact ⟨[], by simp [stageCacheRows]⟩
  | cons a as ih =>
    rw [stageCacheRows]
    rcases (Message.decodeBuf (w.table (.cache a)) : Option CacheVoteCandidate) with _ | cache
    · exact ⟨[], by simp⟩
    · dsimp only
      generalize @Message.encode CacheVoteCandidate _ _ = r
      obtain ⟨puts, hw, hk⟩ := ih (w.put (.cache a) r)
      refine ⟨(.cache a, r) :: puts, by rw [hw]; unfold World.put; simp, ?_⟩
      simp only [List.mem_cons, forall_eq_or_imp]
      exact ⟨⟨a, rfl⟩, hk⟩

/-- The put `UpdateCacheTable` stages for candidate `a` when its `cache_`
row decodes, read off the committed table `t`. -/
def cachePut (t : ConfirmedTable) (a : Address) : Key × Row :=
  (.cache a, Message.encode (refreshCache ((Message.decodeBuf (t (.ballot a))).getD default)
    ((Message.decodeBuf (t (.cache a))).getD default)))

/-- The loop runs to the end exactly when every candidate's `cache_` row
is missing or decodes. -/
theorem stageCacheRows_snd (as : List Address) (w : World) :
    (stageCacheRows as w).2 = true ↔
      ∀ a ∈ as, (Message.decodeBuf (w.table (.cache a)) : Option CacheVoteCandidate).isSome := by
  induction as generalizing w with
  | nil => simp [stageCacheRows]
  | cons a as ih =>
    rw [stageCacheRows]
    rcases hc : (Message.decodeBuf (w.table (.cache a)) : Option CacheVoteCandidate) with _ | cache
    · simp [hc]
    · simp [ih, hc]

/-- When it runs to the end, the loop stages one refreshed row per
candidate, in the candidates' order. -/
theorem stageCacheRows_all {as : List Address} {w : World}
    (h : ∀ a ∈ as, (Message.decodeBuf (w.table (.cache a)) : Option CacheVoteCandidate).isSome) :
    stageCacheRows as w = ({ w with batch := w.batch ++ as.map (cachePut w.table) }, true) := by
  induction as generalizing w with
  | nil => simp [stageCacheRows]
  | cons a as ih =>
    obtain ⟨cache, hc⟩ := Option.isSome_iff_exists.1 (h a (List.mem_cons_self a as))
    rw [stageCacheRows, hc]
    dsimp only
    rw [ih fun b hb => by simpa using h b (List.mem_cons_of_mem a hb)]
    simp [World.put, cachePut, hc]

/-- Among the loop's puts, a candidate's `cache_` row holds its refreshed
row, however often the candidate is listed. -/
theorem lastPut_map_cachePut {t : ConfirmedTable} {as : List Address} {a : Address}
    (ha : a ∈ as) : ConfirmedTable.lastPut (.cache a) (as.map (cachePut t)) = some (cachePut t a).2 := by
  obtain ⟨r, hr⟩ := ConfirmedTable.exists_lastPut_of_mem (List.mem_map_of_mem (cachePut t) ha)
  obtain ⟨b, -, hb⟩ := List.mem_map.1 (ConfirmedTable.mem_of_lastPut hr)
  have hba : b = a := Key.cache.inj (congrArg Prod.fst hb)
  subst hba
  rw [hr, hb]

/-- The loop's puts name no row but the candidates' `cache_` rows. -/
theorem lastPut_map_cachePut_none {t : ConfirmedTable} {as : List Address} {k : Key}
    (hk : ∀ a ∈ as, k ≠ .cache a) : ConfirmedTable.lastPut k (as.map (cachePut t)) = none :=
  ConfirmedTable.lastPut_eq_none_iff.2 fun p hp hpk => by
    obtain ⟨b, hb, rfl⟩ := List.mem_map.1 hp
    exact hk b hb hpk.symm

/-- **What one `UpdateCacheTable` commits.**  Take a candidate set that
decodes.  When some candidate's `cache_` row is there but does not decode,
or the `Write` fails, the call commits nothing.  Otherwise its one `Write`
commits, for every candidate `a` whose `ballot_` row decodes, `cache_a`
with voters, ratio and voted total copied from the ballot and its other
fields kept; every row that is no candidate's `cache_` row ends as the
puts already on the shared batch leave it. -/
theorem updateCacheTable_commit (written : Except Err Unit) (w : World) (free : AllCandidate)
    (hfree : (w.table .candidates).bind Message.decode = some free) :
    let cands := free.candidate.entries.map Prod.snd
    ((∃ a ∈ cands, (Message.decodeBuf (w.table (.cache a)) : Option CacheVoteCandidate) = none) ∨
        written ≠ .ok () → (updateCacheTable written w).table = w.table) ∧
    ((∀ a ∈ cands, (Message.decodeBuf (w.table (.cache a)) : Option CacheVoteCandidate).isSome) →
        written = .ok () →
      (∀ a ∈ cands, ∀ cache ballot, Message.decodeBuf (w.table (.cache a)) = some cache →
          (w.table (.ballot a)).bind Message.decode = some ballot →
          (updateCacheTable written w).table (.cache a) =
            some (Message.encode (refreshCache ballot cache))) ∧
      ∀ k, (∀ a ∈ cands, k ≠ .cache a) →
        (updateCacheTable written w).table k = w.table.commit w.batch k) := by
  intro cands
  obtain ⟨buf, hbuf, hdec⟩ := Option.bind_eq_some.1 hfree
  have hu : updateCacheTable written w =
      if (stageCacheRows cands w).2 then (stageCacheRows cands w).1.write written
      else (stageCacheRows cands w).1 := by
    simp only [updateCacheTable, hbuf, hdec]
  by_cases hall : ∀ a ∈ cands,
      (Message.decodeBuf (w.table (.cache a)) : Option CacheVoteCandidate).isSome
  case neg =>
    have hfalse : (stageCacheRows cands w).2 = false :=
      Bool.eq_false_iff.2 fun h => hall ((stageCacheRows_snd cands w).1 h)
    obtain ⟨puts, hw, -⟩ := stageCacheRows_frame cands w
    refine ⟨fun _ => by rw [hu, hfalse, if_neg Bool.false_ne_true, hw], fun h => (hall h).elim⟩
  case pos =>
    rw [stageCacheRows_all hall, if_pos rfl] at hu
    refine ⟨fun h => ?_, fun _ hok => ?_⟩
    · rcases h with ⟨a, ha, hn⟩ | hw
      · exact absurd (hall a ha) (by rw [hn]; decide)
      · rcases written with e | ⟨⟩
        · rw [hu]; rfl
        · exact (hw rfl).elim
    · subst hok
      rw [hu]
      refine ⟨fun a ha cache ballot hc hb => ?_, fun k hk => ?_⟩
      · show w.table.commit (w.batch ++ cands.map (cachePut w.table)) (.cache a) = _
        rw [ConfirmedTable.commit_apply, ConfirmedTable.lastPut_append, lastPut_map_cachePut ha]
        simp [cachePut, hc, Message.decodeBuf_of_bind hb]
      · exact ConfirmedTable.commit_append_of_lastPut_none _ _ _ (lastPut_map_cachePut_none hk)

/-- The candidate set `{a: A, b: B}`. -/
def candidatesAB : AllCandidate := { candidate := ⟨[("a", "A"), ("b", "B")], by decide⟩ }

/-- A node with candidates `A` and `B`: `A`'s ballot holds one voter and
`B`'s does not decode, `cache_A` is missing and `cache_B` holds one voter;
an `amount_C` put is staged on the batch and not committed. -/
def ballotWorld : World :=
  { genesisWorld with
    table := fun
      | .candidates => some (Message.encode candidatesAB)
      | .ballot "A" => some (Message.encode
          ({ votingUser := ⟨[("v", "10")], by decide⟩, ratio := 50, beVotedTotal := "10" } :
            CandidateRatio))
      | .ballot "B" => some .corrupt
      | .cache "B" => some (Message.encode
          ({ votingUser := ⟨[("v", "7")], by decide⟩, ratio := 20, totalVote := "7" } :
            CacheVoteCandidate))
      | _ => none
    batch := [(.amount "C", .corrupt)] }

/-- On `ballotWorld` with a successful write, every `cache_` row decodes,
so the call commits `cache_A` from `A`'s ballot. -/
theorem updateCacheTable_commit_ballotWorld :
    (ballotWorld.table .candidates).bind Message.decode = some candidatesAB ∧
      let cands := candidatesAB.candidate.entries.map Prod.snd
      ((∃ a ∈ cands,
          (Message.decodeBuf (ballotWorld.table (.cache a)) : Option CacheVoteCandidate) = none) ∨
          (.ok () : Except Err Unit) ≠ .ok () →
        (updateCacheTable (.ok ()) ballotWorld).table = ballotWorld.table) ∧
      ((∀ a ∈ cands,
          (Message.decodeBuf (ballotWorld.table (.cache a)) : Option CacheVoteCandidate).isSome) →
          (.ok () : Except Err Unit) = .ok () →
        (∀ a ∈ cands, ∀ cache ballot,
            Message.decodeBuf (ballotWorld.table (.cache a)) = some cache →
            (ballotWorld.table (.ballot a)).bind Message.decode = some ballot →
            (updateCacheTable (.ok ()) ballotWorld).table (.cache a) =
              some (Message.encode (refreshCache ballot cache))) ∧
        ∀ k, (∀ a ∈ cands, k ≠ .cache a) →
          (updateCacheTable (.ok ()) ballotWorld).table k = ballotWorld.table.commit ballotWorld.batch k) :=
  ⟨rfl, updateCacheTable_commit (.ok ()) ballotWorld candidatesAB rfl⟩

/-- A call can commit a cache row for a ballot it could not read, and a row
that is no cache row.  On `ballotWorld` `B`'s ballot does not decode, yet
the call commits `cache_B`, rewritten from the zero record, so its voter is
gone; and the one `Write` also commits the stale `amount_C` put. -/
theorem updateCacheTable_commits_stale_rows :
    ((ballotWorld.table (.ballot "B")).bind Message.decode : Option CandidateRatio) = none ∧
      (updateCacheTable (.ok ()) ballotWorld).table (.cache "B") =
        some (Message.encode ({ votingUser := default, ratio := 0, totalVote := "" } :
          CacheVoteCandidate)) ∧
      ballotWorld.table (.amount "C") = none ∧
      (updateCacheTable (.ok ()) ballotWorld).table (.amount "C") = some .corrupt :=
  ⟨rfl, rfl, rfl, rfl⟩

end XuperMiner
