import XuperMiner.Batch
import XuperMiner.Mining
import XuperMiner.Sync

/-!
# XuperMiner.Loop

`Miner.Start`, the mining thread's loop (spec §4.8), run together with the
ingress thread's `ProcBlock` calls (spec §4.9) and `Miner.Stop`.

The loop is a state machine over `Sys`: the shared `World`, the loop's own
variables (`Loop`), the exit flag, and a record of every iteration
(`Iter`: the collaborator calls it made and what they answered).  A run
is a list of `Action`s, each one atomic step of one thread:

* `miner env` runs the step of `Miner.Start` the mining thread is at,
  `env` holding the answers of that step's collaborator calls;
* `ingress env fuel block` runs one whole `ProcBlock(block)`, its checks
  and its `trySyncBlock` back to back;
* `procChecks env fuel block` runs only `ProcBlock(block)`'s checks,
  which take no lock; an admitted call then waits for `minerMutex`
  (`Sys.waiting`);
* `lockSync i`: the `i`-th waiting call takes `minerMutex` and runs its
  `trySyncBlock`, whose answer `ProcBlock` returns;
* `stop` is `Miner.Stop()`.

A step of the loop is atomic: `trySyncBlock` and `mining` hold
`minerMutex` for their whole run.  `ProcBlock` checks the in-sync record
outside the lock, so any steps may run between a `procChecks` and its
`lockSync`.  `ReadTermTable`, `UpdateCacheTable` and `ClearThawTx` take no
lock, but they touch only the side tables, which `ProcBlock` does not.  A
call that does not return within its fuel ends the run.  The sleep after
an error is real time and is left out.
-/

namespace XuperMiner

/-! ## The loop's state -/

/-- Where the mining thread is: before the step of `Miner.Start` of that
name, or out of the loop. -/
inductive Phase where
  | walk
  | compete
  | readTerm
  | updateCache
  | sync
  | mine
  | clear
  | finish
  | exited
  deriving DecidableEq, Repr

/-- The local variables of `Miner.Start`: `err`, `isMiner`, `isSync` and
the snapshots live across iterations, `flag` within one. -/
structure Loop where
  phase : Phase
  err : Except Err Unit
  isMiner : Bool
  isSync : Bool
  flag : Bool
  ledgerTipId : BlockId
  ledgerTipHeight : Int
  stateTipId : BlockId

/-- A `mining` call: the trunk height when it began, whether
`ProcessBeforeMiner` asked for a truncation, the block it packed, and its
error. -/
structure MineCall where
  trunkHeight : Int
  truncated : Bool
  packed : Option Block
  result : Except Err Unit

/-- The collaborator calls of one iteration and their answers:
`competed` is `CompeteMaster`'s height and `(isMiner, isSync, err)`,
`termRead` the term `GetConsensusStatus` reported and what
`ReadTermTable` returned, `cleared` the height `ClearThawTx` was given. -/
structure Iter where
  walked : Option (Except Err Unit) := none
  competed : Option (Int × Bool × Bool × Except Err Unit) := none
  termRead : Option (Except Err Int × Except Err Bool) := none
  cacheUpdated : Bool := false
  synced : Option (Except Err Unit) := none
  mined : Option MineCall := none
  cleared : Option Int := none

/-- The miner and the world it shares: `cur` is the iteration under way,
`trace` the finished ones, newest first. -/
structure Sys where
  world : World
  loop : Loop
  isExit : Bool
  cur : Iter
  trace : List Iter
  /-- The admitted `ProcBlock` calls waiting for `minerMutex`: the answers
  their `trySyncBlock` will get, its fuel, and the block. -/
  waiting : List (IngressEnv × Nat × Block)

/-- What the collaborators answer to the mining thread during one step; a
step reads only the answers of the calls it makes. -/
structure PhaseEnv where
  /-- `State.Walk(ledgerTipId)`. -/
  walk : Except Err Unit
  /-- `Consensus.CompeteMaster(height)`: `(isMiner, isSync, err)`. -/
  competeMaster : Bool × Bool × Except Err Unit
  /-- `Consensus.GetConsensusStatus()`: the current term. -/
  termStatus : Except Err Int
  /-- `ConfirmBatch.Write()` in `ReadTermTable`. -/
  termWritten : Except Err Unit
  /-- `ConfirmBatch.Write()` in `UpdateCacheTable`. -/
  cacheWritten : Except Err Unit
  /-- The answers during `trySyncBlock(nil)`, and its fuel. -/
  sync : SyncEnv
  syncFuel : Nat
  /-- The answers during `mining`. -/
  mining : MiningEnv
  /-- The writes of `ClearThawTx`, in order. -/
  clearWritten : Nat → Except Err Unit

/-- One atomic step of one thread. -/
inductive Action where
  | miner (env : PhaseEnv)
  | ingress (env : IngressEnv) (fuel : Nat) (block : Option Block)
  | procChecks (env : IngressEnv) (fuel : Nat) (block : Option Block)
  | lockSync (i : Nat)
  | stop

/-- The state `Miner.Start` enters its loop in: no error, not a miner, and
the snapshots taken from the ledger and the state machine. -/
def Sys.start (w : World) : Sys where
  world := w
  loop :=
    { phase := .walk
      err := .ok ()
      isMiner := false
      isSync := false
      flag := false
      ledgerTipId := w.tipBlockid
      ledgerTipHeight := w.trunkHeight
      stateTipId := w.latest }
  isExit := false
  cur := {}
  trace := []
  waiting := []

/-! ## The steps of an iteration -/

/-- Go's `err == nil`. -/
def Loop.ok (l : Loop) : Bool := l.err matches .ok _

/-- The loop head and step 1: leave when `IsExit()`; else, when the
snapshots differ, walk the state machine to the snapshot ledger tip. -/
def walkStep (env : PhaseEnv) (s : Sys) : Sys :=
  if s.isExit then { s with loop := { s.loop with phase := .exited } }
  else if s.loop.ledgerTipId ≠ s.loop.stateTipId then
    { s with
      world := match env.walk with
        | .ok () => s.world.moveState s.loop.ledgerTipId
        | .error _ => s.world
      loop := { s.loop with phase := .compete, err := env.walk }
      cur := { s.cur with walked := some env.walk } }
  else { s with loop := { s.loop with phase := .compete } }

/-- Step 2: `isMiner, isSync, err = CompeteMaster(ledgerTipHeight + 1)`
when `err == nil`. -/
def competeStep (env : PhaseEnv) (s : Sys) : Sys :=
  if s.loop.ok then
    let (isMiner, isSync, err) := env.competeMaster
    { s with
      loop := { s.loop with phase := .readTerm, isMiner, isSync, err }
      cur := { s.cur with
        competed := some (s.loop.ledgerTipHeight + 1, isMiner, isSync, err) } }
  else { s with loop := { s.loop with phase := .readTerm } }

/-- `flag, err = ReadTermTable()`, overwriting `err`; `UpdateCacheTable`
comes next when `flag` is set. -/
def readTermStep (env : PhaseEnv) (s : Sys) : Sys :=
  let (w, r) := readTermTable env.termStatus env.termWritten s.world
  let (flag, err) : Bool × Except Err Unit := match r with
    | .ok b => (b, .ok ())
    | .error e => (false, .error e)
  { s with
    world := w
    loop := { s.loop with phase := if flag then .updateCache else .sync, flag, err }
    cur := { s.cur with termRead := some (env.termStatus, r) } }

/-- `UpdateCacheTable()`. -/
def updateCacheStep (env : PhaseEnv) (s : Sys) : Sys :=
  { s with
    world := updateCacheTable env.cacheWritten s.world
    loop := { s.loop with phase := .sync }
    cur := { s.cur with cacheUpdated := true } }

/-- Step 3: `err = trySyncBlock(nil)` when `err == nil && isMiner &&
isSync`. -/
def syncStep (env : PhaseEnv) (s : Sys) : Option Sys :=
  if s.loop.ok && s.loop.isMiner && s.loop.isSync then
    (trySyncBlock env.sync env.syncFuel none s.world).map fun (w, r) =>
      { s with
        world := w
        loop := { s.loop with phase := .mine, err := r }
        cur := { s.cur with synced := some r } }
  else some { s with loop := { s.loop with phase := .mine } }

/-- Step 4: `err = mining(flag)` when `err == nil && isMiner`. -/
def mineStep (env : PhaseEnv) (s : Sys) : Sys :=
  if s.loop.ok && s.loop.isMiner then
    let m := mining env.mining s.loop.flag s.world
    { s with
      world := m.world
      loop := { s.loop with phase := .clear, err := m.result }
      cur := { s.cur with
        mined := some ⟨s.world.trunkHeight, env.mining.truncates, m.packed, m.result⟩ } }
  else { s with loop := { s.loop with phase := .clear } }

/-- Step 4.1: `ClearThawTx(TrunkHeight - 1)`, its error dropped. -/
def clearStep (env : PhaseEnv) (s : Sys) : Sys :=
  let height := s.world.trunkHeight - 1
  { s with
    world := (clearThawTx height env.clearWritten s.world).1
    loop := { s.loop with phase := .finish }
    cur := { s.cur with cleared := some height } }

/-- Steps 5 and 6: unless `IsExit()`, clear `err` and take the snapshots
again.  The iteration ends. -/
def finishStep (s : Sys) : Sys :=
  { s with
    loop := if s.isExit then { s.loop with phase := .walk }
      else { s.loop with
        phase := .walk
        err := .ok ()
        ledgerTipId := s.world.tipBlockid
        ledgerTipHeight := s.world.trunkHeight
        stateTipId := s.world.latest }
    cur := {}
    trace := s.cur :: s.trace }

/-- The mining thread's next step; `none` when it makes a call that does
not return. -/
def minerStep (env : PhaseEnv) (s : Sys) : Option Sys :=
  match s.loop.phase with
  | .walk => some (walkStep env s)
  | .compete => some (competeStep env s)
  | .readTerm => some (readTermStep env s)
  | .updateCache => some (updateCacheStep env s)
  | .sync => syncStep env s
  | .mine => some (mineStep env s)
  | .clear => some (clearStep env s)
  | .finish => some (finishStep s)
  | .exited => some s

/-- One step of either thread, or `Stop()`. -/
def step (s : Sys) : Action → Option Sys
  | .miner env => minerStep env s
  | .ingress env fuel block =>
    (procBlock env fuel block s.world).map fun (w, _) => { s with world := w }
  | .procChecks env fuel block =>
    match admitBlock env block s.world with
    | .error _ => some s
    | .ok b => some { s with waiting := s.waiting ++ [(env, fuel, b)] }
  | .lockSync i =>
    match s.waiting[i]? with
    | none => some s
    | some (env, fuel, b) =>
      (trySyncBlock env.sync fuel (some b) s.world).map fun (w, _) =>
        { s with world := w, waiting := s.waiting.eraseIdx i }
  | .stop => some { s with isExit := true }

/-- A run: the actions in order, until one makes a call that does not
return. -/
def run (s : Sys) : List Action → Sys
  | [] => s
  | a :: as =>
    match step s a with
    | some s' => run s' as
    | none => s

/-- `ProcBlock`'s checks only add the call to the waiting ones. -/
theorem step_procChecks {s s' : Sys} {env : IngressEnv} {fuel : Nat} {block : Option Block}
    (h : step s (.procChecks env fuel block) = some s') :
    ∃ q, s' = { s with waiting := q } ∧ ∀ p ∈ q, p ∈ s.waiting ∨ p.1 = env := by
  simp only [step] at h
  split at h <;> cases h
  · exact ⟨_, rfl, fun p hp => .inl hp⟩
  · refine ⟨_, rfl, fun p hp => ?_⟩
    rcases List.mem_append.1 hp with hp | hp
    exacts [.inl hp, .inr (List.mem_singleton.1 hp ▸ rfl)]

/-- A waiting call that takes `minerMutex` moves the world by its
`trySyncBlock`, and nothing else of the mining thread. -/
theorem step_lockSync {s s' : Sys} {i : Nat} (h : step s (.lockSync i) = some s') :
    ∃ w q, s' = { s with world := w, waiting := q } ∧ (∀ p ∈ q, p ∈ s.waiting) ∧
      (w = s.world ∨ ∃ (env : IngressEnv) (fuel : Nat) (b : Block) (r : Except Err Unit),
        (env, fuel, b) ∈ s.waiting ∧ trySyncBlock env.sync fuel (some b) s.world = some (w, r)) := by
  rcases hw : s.waiting[i]? with _ | ⟨env, fuel, b⟩ <;> simp only [step, hw] at h
  · cases h; exact ⟨s.world, s.waiting, rfl, fun _ => id, .inl rfl⟩
  · obtain ⟨⟨w, r⟩, hs, rfl⟩ := Option.map_eq_some'.1 h
    exact ⟨w, _, rfl, fun _ => List.mem_of_mem_eraseIdx,
      .inr ⟨env, fuel, b, r, List.getElem?_mem hw, hs⟩⟩

/-! ## What a step does to the side tables -/

/-- What `GetConsensusStatus` and `ReadTermTable` answered, iteration by
iteration, newest first. -/
def termReads (s : Sys) : List (Option (Except Err Int × Except Err Bool)) :=
  (s.cur :: s.trace).map (·.termRead)

/-- **One step.**  A step is `ReadTermTable`'s, or it keeps the record of
`ReadTermTable` answers (the end of an iteration opens an empty one) and
changes the side tables only by puts on keys other than `tdpos_term` and
by writes. -/
theorem step_cases {s s' : Sys} {a : Action} (h : step s a = some s') :
    (∃ env, a = .miner env ∧ s.loop.phase = .readTerm ∧ s' = readTermStep env s) ∨
      ((termReads s' = termReads s ∨ termReads s' = none :: termReads s) ∧
        (s.world.SameTables s'.world ∨ Staged (· ≠ .term) s.world s'.world)) := by
  cases a with
  | miner env =>
    simp only [step, minerStep] at h
    rcases hp : s.loop.phase <;> simp only [hp] at h <;> (try cases h)
    · right
      unfold walkStep
      split_ifs
      · exact ⟨.inl rfl, .inl .rfl⟩
      · exact ⟨.inl rfl, .inl (by split <;> exact ⟨rfl, rfl⟩)⟩
      · exact ⟨.inl rfl, .inl .rfl⟩
    · right
      unfold competeStep
      split_ifs <;> exact ⟨.inl rfl, .inl .rfl⟩
    · exact .inl ⟨env, rfl, rfl, rfl⟩
    · exact .inr ⟨.inl rfl, .inr ((updateCacheTable_staged _ _).mono fun k ⟨a, hk⟩ => by
        simp [hk])⟩
    · right
      unfold syncStep at h
      split_ifs at h
      · obtain ⟨⟨w, r⟩, hs, rfl⟩ := Option.map_eq_some'.1 h
        exact ⟨.inl rfl, .inl (trySyncBlock_tables hs)⟩
      · cases h; exact ⟨.inl rfl, .inl .rfl⟩
    · right
      unfold mineStep
      split_ifs
      · exact ⟨.inl rfl, .inl (mining_tables _ _ _)⟩
      · exact ⟨.inl rfl, .inl .rfl⟩
    · exact .inr ⟨.inl rfl, .inr ((clearThawTx_staged _ _ _).mono fun k hk => by
        rcases hk with ⟨a, rfl⟩ | rfl <;> simp)⟩
    · exact .inr ⟨.inr rfl, .inl .rfl⟩
    · exact .inr ⟨.inl rfl, .inl .rfl⟩
  | ingress env fuel block =>
    unfold step at h
    obtain ⟨⟨w, r⟩, hp, rfl⟩ := Option.map_eq_some'.1 h
    exact .inr ⟨.inl rfl, .inl (procBlock_tables hp)⟩
  | procChecks env fuel block =>
    obtain ⟨q, rfl, -⟩ := step_procChecks h
    exact .inr ⟨.inl rfl, .inl .rfl⟩
  | lockSync i =>
    obtain ⟨w, q, rfl, -, rfl | ⟨env, fuel, b, r, -, hs⟩⟩ := step_lockSync h
    · exact .inr ⟨.inl rfl, .inl .rfl⟩
    · exact .inr ⟨.inl rfl, .inl (trySyncBlock_tables hs)⟩
  | stop =>
    cases h
    exact .inr ⟨.inl rfl, .inl .rfl⟩

/-- Every step changes the side tables by puts and writes, or not at all. -/
theorem step_staged {s s' : Sys} {a : Action} (h : step s a = some s') :
    s.world.SameTables s'.world ∨ Staged (fun _ => True) s.world s'.world := by
  rcases step_cases h with ⟨env, -, -, rfl⟩ | ⟨-, hw | hw⟩
  · exact .inr ((readTermTable_staged _ _ _).mono fun _ _ => trivial)
  · exact .inl hw
  · exact .inr (hw.mono fun _ _ => trivial)

/-! ## Runs -/

/-- A run of `acts ++ acts'` is the run of `acts` continued, unless a call
of `acts` did not return. -/
theorem run_append (s : Sys) (acts acts' : List Action) :
    run s (acts ++ acts') = run s acts ∨ run s (acts ++ acts') = run (run s acts) acts' := by
  induction acts generalizing s with
  | nil => exact .inr rfl
  | cons a acts ih =>
    simp only [List.cons_append, run]
    split
    · exact ih _
    · exact .inl rfl

/-- What every step of an action allowed by `A` keeps holds after every run
of such actions. -/
theorem run_induction (P : Sys → Prop) (A : Action → Prop)
    (hstep : ∀ s s' a, A a → step s a = some s' → P s → P s') {s : Sys} (h : P s)
    (acts : List Action) (hA : ∀ a ∈ acts, A a) : P (run s acts) := by
  induction acts generalizing s with
  | nil => exact h
  | cons a acts ih =>
    simp only [run]
    split
    · exact ih (hstep _ _ _ (hA a (.head _)) ‹_› h) fun a' ha' => hA a' (.tail _ ha')
    · exact h

/-! ## Mining follows a successful `CompeteMaster` -/

/-- What an iteration's record promises: when its `CompeteMaster` call
succeeded, `trySyncBlock(nil)` was called only by a syncing miner and
`mining` only by a miner; and a `mining` call without truncation packed
at one above the trunk height it was called at. -/
def Iter.Sound (it : Iter) : Prop :=
  (∀ h m y, it.competed = some (h, m, y, .ok ()) →
      (it.synced.isSome → m = true ∧ y = true) ∧ (it.mined.isSome → m = true)) ∧
    ∀ c b, it.mined = some c → c.truncated = false → c.packed = some b →
      b.height = c.trunkHeight + 1

/-- The loop invariant: every iteration's record is sound, `isMiner` and
`isSync` are what the current iteration's successful `CompeteMaster`
answered, and before `CompeteMaster` the current record holds no compete,
sync or mining call. -/
structure LoopInv (s : Sys) : Prop where
  trace : ∀ it ∈ s.trace, it.Sound
  cur : s.cur.Sound
  competed : ∀ h m y, s.cur.competed = some (h, m, y, .ok ()) →
    s.loop.isMiner = m ∧ s.loop.isSync = y
  fresh : s.loop.phase = .walk ∨ s.loop.phase = .compete →
    s.cur.competed = none ∧ s.cur.synced = none ∧ s.cur.mined = none

/-- The loop invariant holds when `Miner.Start` enters its loop. -/
theorem loopInv_start (w : World) : LoopInv (Sys.start w) :=
  ⟨by simp [Sys.start], ⟨by simp [Sys.start], by simp [Sys.start]⟩, by simp [Sys.start],
    fun _ => ⟨rfl, rfl, rfl⟩⟩

/-- A step that leaves the finished iterations, the current record's
compete, sync and mining calls, and `isMiner`/`isSync` alone, and does not
go back before `CompeteMaster`, keeps the invariant. -/
theorem LoopInv.frame {s s' : Sys} (hs : LoopInv s) (htr : s'.trace = s.trace)
    (hc : s'.cur.competed = s.cur.competed) (hsy : s'.cur.synced = s.cur.synced)
    (hm : s'.cur.mined = s.cur.mined) (hmi : s'.loop.isMiner = s.loop.isMiner)
    (his : s'.loop.isSync = s.loop.isSync)
    (hph : s'.loop.phase = .walk ∨ s'.loop.phase = .compete →
      s.loop.phase = .walk ∨ s.loop.phase = .compete) : LoopInv s' where
  trace := htr ▸ hs.trace
  cur := by unfold Iter.Sound; rw [hc, hsy, hm]; exact hs.cur
  competed := by rw [hc, hmi, his]; exact hs.competed
  fresh := fun hp => by rw [hc, hsy, hm]; exact hs.fresh (hph hp)

/-- `CompeteMaster` sets `isMiner` and `isSync` and records them together. -/
theorem competeStep_loopInv (env : PhaseEnv) {s : Sys} (hs : LoopInv s)
    (hp : s.loop.phase = .compete) : LoopInv (competeStep env s) := by
  obtain ⟨hc, hsy, hm⟩ := hs.fresh (.inr hp)
  unfold competeStep
  split_ifs
  · obtain ⟨m, y, e⟩ := env.competeMaster
    refine ⟨hs.trace, ⟨fun _ _ _ he => ?_, fun _ _ hmc => ?_⟩, fun _ _ _ he => ?_, by simp⟩
    · simp [hsy, hm]
    · simp [hm] at hmc
    · simp only [Option.some.injEq, Prod.mk.injEq] at he
      exact ⟨he.2.1, he.2.2.1⟩
  · exact hs.frame rfl rfl rfl rfl rfl rfl (by simp)

/-- `trySyncBlock(nil)` runs only when `isMiner` and `isSync` hold. -/
theorem syncStep_loopInv {env : PhaseEnv} {s s' : Sys} (hs : LoopInv s)
    (hp : s.loop.phase = .sync) (h : syncStep env s = some s') : LoopInv s' := by
  unfold syncStep at h
  split_ifs at h with hg
  · obtain ⟨⟨w, r⟩, -, rfl⟩ := Option.map_eq_some'.1 h
    simp only [Bool.and_eq_true] at hg
    refine ⟨hs.trace, ⟨fun h m y he => ⟨fun _ => ?_, hs.cur.1 h m y he |>.2⟩, hs.cur.2⟩,
      hs.competed, by simp⟩
    obtain ⟨hmi, his⟩ := hs.competed h m y he
    exact ⟨hmi ▸ hg.1.2, his ▸ hg.2⟩
  · cases h
    exact hs.frame rfl rfl rfl rfl rfl rfl (by simp [hp])

/-- `mining` runs only when `isMiner` holds, and packs above the trunk. -/
theorem mineStep_loopInv (env : PhaseEnv) {s : Sys} (hs : LoopInv s)
    (hp : s.loop.phase = .mine) : LoopInv (mineStep env s) := by
  unfold mineStep
  split_ifs with hg
  · simp only [Bool.and_eq_true] at hg
    refine ⟨hs.trace, ⟨fun h m y he => ⟨hs.cur.1 h m y he |>.1, fun _ => ?_⟩, ?_⟩,
      hs.competed, by simp⟩
    · exact (hs.competed h m y he).1 ▸ hg.2
    · rintro c b hc ht hb
      simp only [Option.some.injEq] at hc
      subst hc
      exact mining_packed_height ht hb
  · exact hs.frame rfl rfl rfl rfl rfl rfl (by simp [hp])

/-- The end of an iteration files its record and opens an empty one. -/
theorem finishStep_loopInv {s : Sys} (hs : LoopInv s) : LoopInv (finishStep s) where
  trace := by
    simp only [finishStep, List.mem_cons, forall_eq_or_imp]
    exact ⟨hs.cur, hs.trace⟩
  cur := ⟨by simp [finishStep], by simp [finishStep]⟩
  competed := by simp [finishStep]
  fresh := fun _ => ⟨rfl, rfl, rfl⟩

/-- Every step keeps the loop invariant. -/
theorem step_loopInv {s s' : Sys} {a : Action} (h : step s a = some s') (hs : LoopInv s) :
    LoopInv s' := by
  cases a with
  | ingress env fuel block =>
    obtain ⟨⟨w, r⟩, -, rfl⟩ := Option.map_eq_some'.1 h
    exact hs.frame rfl rfl rfl rfl rfl rfl id
  | procChecks env fuel block =>
    obtain ⟨q, rfl, -⟩ := step_procChecks h
    exact hs.frame rfl rfl rfl rfl rfl rfl id
  | lockSync i =>
    obtain ⟨w, q, rfl, -, -⟩ := step_lockSync h
    exact hs.frame rfl rfl rfl rfl rfl rfl id
  | stop =>
    cases h
    exact hs.frame rfl rfl rfl rfl rfl rfl id
  | miner env =>
    simp only [step, minerStep] at h
    rcases hp : s.loop.phase <;> simp only [hp] at h <;> (try cases h)
    · unfold walkStep
      split_ifs
      · exact hs.frame rfl rfl rfl rfl rfl rfl (by simp)
      · exact hs.frame rfl rfl rfl rfl rfl rfl (fun _ => .inl hp)
      · exact hs.frame rfl rfl rfl rfl rfl rfl (fun _ => .inl hp)
    · exact competeStep_loopInv env hs hp
    · unfold readTermStep
      refine hs.frame rfl rfl rfl rfl rfl rfl ?_
      split
      rename_i r _
      rcases r with _ | _ | _ <;> simp
    · exact hs.frame rfl rfl rfl rfl rfl rfl (by simp [updateCacheStep])
    · exact syncStep_loopInv hs hp h
    · exact mineStep_loopInv env hs hp
    · exact hs.frame rfl rfl rfl rfl rfl rfl (by simp [clearStep])
    · exact finishStep_loopInv hs
    · exact hs

/-- **Mining follows a successful `CompeteMaster`.**  In every run of
`Miner.Start`, under any interleaving with `ProcBlock` and any answers of
the collaborators, every iteration whose `CompeteMaster(h)` call returned
a nil error called `trySyncBlock(nil)` only if that call answered
`isMiner` and `isSync`, and `mining` only if it answered `isMiner`; and
every `mining` call without a truncation packed its block at one above
the trunk height the ledger had when the call began. -/
theorem run_mining_follows_compete (w : World) (acts : List Action) :
    ∀ it ∈ (run (Sys.start w) acts).cur :: (run (Sys.start w) acts).trace,
      (∀ h m y, it.competed = some (h, m, y, .ok ()) →
        (it.synced.isSome → m = true ∧ y = true) ∧ (it.mined.isSome → m = true)) ∧
      ∀ c b, it.mined = some c → c.truncated = false → c.packed = some b →
        b.height = c.trunkHeight + 1 := by
  have hinv := run_induction LoopInv (fun _ => True) (fun _ _ _ _ h hs => step_loopInv h hs)
    (loopInv_start w) acts (fun _ _ => trivial)
  intro it hit
  rcases List.mem_cons.1 hit with rfl | hit
  · exact hinv.cur
  · exact hinv.trace it hit

/-- The block at height `n` of a chain on the genesis block, with id `[n]`. -/
def chainBlock (n : Nat) : Block :=
  { genesisBlock with blockid := [n.toUInt8], preHash := [(n - 1).toUInt8], height := n }

/-- A network where one neighbour reports block `1` at trunk height `1`
and everyone confirms it. -/
def blockOneNet : SyncEnv :=
  { acceptingSync with
    net :=
      { statusResponses := .ok [some ⟨some ⟨1⟩, some (chainBlock 1)⟩]
        confirmResponses := fun _ => .ok [some true]
        sort := id } }

/-- A syncing miner whose state walks fail, as does `PlayForMiner` after
the ledger confirmed its block `[2]`; consensus reports no term. -/
def staleEnv : PhaseEnv where
  walk := .error (.external 0)
  competeMaster := (true, true, .ok ())
  termStatus := .error (.external 0)
  termWritten := .ok ()
  cacheWritten := .ok ()
  sync := blockOneNet
  syncFuel := 1
  mining := { reverseFailsEnv with calculateBlock := .ok [2], playForMiner := .error (.external 0) }
  clearWritten := fun _ => .ok ()

/-- Two iterations from genesis, newest first.  The first calls
`CompeteMaster(1)`, which answers a syncing miner; the sync confirms block
`1`, so the block it mines has height `2`.  Its `PlayForMiner` fails, the
second iteration's walk fails and it never calls `CompeteMaster`; but
`ReadTermTable` clears `err`, and it syncs and mines on the first
iteration's answers. -/
theorem run_mines_without_compete :
    ((run (Sys.start genesisWorld) (List.replicate 16 (.miner staleEnv))).trace.map fun it =>
        (it.competed, it.synced.isSome, it.mined.map fun c => c.packed.map (·.height))) =
      [(none, true, some (some 3)), (some (1, true, true, .ok ()), true, some (some 2))] :=
  rfl

/-- Five steps from genesis: the first iteration has competed, synced and
mined, and its record keeps the law. -/
theorem run_mining_follows_compete_staleEnv :
    let s := run (Sys.start genesisWorld) (List.replicate 5 (.miner staleEnv))
    s.cur ∈ s.cur :: s.trace ∧
      (∀ h m y, s.cur.competed = some (h, m, y, .ok ()) →
        (s.cur.synced.isSome → m = true ∧ y = true) ∧ (s.cur.mined.isSome → m = true)) ∧
      ∀ c b, s.cur.mined = some c → c.truncated = false → c.packed = some b →
        b.height = c.trunkHeight + 1 :=
  ⟨List.mem_cons_self _ _, run_mining_follows_compete _ _ _ (List.mem_cons_self _ _)⟩

/-! ## The confirm batch across a run -/

/-- The batch is never reset: a run only appends to it. -/
theorem run_batch_prefix (s : Sys) (acts : List Action) :
    s.world.batch <+: (run s acts).world.batch := by
  refine run_induction (fun s' => s.world.batch <+: s'.world.batch) (fun _ => True)
    (fun s₁ s₂ a _ h hp => ?_) (List.prefix_refl _) acts (fun _ _ => trivial)
  rcases step_staged h with hw | hw
  · rwa [hw.batch]
  · obtain ⟨puts, hb, -⟩ := hw.batch_eq
    rw [hb]
    exact hp.trans (List.prefix_append _ _)

/-- A run keeps the table a committed prefix of the batch. -/
theorem run_committed {t₀ : ConfirmedTable} {s : Sys} (h : Committed t₀ s.world)
    (acts : List Action) : Committed t₀ (run s acts).world :=
  run_induction (fun s => Committed t₀ s.world) (fun _ => True)
    (fun _ _ _ _ h hc => (step_staged h).elim (hc.of_sameTables ·) (·.committed hc)) h acts
    (fun _ _ => trivial)

/-- **The confirm batch is never reset.**  From a node whose batch is
empty, every put staged up to any point of a run is still on the batch at
any later point, also inside a later side-table call, and a successful
`Write` there, whichever call issues it, commits the whole batch: the
table becomes the one the run started on with every put staged since
applied in order. -/
theorem run_write_commits_batch (s₀ : Sys) (hb : s₀.world.batch = []) (acts acts' : List Action)
    {keys : Key → Prop} {w : World} (hw : Staged keys (run s₀ (acts ++ acts')).world w) :
    (run s₀ acts).world.batch <+: w.batch ∧
      (w.write (.ok ())).table = s₀.world.table.commit w.batch := by
  refine ⟨?_, (hw.committed (run_committed (committed_of_batch_nil hb) _)).write_ok⟩
  obtain ⟨puts, hwb, -⟩ := hw.batch_eq
  rw [hwb]
  refine List.IsPrefix.trans ?_ (List.prefix_append _ _)
  rcases run_append s₀ acts acts' with h | h
  · exact h ▸ List.prefix_refl _
  · exact h ▸ run_batch_prefix _ _

/-- A node at genesis whose term row records term `0`, with candidates `A`
and `B`, and a `cache_B` row that does not decode. -/
def cycleWorld : World :=
  { genesisWorld with
    table := fun
      | .term => some (Message.encode ({ trem := 0, newCycle := false } : TermTable))
      | .candidates => some (Message.encode
          ({ candidate := ⟨[("a", "A"), ("b", "B")], by decide⟩ } : AllCandidate))
      | .cache "B" => some .corrupt
      | _ => none }

/-- A node that is not a miner, in term `1`, every write succeeding. -/
def termEnv : PhaseEnv :=
  { staleEnv with competeMaster := (false, false, .ok ()), termStatus := .ok 1 }

/-- On `cycleWorld`, the first iteration and three steps into the second,
with the batch as the second iteration's `ReadTermTable` leaves it. -/
theorem run_write_commits_batch_cycleWorld :
    (Sys.start cycleWorld).world.batch = [] ∧
      (run (Sys.start cycleWorld) (List.replicate 8 (.miner termEnv))).world.batch <+:
        (run (Sys.start cycleWorld)
          (List.replicate 8 (.miner termEnv) ++ List.replicate 3 (.miner termEnv))).world.batch ∧
      ((run (Sys.start cycleWorld)
          (List.replicate 8 (.miner termEnv) ++ List.replicate 3 (.miner termEnv))).world.write
            (.ok ())).table =
        cycleWorld.table.commit (run (Sys.start cycleWorld)
          (List.replicate 8 (.miner termEnv) ++ List.replicate 3 (.miner termEnv))).world.batch :=
  ⟨rfl, run_write_commits_batch (Sys.start cycleWorld) rfl _ _ (@Staged.refl (fun _ => True) _)⟩

/-- The new cycle of term `1` makes `UpdateCacheTable` stage `cache_A` and
stop at `cache_B` before its `Write`: after the first iteration `cache_A`
is not committed.  Three steps later the next `ReadTermTable`'s own write
commits it. -/
theorem run_commits_abandoned_cache_row :
    (run (Sys.start cycleWorld) (List.replicate 8 (.miner termEnv))).trace.map (·.cacheUpdated) =
        [true] ∧
      (run (Sys.start cycleWorld) (List.replicate 8 (.miner termEnv))).world.table (.cache "A") =
        none ∧
      (run (Sys.start cycleWorld) (List.replicate 11 (.miner termEnv))).world.table (.cache "A") =
        some (Message.encode (refreshCache default default)) :=
  ⟨rfl, rfl, rfl⟩

/-! ## At most one new cycle per term -/

/-- Whether a recorded `ReadTermTable` call answered `true`. -/
def answeredTrue : Option (Except Err Int × Except Err Bool) → Bool
  | some (_, .ok true) => true
  | _ => false

/-- A recorded call answered `true` exactly when its result was `true`. -/
theorem answeredTrue_some (st : Except Err Int) (r : Except Err Bool) :
    answeredTrue (some (st, r)) = true ↔ r = .ok true := by
  rcases r with _ | _ | _ <;> simp [answeredTrue]

/-- The `ReadTermTable` calls recorded as answering `true`. -/
def newCycles (s : Sys) : Nat := (termReads s).countP answeredTrue

/-- `ReadTermTable`'s step adds at most its own answer to the count. -/
theorem newCycles_readTermStep (env : PhaseEnv) (s : Sys) :
    newCycles (readTermStep env s) ≤ newCycles s + (if answeredTrue (some (env.termStatus,
        (readTermTable env.termStatus env.termWritten s.world).2)) then 1 else 0) := by
  have htrace : (readTermStep env s).trace = s.trace := rfl
  have hcur : (readTermStep env s).cur.termRead =
      some (env.termStatus, (readTermTable env.termStatus env.termWritten s.world).2) := rfl
  simp only [newCycles, termReads, List.map_cons, List.countP_cons, htrace, hcur]
  omega

/-- A call observing `t`, or failing to observe a term, answers `true` only
while the term row is not pinned to `t` and pins it; a pin it finds stays. -/
theorem readTermTable_pin {t : Int} {st : Except Err Int}
    (hst : st = .ok t ∨ ∃ e, st = .error e) (o : Except Err Unit) (w : World) :
    ((readTermTable st o w).2 = .ok true →
        ¬ TermPinned t w ∧ TermPinned t (readTermTable st o w).1) ∧
      (TermPinned t w → TermPinned t (readTermTable st o w).1) := by
  rcases hst with rfl | ⟨e, rfl⟩
  · exact ⟨fun hr => ⟨fun hp => (readTermTable_pinned hp).1 hr, readTermTable_true_pinned hr⟩,
      fun hp => (readTermTable_pinned hp).2⟩
  · exact ⟨(nomatch ·), id⟩

/-- Once a call observing `t` answered `true`, the term row is pinned to `t`. -/
def NewCycleInv (t : Int) (s : Sys) : Prop :=
  newCycles s ≤ 1 ∧ (newCycles s = 1 → TermPinned t s.world)

/-- A step in which consensus reports `t`, or fails to report, keeps
`NewCycleInv t`. -/
theorem step_newCycleInv {t : Int} {s s' : Sys} {a : Action}
    (ha : ∀ env, a = .miner env → env.termStatus = .ok t ∨ ∃ e, env.termStatus = .error e)
    (h : step s a = some s') (hs : NewCycleInv t s) : NewCycleInv t s' := by
  obtain ⟨hle, hpin⟩ := hs
  rcases step_cases h with ⟨env, rfl, -, rfl⟩ | ⟨hr, hw⟩
  · have hcount := newCycles_readTermStep env s
    obtain ⟨hnew, hkeep⟩ := readTermTable_pin (ha env rfl) env.termWritten s.world
    cases hb : answeredTrue (some (env.termStatus,
        (readTermTable env.termStatus env.termWritten s.world).2)) <;>
      simp only [hb, if_true, Bool.false_eq_true, if_false] at hcount
    case false => exact ⟨by omega, fun h1 => hkeep (hpin (by omega))⟩
    case true =>
      obtain ⟨hnp, hp⟩ := hnew ((answeredTrue_some _ _).1 hb)
      have h0 : newCycles s = 0 := by by_contra h0; exact hnp (hpin (by omega))
      exact ⟨by omega, fun _ => hp⟩
  · have hc : newCycles s' = newCycles s := by
      rcases hr with hr | hr <;> simp [newCycles, hr, List.countP_cons, answeredTrue]
    rw [NewCycleInv, hc]
    refine ⟨hle, fun h1 => ?_⟩
    rcases hw with hw | hw
    · exact (hpin h1).of_sameTables hw
    · exact hw.termPinned (by simp) (hpin h1)

/-- **At most one new cycle per term.**  Take any stretch of a run,
from any state with nothing recorded yet, in which consensus reports the
term `t` (or fails to report one) whenever `ReadTermTable` asks.  At most
one `ReadTermTable` call of the stretch answers `true`, and after it the
committed `tdpos_term` row records `t`.  A call answers `true` exactly when
the committed row decodes to another term and its own `Write` succeeds. -/
theorem run_new_cycle_at_most_once (s : Sys) (hs : s.cur = {} ∧ s.trace = []) (t : Int)
    (acts : List Action)
    (hterm : ∀ env, .miner env ∈ acts → env.termStatus = .ok t ∨ ∃ e, env.termStatus = .error e) :
    (∀ o w, (readTermTable (.ok t) o w).2 = .ok true ↔
      (∃ old : TermTable, (w.table .term).bind Message.decode = some old ∧ old.trem ≠ t) ∧
        o = .ok ()) ∧
    newCycles (run s acts) ≤ 1 ∧
      (newCycles (run s acts) = 1 →
        ∃ tt : TermTable, (run s acts).world.table .term = some (Message.encode tt) ∧ tt.trem = t) := by
  refine ⟨readTermTable_true_iff t, ?_⟩
  have h0 : NewCycleInv t s := by
    refine ⟨?_, fun h1 => ?_⟩ <;> simp [newCycles, termReads, hs.1, hs.2, answeredTrue] at *
  have := run_induction (NewCycleInv t)
    (fun a => ∀ env, a = .miner env → env.termStatus = .ok t ∨ ∃ e, env.termStatus = .error e)
    (fun _ _ _ ha h hs => step_newCycleInv ha h hs) h0
    acts (fun a ha env he => hterm env (he ▸ ha))
  exact ⟨this.1, fun h1 => (this.2 h1).1⟩

/- On `cycleWorld`, two iterations in term `1`. -/
example :
    ((Sys.start cycleWorld).cur = {} ∧ (Sys.start cycleWorld).trace = []) ∧
      (∀ env : PhaseEnv, .miner env ∈ List.replicate 15 (Action.miner termEnv) →
        env.termStatus = .ok 1 ∨ ∃ e, env.termStatus = .error e) ∧
      (∀ o w, (readTermTable (.ok 1) o w).2 = .ok true ↔
        (∃ old : TermTable, (w.table .term).bind Message.decode = some old ∧ old.trem ≠ 1) ∧
          o = .ok ()) ∧
      newCycles (run (Sys.start cycleWorld) (List.replicate 15 (.miner termEnv))) ≤ 1 ∧
      (newCycles (run (Sys.start cycleWorld) (List.replicate 15 (.miner termEnv))) = 1 →
        ∃ tt : TermTable, (run (Sys.start cycleWorld)
          (List.replicate 15 (.miner termEnv))).world.table .term = some (Message.encode tt) ∧
            tt.trem = 1) :=
  have hterm : ∀ env : PhaseEnv, .miner env ∈ List.replicate 15 (Action.miner termEnv) →
      env.termStatus = .ok 1 ∨ ∃ e, env.termStatus = .error e := fun env h => by
    rw [(Action.miner.inj (List.eq_of_mem_replicate h))]
    exact .inl rfl
  ⟨⟨rfl, rfl⟩, hterm, run_new_cycle_at_most_once (Sys.start cycleWorld) ⟨rfl, rfl⟩ 1 _ hterm⟩

/-- `thawDueWorld` with a term row recording term `0`. -/
def termDueWorld : World :=
  { thawDueWorld with
    table := fun k => if k = .term then some (Message.encode ({ trem := 0, newCycle := false } : TermTable))
      else thawDueWorld.table k }

/-- Term `1` reported, and `ReadTermTable`'s write failing. -/
def failedTermEnv : PhaseEnv := { termEnv with termWritten := .error (.external 0) }

/-- Three iterations in term `1` on a node whose term row records `0`.
The first `ReadTermTable` stages `(1, true)` and its write fails; two
blocks arrive through `ProcBlock`, and `ClearThawTx(1)` then commits the
batch, `(1, true)` included.  The second call reads `(1, true)`, writes
`(1, false)` successfully and answers `false`, as does the third: no call
of the stretch answers `true`. -/
theorem run_new_cycle_missed :
    (run (Sys.start termDueWorld)
        (List.replicate 3 (.miner failedTermEnv) ++
          [.ingress acceptingIngress 1 (some (chainBlock 1)),
            .ingress acceptingIngress 1 (some (chainBlock 2))] ++
          List.replicate 18 (.miner termEnv))).trace.map (·.termRead) =
      [some (.ok 1, .ok false), some (.ok 1, .ok false), some (.ok 1, .error (.external 0))] :=
  rfl

/-! ## Clearing the schedule when the trunk jumps -/

/-- A node that is not a miner; consensus reports no term. -/
def idleEnv : PhaseEnv := { staleEnv with competeMaster := (false, false, .ok ()) }

/-- An iteration, blocks `1` to `3` pushed through `ProcBlock`, and another
iteration. -/
def pushedBlocksRun : List Action :=
  List.replicate 7 (.miner idleEnv) ++
    [.ingress acceptingIngress 1 (some (chainBlock 1)),
      .ingress acceptingIngress 1 (some (chainBlock 2)),
      .ingress acceptingIngress 1 (some (chainBlock 3))] ++
    List.replicate 7 (.miner idleEnv)

/-- On a node due to release frozen assets at height `1`, the two
iterations clear heights `-1` and `2`: the second ends at trunk height
`3` with height `1` still in the schedule. -/
theorem run_thaw_height_skipped :
    (run (Sys.start thawDueWorld) pushedBlocksRun).trace.map (·.cleared) = [some 2, some (-1)] ∧
      (run (Sys.start thawDueWorld) pushedBlocksRun).world.trunkHeight = 3 ∧
      (((run (Sys.start thawDueWorld) pushedBlocksRun).world.table .nodeThaw).bind
          Message.decode).map (fun n : NodeTable => n.nodeDetails.entries.map Prod.fst) = some [1] :=
  ⟨rfl, rfl, rfl⟩

/-! ## `Stop` -/

/-- Whether the mining thread is between iterations: at the loop head, or
out of the loop. -/
def Phase.atHead : Phase → Bool
  | .walk | .exited => true
  | _ => false

/-- After `Stop()`, a step keeps the exit flag and either leaves the record
of iterations as it is (a thread between iterations stays there, making no
call), or finishes the iteration under way and returns to the loop head. -/
theorem step_after_stop {s s' : Sys} {a : Action} (hs : s.isExit = true)
    (h : step s a = some s') :
    s'.isExit = true ∧
      ((s'.trace = s.trace ∧
          (s.loop.phase.atHead = true → s'.loop.phase.atHead = true ∧ s'.cur = s.cur)) ∨
        (s'.trace = s.cur :: s.trace ∧ s'.loop.phase.atHead = true ∧
          s.loop.phase.atHead = false)) := by
  cases a with
  | ingress env fuel block =>
    obtain ⟨⟨w, r⟩, -, rfl⟩ := Option.map_eq_some'.1 h
    exact ⟨hs, .inl ⟨rfl, fun h => ⟨h, rfl⟩⟩⟩
  | procChecks env fuel block =>
    obtain ⟨q, rfl, -⟩ := step_procChecks h
    exact ⟨hs, .inl ⟨rfl, fun h => ⟨h, rfl⟩⟩⟩
  | lockSync i =>
    obtain ⟨w, q, rfl, -, -⟩ := step_lockSync h
    exact ⟨hs, .inl ⟨rfl, fun h => ⟨h, rfl⟩⟩⟩
  | stop =>
    cases h
    exact ⟨rfl, .inl ⟨rfl, fun h => ⟨h, rfl⟩⟩⟩
  | miner env =>
    simp only [step, minerStep] at h
    rcases hp : s.loop.phase <;> simp only [hp] at h <;> (try cases h)
    · have hw : walkStep env s = { s with loop := { s.loop with phase := .exited } } := by
        simp [walkStep, hs]
      rw [hw]
      exact ⟨hs, .inl ⟨rfl, fun _ => ⟨rfl, rfl⟩⟩⟩
    · unfold competeStep
      split <;> exact ⟨hs, .inl ⟨rfl, nofun⟩⟩
    · exact ⟨hs, .inl ⟨rfl, nofun⟩⟩
    · exact ⟨hs, .inl ⟨rfl, nofun⟩⟩
    · unfold syncStep at h
      split_ifs at h
      · obtain ⟨⟨w, r⟩, -, rfl⟩ := Option.map_eq_some'.1 h
        exact ⟨hs, .inl ⟨rfl, nofun⟩⟩
      · cases h
        exact ⟨hs, .inl ⟨rfl, nofun⟩⟩
    · unfold mineStep
      split <;> exact ⟨hs, .inl ⟨rfl, nofun⟩⟩
    · exact ⟨hs, .inl ⟨rfl, nofun⟩⟩
    · refine ⟨hs, .inr ⟨rfl, ?_, rfl⟩⟩
      unfold finishStep
      split <;> rfl
    · exact ⟨hs, .inl ⟨rfl, fun _ => ⟨by simp [hp, Phase.atHead], rfl⟩⟩⟩

/-- What a run from a state `s₀` after `Stop()` keeps: the exit flag, and
the record of iterations either as in `s₀` (and, if `s₀` was between
iterations, the thread still between them with no call made), or grown by
one iteration, finished from a state `s₀` in the middle of it. -/
def StopInv (s₀ s : Sys) : Prop :=
  s.isExit = true ∧
    ((s.trace = s₀.trace ∧
        (s₀.loop.phase.atHead = true → s.loop.phase.atHead = true ∧ s.cur = s₀.cur)) ∨
      ∃ it, s.trace = it :: s₀.trace ∧ s.loop.phase.atHead = true ∧ s₀.loop.phase.atHead = false)

/-- Every step keeps `StopInv`. -/
theorem StopInv.step {s₀ s₁ s₂ : Sys} {a : Action} (hi : StopInv s₀ s₁)
    (h : XuperMiner.step s₁ a = some s₂) : StopInv s₀ s₂ := by
  obtain ⟨he, hi⟩ := hi
  obtain ⟨he₂, ⟨ht₂, hc₂⟩ | ⟨ht₂, hh₂, hn₂⟩⟩ := step_after_stop he h
  · refine ⟨he₂, ?_⟩
    rcases hi with ⟨ht, hc⟩ | ⟨it, ht, hh, hn⟩
    · exact .inl ⟨ht₂.trans ht, fun h0 => ⟨(hc₂ (hc h0).1).1, (hc₂ (hc h0).1).2.trans (hc h0).2⟩⟩
    · exact .inr ⟨it, ht₂.trans ht, (hc₂ hh).1, hn⟩
  · rcases hi with ⟨ht, hc⟩ | ⟨-, -, hh, -⟩
    · refine ⟨he₂, .inr ⟨s₁.cur, by rw [ht₂, ht], hh₂, ?_⟩⟩
      cases hsh : s₀.loop.phase.atHead
      · rfl
      · exact absurd (hn₂.symm.trans (hc hsh).1) Bool.false_ne_true
    · exact absurd (hn₂.symm.trans hh) Bool.false_ne_true

/-- **`Stop()` ends the loop within the iteration under way.**  From any
state in which `Stop()` has run, under every interleaving of the mining
thread's steps with `ProcBlock` and more `Stop` calls and every answer of
the collaborators, the exit flag stays set and the record of iterations
grows by at most one, the iteration under way.  When `Stop()` ran between
iterations the record does not change at all: the loop head leaves the
loop before any further call. -/
theorem run_stop_ends_loop (s : Sys) (hs : s.isExit = true) (acts : List Action) :
    (run s acts).isExit = true ∧
      ((run s acts).trace = s.trace ∨ ∃ it, (run s acts).trace = it :: s.trace) ∧
      (s.loop.phase.atHead = true → (run s acts).trace = s.trace ∧ (run s acts).cur = s.cur) := by
  obtain ⟨he, hi⟩ := run_induction (StopInv s) (fun _ => True) (fun _ _ _ _ h hi => hi.step h)
    ⟨hs, .inl ⟨rfl, fun h => ⟨h, rfl⟩⟩⟩ acts (fun _ _ => trivial)
  refine ⟨he, ?_, fun hh => ?_⟩
  · rcases hi with ⟨ht, -⟩ | ⟨it, ht, -⟩
    exacts [.inl ht, .inr ⟨it, ht⟩]
  · rcases hi with ⟨ht, hc⟩ | ⟨-, -, -, hn⟩
    exacts [⟨ht, (hc hh).2⟩, absurd (hn.symm.trans hh) Bool.false_ne_true]

/-- `Stop()` right after the first step of an iteration: twelve more steps
of the mining thread finish that iteration, one record, and leave the
loop. -/
theorem run_stop_ends_loop_staleEnv :
    let s := run (Sys.start genesisWorld) [.miner staleEnv, .stop]
    s.isExit = true ∧ (run s (List.replicate 12 (.miner staleEnv))).trace.length = 1 ∧
      (run s (List.replicate 12 (.miner staleEnv))).loop.phase = .exited ∧
      (run s (List.replicate 12 (.miner staleEnv))).isExit = true ∧
      ((run s (List.replicate 12 (.miner staleEnv))).trace = s.trace ∨
        ∃ it, (run s (List.replicate 12 (.miner staleEnv))).trace = it :: s.trace) ∧
      (s.loop.phase.atHead = true → (run s (List.replicate 12 (.miner staleEnv))).trace = s.trace ∧
        (run s (List.replicate 12 (.miner staleEnv))).cur = s.cur) :=
  ⟨rfl, rfl, rfl, run_stop_ends_loop _ rfl _⟩

end XuperMiner
