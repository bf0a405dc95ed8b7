import XuperMiner.Basic

/-!
# XuperMiner.Table

The confirmed side tables the miner keeps in `Ledger.ConfirmedTable`, and
the shared write batch `Ledger.ConfirmBatch` it stages them on.

Rows are the protobuf records of `protos` the miner reads and writes.  A
stored value is a `Row`: one of those records, or bytes no record decodes
from (`corrupt`).  `Message` is `proto.Marshal`/`proto.Unmarshal` for one
record type, with the round trip as a law; a missing row read through
`ConfirmedTable.Get` hands `proto.Unmarshal` a nil buffer, which decodes
to the record's zero value (`Message.decodeBuf`).

The batch is modelled from the spec (§9 and §5): a list of staged puts,
which `Write` commits in staging order and never clears.  Nothing in the
miner resets it: every `batchWrite.Reset()` of `miner.go` is commented out.
-/

namespace XuperMiner

/-! ## Records -/

/-- `protos.TermTable`, the row `tdpos_term`. -/
structure TermTable where
  trem : Int
  newCycle : Bool
  deriving DecidableEq, Repr, Inhabited

/-- `protos.AllCandidate`, the row `tdpos_freezes_total_assets`. -/
structure AllCandidate where
  candidate : GoMap String Address
  deriving DecidableEq, Repr, Inhabited

/-- `protos.CandidateRatio`, the row `ballot_<address>`. -/
structure CandidateRatio where
  votingUser : GoMap Address String
  ratio : Nat
  beVotedTotal : String
  deriving DecidableEq, Repr, Inhabited

/-- `protos.CacheVoteCandidate`, the row `cache_<address>`. -/
structure CacheVoteCandidate where
  votingUser : GoMap Address String
  ratio : Nat
  totalVote : String
  deriving DecidableEq, Repr, Inhabited

/-- One entry of the un-bonding schedule (`protos.NodeDetail`). -/
structure NodeDetail where
  address : Address
  amount : String
  deriving DecidableEq, Repr, Inhabited

/-- The entries due at one height (`protos.NodeDetails`). -/
structure NodeDetails where
  nodeDetail : List NodeDetail
  deriving DecidableEq, Repr, Inhabited

/-- `protos.NodeTable`, the un-bonding schedule
`nodeinfo_tdos_thaw_total_assets`: due entries by height. -/
structure NodeTable where
  nodeDetails : GoMap Int NodeDetails
  deriving DecidableEq, Repr, Inhabited

/-- `protos.FrozenDetails`: an amount and the height it thaws at. -/
structure FrozenDetails where
  amount : String
  height : Int
  deriving DecidableEq, Repr, Inhabited

/-- `protos.FrozenAssetsTable`, the row `amount_<address>`. -/
structure FrozenAssetsTable where
  total : String
  frozenDetail : GoMap String FrozenDetails
  timestamp : Int
  thawDetail : GoMap String FrozenDetails
  deriving DecidableEq, Repr, Inhabited

/-! ## Stored values -/

/-- A stored value: a serialized record, or bytes that decode to none. -/
inductive Row where
  | term (t : TermTable)
  | candidates (c : AllCandidate)
  | ratio (r : CandidateRatio)
  | cache (c : CacheVoteCandidate)
  | nodes (n : NodeTable)
  | frozen (f : FrozenAssetsTable)
  | corrupt
  deriving DecidableEq, Repr

/-- `proto.Marshal` and `proto.Unmarshal` for one record type. -/
class Message (α : Type) extends Inhabited α where
  encode : α → Row
  decode : Row → Option α
  decode_encode : ∀ a, decode (encode a) = some a

attribute [simp] Message.decode_encode

/-- `proto.Unmarshal` of the buffer `ConfirmedTable.Get` returned: a
missing row is a nil buffer, which decodes to the zero record. -/
def Message.decodeBuf {α : Type} [Message α] : Option Row → Option α
  | none => some default
  | some r => Message.decode r

/-- A row that is there and decodes is what `proto.Unmarshal` reads. -/
theorem Message.decodeBuf_of_bind {α : Type} [Message α] {o : Option Row} {a : α}
    (h : o.bind Message.decode = some a) : Message.decodeBuf o = some a := by
  cases o
  · cases h
  · exact h

instance : Message TermTable where
  encode := .term
  decode | .term t => some t | _ => none
  decode_encode _ := rfl

instance : Message AllCandidate where
  encode := .candidates
  decode | .candidates c => some c | _ => none
  decode_encode _ := rfl

instance : Message CandidateRatio where
  encode := .ratio
  decode | .ratio r => some r | _ => none
  decode_encode _ := rfl

instance : Message CacheVoteCandidate where
  encode := .cache
  decode | .cache c => some c | _ => none
  decode_encode _ := rfl

instance : Message NodeTable where
  encode := .nodes
  decode | .nodes n => some n | _ => none
  decode_encode _ := rfl

instance : Message FrozenAssetsTable where
  encode := .frozen
  decode | .frozen f => some f | _ => none
  decode_encode _ := rfl

/-! ## Keys -/

/-- The keys of the confirmed table the miner touches. -/
inductive Key where
  | term
  | candidates
  | ballot (address : Address)
  | cache (address : Address)
  | amount (address : Address)
  | nodeThaw
  deriving DecidableEq, Repr

/-- The key as `miner.go` spells it. -/
def Key.name : Key → String
  | .term => "tdpos_term"
  | .candidates => "tdpos_freezes_total_assets"
  | .ballot a => "ballot_" ++ a
  | .cache a => "cache_" ++ a
  | .amount a => "amount_" ++ a
  | .nodeThaw => "nodeinfo_" ++ "tdos_thaw_total_assets"

/-! ## The confirmed table and the confirm batch -/

/-- `Ledger.ConfirmedTable`: the committed rows; `none` is a `Get` error. -/
def ConfirmedTable := Key → Option Row

/-- `Ledger.ConfirmBatch`: the puts staged since the batch was created. -/
abbrev ConfirmBatch := List (Key × Row)

namespace ConfirmedTable

/-- The table with one row overwritten. -/
def set (t : ConfirmedTable) (k : Key) (r : Row) : ConfirmedTable :=
  fun k' => if k' = k then some r else t k'

/-- The table after committing `puts` in order. -/
def commit (t : ConfirmedTable) (puts : ConfirmBatch) : ConfirmedTable :=
  puts.foldl (fun t p => t.set p.1 p.2) t

@[simp] theorem set_self (t : ConfirmedTable) (k : Key) (r : Row) : t.set k r k = some r := by
  simp [set]

@[simp] theorem set_ne (t : ConfirmedTable) {k k' : Key} (r : Row) (h : k' ≠ k) :
    t.set k r k' = t k' := by
  simp [set, h]

@[simp] theorem commit_nil (t : ConfirmedTable) : t.commit [] = t := rfl

@[simp] theorem commit_append (t : ConfirmedTable) (p q : ConfirmBatch) :
    t.commit (p ++ q) = (t.commit p).commit q := List.foldl_append ..

@[simp] theorem commit_cons (t : ConfirmedTable) (k : Key) (r : Row) (q : ConfirmBatch) :
    t.commit ((k, r) :: q) = (t.set k r).commit q := rfl

/-- The last staged put of a row is the value the commit leaves. -/
theorem commit_append_singleton (t : ConfirmedTable) (puts : ConfirmBatch) (k : Key) (r : Row) :
    t.commit (puts ++ [(k, r)]) k = some r := by
  simp [commit, set]

/-- The value the last put of `k` staged, if any. -/
def lastPut (k : Key) (puts : ConfirmBatch) : Option Row :=
  (puts.reverse.find? (·.1 = k)).map (·.2)

@[simp] theorem lastPut_nil (k : Key) : lastPut k [] = none := rfl

theorem lastPut_cons (k : Key) (p : Key × Row) (puts : ConfirmBatch) :
    lastPut k (p :: puts) = (lastPut k puts).or (if p.1 = k then some p.2 else none) := by
  unfold lastPut
  rw [List.reverse_cons, List.find?_append]
  cases puts.reverse.find? (·.1 = k) <;> by_cases h : p.1 = k <;> simp [h]

theorem lastPut_append_singleton (k k' : Key) (r : Row) (puts : ConfirmBatch) :
    lastPut k (puts ++ [(k', r)]) = if k' = k then some r else lastPut k puts := by
  unfold lastPut
  by_cases h : k' = k <;> simp [h]

/-- A row has no staged value exactly when no put names it. -/
theorem lastPut_eq_none_iff {k : Key} {puts : ConfirmBatch} :
    lastPut k puts = none ↔ ∀ p ∈ puts, p.1 ≠ k := by
  simp [lastPut, List.find?_eq_none]

/-- The staged value of a row is the value of one of its puts. -/
theorem mem_of_lastPut {k : Key} {puts : ConfirmBatch} {r : Row} (h : lastPut k puts = some r) :
    (k, r) ∈ puts := by
  obtain ⟨p, hp, rfl⟩ := Option.map_eq_some'.1 h
  have hk : p.1 = k := by simpa using List.find?_some hp
  exact hk ▸ List.mem_reverse.1 (List.mem_of_find?_eq_some hp)

/-- A row that some put names has a staged value. -/
theorem exists_lastPut_of_mem {k : Key} {puts : ConfirmBatch} {r : Row} (h : (k, r) ∈ puts) :
    ∃ r', lastPut k puts = some r' :=
  Option.ne_none_iff_exists'.1 fun hn => lastPut_eq_none_iff.1 hn _ h rfl

/-- A later batch's put of a row wins over an earlier one. -/
theorem lastPut_append (k : Key) (p q : ConfirmBatch) :
    lastPut k (p ++ q) = (lastPut k q).or (lastPut k p) := by
  unfold lastPut
  rw [List.reverse_append, List.find?_append]
  cases q.reverse.find? (·.1 = k) <;> rfl

/-- A commit leaves each row at its last staged value, or where it was. -/
theorem commit_apply (t : ConfirmedTable) (puts : ConfirmBatch) (k : Key) :
    t.commit puts k = (lastPut k puts).or (t k) := by
  induction puts generalizing t with
  | nil => rfl
  | cons p puts ih =>
    rw [commit_cons, ih, lastPut_cons]
    cases lastPut k puts <;> by_cases h : k = p.1 <;> simp [set, h, @eq_comm _ p.1 k]

/-- Committing the same puts twice is committing them once. -/
theorem commit_commit_self (t : ConfirmedTable) (puts : ConfirmBatch) :
    (t.commit puts).commit puts = t.commit puts := by
  funext k
  simp only [commit_apply]
  cases lastPut k puts <;> rfl

/-- Committing a prefix of the puts first changes nothing in the end. -/
theorem commit_take_commit (t : ConfirmedTable) (puts : ConfirmBatch) (n : Nat) :
    (t.commit (puts.take n)).commit puts = t.commit puts := by
  conv => lhs; rhs; rw [← List.take_append_drop n puts]
  rw [commit_append, commit_commit_self, ← commit_append, List.take_append_drop]

/-- Puts that do not name a row leave its committed value alone. -/
theorem commit_append_of_lastPut_none (t : ConfirmedTable) (p q : ConfirmBatch) {k : Key}
    (h : lastPut k q = none) : t.commit (p ++ q) k = t.commit p k := by
  rw [commit_apply, commit_apply, lastPut_append, h, Option.none_or]

/-- Over a table that already holds every put of the batch `B`, writing
`B ++ Q` after committing a prefix of `Q` leaves what committing `Q` does. -/
theorem commit_prefix_commit_of_settled {t : ConfirmedTable} {B X Q : ConfirmBatch}
    (hs : t.commit B = t) (hx : X <+: Q) : (t.commit X).commit (B ++ Q) = t.commit Q := by
  funext k
  rw [commit_apply, commit_apply, commit_apply, lastPut_append]
  cases hq : lastPut k Q with
  | some r => rfl
  | none =>
    have hX : lastPut k X = none :=
      lastPut_eq_none_iff.2 fun p hp => lastPut_eq_none_iff.1 hq p (hx.subset hp)
    rw [hX, Option.none_or, Option.none_or, ← commit_apply, hs]

end ConfirmedTable

end XuperMiner
