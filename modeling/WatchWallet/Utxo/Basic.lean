import WatchWallet.Json.Reader
/-!
Outputs of transactions that have not been spent.

Records of one outpoint are sightings of one output, perhaps at different heights. Outpoints are
ordered by the bytes of the transaction, then by the index.
-/

namespace WatchWallet

structure OutPoint where
  txid : Bytes
  vout : UInt32
deriving DecidableEq, Repr, Inhabited

namespace OutPoint

instance : Ord OutPoint := ⟨compareLex (compareOn txid) (compareOn vout)⟩

instance : Std.TransOrd OutPoint :=
  inferInstanceAs (Std.TransCmp (compareLex (compareOn txid) (compareOn vout)))

instance : Std.LawfulEqOrd OutPoint where
  eq_of_compare {a b} h := by
    obtain ⟨t, v⟩ := a
    obtain ⟨t', v'⟩ := b
    obtain ⟨ht, hv⟩ := Ordering.then_eq_eq.1 h
    obtain rfl : t = t' := Std.LawfulEqOrd.eq_of_compare ht
    obtain rfl : v = v' := Std.LawfulEqOrd.eq_of_compare hv
    rfl

open Json in
def toJson (o : OutPoint) : Json :=
  .object [("txid", ofBytes o.txid), ("vout", ofUInt32 o.vout)]

open Json in
def ofJson : Reader OutPoint := fun j => do
  let txid ← field "txid" bytes j
  let vout ← field "vout" uint32 j
  return ⟨txid, vout⟩

end OutPoint

structure Utxo where
  outPoint : OutPoint
  value : UInt64
  height : UInt32
deriving DecidableEq, Repr, Inhabited

namespace Utxo

/-- Confirmed to `depth` at a tip of height `tip`; the block of the output itself counts. -/
def hasDepth (u : Utxo) (tip depth : UInt32) : Bool :=
  (u.height.toNat : Int) ≤ (tip.toNat : Int) + 1 - depth.toNat

/-- The sum of the values, modulo `2 ^ 64`. -/
def balance (us : List Utxo) : UInt64 := us.foldl (fun sum u => sum + u.value) 0

open Json in
def toJson (u : Utxo) : Json :=
  .object [("height", ofUInt32 u.height), ("outpoint", u.outPoint.toJson),
    ("value", ofUInt64 u.value)]

open Json in
def ofJson : Reader Utxo := fun j => do
  let outPoint ← field "outpoint" OutPoint.ofJson j
  let value ← field "value" uint64 j
  let height ← field "height" uint32 j
  return ⟨outPoint, value, height⟩

end Utxo

/-- What the source of outputs reports of an address, and the tip it reports it at. -/
structure Snapshot where
  utxos : List Utxo
  tip : UInt32
deriving DecidableEq, Repr, Inhabited

/-- The outputs that came and went since the last acknowledgement. -/
structure Update where
  added : List Utxo
  removed : List Utxo
deriving DecidableEq, Repr

structure BalanceUpdate where
  added : UInt64
  removed : UInt64
deriving DecidableEq, Repr

namespace Update

def isEmpty (u : Update) : Bool := u.added.isEmpty && u.removed.isEmpty

/-- The update from one list of outputs to another: by outpoint, in the order of either list. -/
def between (seen unseen : List Utxo) : Update :=
  let old := seen.map Utxo.outPoint
  let new := unseen.map Utxo.outPoint
  ⟨unseen.filter (·.outPoint ∉ old), seen.filter (·.outPoint ∉ new)⟩

/-- Whether two updates name the same outpoints in the same order. -/
def sameOutPoints (u v : Update) : Bool :=
  u.added.map Utxo.outPoint = v.added.map Utxo.outPoint &&
    u.removed.map Utxo.outPoint = v.removed.map Utxo.outPoint

def balance (u : Update) : BalanceUpdate := ⟨Utxo.balance u.added, Utxo.balance u.removed⟩

end Update

end WatchWallet
