import Std.Data.ExtTreeMap
import WatchWallet.Utxo.Basic
/-!
The layers of outputs kept for an address.

The seen layer has been acknowledged, the unseen one is the latest view. What the wallet itself
spent and created is kept beside them and goes into views of depth zero, where the source of
outputs may lag behind: created outputs are added, spent ones are left out, and of several
records of one outpoint the first of the greatest height is kept.
-/

namespace WatchWallet

structure Layers where
  seen : List Utxo
  unseen : List Utxo
  spent : List OutPoint
  generated : List Utxo
  depth : UInt32
deriving DecidableEq, Repr, Inhabited

namespace Layers

def fresh (depth : UInt32) : Layers := ⟨[], [], [], [], depth⟩

/-- The better of a kept record and a new one. -/
def higher (u : Utxo) : Option Utxo → Utxo
  | some kept => if kept.height < u.height then u else kept
  | none => u

abbrev Records := Std.ExtTreeMap OutPoint Utxo

def record (m : Records) (u : Utxo) : Records := m.alter u.outPoint fun kept => higher u kept

/-- One record for each outpoint, in their order. -/
def distinct (us : List Utxo) : List Utxo := (us.foldl record ∅).toList.map Prod.snd

/-- The view that a raw report of the outputs gives. -/
def view (l : Layers) (raw : List Utxo) : List Utxo :=
  if l.depth ≠ 0 then raw
  else distinct ((raw ++ l.generated).filter fun u => u.outPoint ∉ l.spent)

def pending (l : Layers) : Update := .between l.seen l.unseen

def install (l : Layers) (us : List Utxo) : Layers := { l with unseen := us }

def commit (l : Layers) : Layers := { l with seen := l.unseen }

def addSpent (l : Layers) (o : OutPoint) : Layers := { l with spent := l.spent ++ [o] }

def addGenerated (l : Layers) (u : Utxo) : Layers := { l with generated := l.generated ++ [u] }

open Json in
def toJson (l : Layers) : Json :=
  .object [("generated_state", ofList Utxo.toJson l.generated),
    ("min_confirmations", ofUInt32 l.depth), ("seen_state", ofList Utxo.toJson l.seen),
    ("spent_state", ofList OutPoint.toJson l.spent),
    ("unseen_state", ofList Utxo.toJson l.unseen)]

open Json in
def ofJson : Reader Layers := fun j => do
  let seen ← field "seen_state" (listOf Utxo.ofJson) j
  let unseen ← field "unseen_state" (listOf Utxo.ofJson) j
  let spent ← field "spent_state" (listOf OutPoint.ofJson) j
  let generated ← field "generated_state" (listOf Utxo.ofJson) j
  let depth ← field "min_confirmations" uint32 j
  return ⟨seen, unseen, spent, generated, depth⟩

@[simp] theorem seen_commit (l : Layers) : l.commit.seen = l.unseen := rfl
@[simp] theorem unseen_commit (l : Layers) : l.commit.unseen = l.unseen := rfl
@[simp] theorem unseen_install (l : Layers) (us : List Utxo) : (l.install us).unseen = us := rfl
@[simp] theorem seen_install (l : Layers) (us : List Utxo) : (l.install us).seen = l.seen := rfl

end Layers

end WatchWallet
