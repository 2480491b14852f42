import Std.Data.ExtTreeMap
import WatchWallet.Action
import WatchWallet.Address
import WatchWallet.Key
/-!
The addresses that are managed, with their keys, and the root that they are derived from.
-/

namespace WatchWallet

/-- The root key, with the address of the root public key itself. -/
structure Root where
  key : ExtendedKey
  address : Address
deriving DecidableEq, Repr

structure Registry where
  network : Network
  mainType : ScriptType
  root : Option Root
  keys : Std.ExtTreeMap Address ExtendedKey

namespace Registry

def empty (n : Network) (t : ScriptType) : Registry := ⟨n, t, none, ∅⟩

/-- The root key; an empty one while there is no root. -/
def rootKey (r : Registry) : ExtendedKey := r.root.elim .empty Root.key

def mainAddress (r : Registry) : Except Error Address :=
  match r.root with
  | some root => .ok root.address
  | none => .error (.key .rootMissing)

def contains (r : Registry) (a : Address) : Bool := r.keys.contains a

def keyOf (r : Registry) (a : Address) : Except Error ExtendedKey :=
  match r.keys[a]? with
  | some k => .ok k
  | none => .error (.notTracked a.text)

def addresses (r : Registry) : List Address := r.keys.keys

def insert (a : Address) (k : ExtendedKey) : Action Registry Bool := do
  let r ← get
  set { r with keys := r.keys.insertIfNew a k }
  return !r.contains a

/-- Removes an address; the main address stays. -/
def erase (a : Address) : Action Registry Bool := do
  let r ← get
  if r.root.any (·.address = a) then return false
  set { r with keys := r.keys.erase a }
  return r.contains a

variable (c : Crypto.Suite)

def setRoot (k : ExtendedKey) : Action Registry Unit := do
  if k.publicKey.length ≠ 33 then Action.fail (.key .rootSize)
  modify fun r =>
    { r with root := some ⟨k, Address.ofKey c.digests r.network r.mainType k.publicKey⟩ }

/-- Takes a root key and manages its main address alone. -/
def adopt (k : ExtendedKey) : Action Registry Unit := do
  setRoot c k
  let main ← (← get).mainAddress
  modify fun r => { r with keys := (∅ : Std.ExtTreeMap Address ExtendedKey).insert main k }

/-- The key along a path below the root, with its address. -/
def derive (r : Registry) (path : Path) (t : ScriptType) :
    Except Error (ExtendedKey × Address) :=
  match r.root with
  | none => .error (.key .rootMissing)
  | some root => do
    let k ← root.key.derive c path
    return (k, Address.ofKey c.digests r.network t k.publicKey)

end Registry

end WatchWallet
