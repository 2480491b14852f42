import WatchWallet.Registry
import WatchWallet.Utxo.Tracker
/-!
The agent: managed addresses with their keys, and the outputs of each.

Managing an address and tracking its outputs go together: an operation that starts or ends one
starts or ends the other. The main address belongs to the root key and is never removed.
-/

namespace WatchWallet

structure Agent where
  registry : Registry
  tracker : Tracker
  /-- The confirmation depth of addresses that are added without one. -/
  depth : UInt32

def checkDepth (depth : UInt32) : Except Error Unit :=
  if maxDepth < depth then .error (.depthTooHigh depth) else .ok ()

namespace Agent

def create (n : Network) (t : ScriptType) (depth : UInt32) : Except Error Agent := do
  checkDepth depth
  return ⟨.empty n t, .empty, depth⟩

def network (a : Agent) : Network := a.registry.network

def onRegistry {α : Type} (x : Action Registry α) : Action Agent α :=
  .within registry (fun a r => { a with registry := r }) x

def onTracker {α : Type} (x : Action Tracker α) : Action Agent α :=
  .within tracker (fun a t => { a with tracker := t }) x

section Keys

variable (c : Crypto.Suite)

/-- Takes a root key: from now on the main address alone is managed and tracked. -/
def adopt (k : ExtendedKey) : Action Agent Unit := do
  onRegistry (Registry.adopt c k)
  let a ← get
  let main ← a.registry.mainAddress
  set { a with tracker := Tracker.empty }
  onTracker (Tracker.track main a.depth)
  Action.log .info ("Agent initialized on " ++ a.network.name ++ " with main address " ++ main.text)

/-- Manages the address along a path below the root; an address that is managed already is
answered and left as it is. -/
def addWith (path : Path) (t : ScriptType) (depth : UInt32) : Action Agent Address := do
  checkDepth depth
  if maxPathLength < path.length then Action.fail (.pathTooLong path.length)
  let (key, address) ← (← get).registry.derive c path t
  if ← onRegistry (Registry.insert address key) then
    onTracker (Tracker.track address depth)
    Action.log .info ("Managing address " ++ address.text)
  return address

def add (path : Path) : Action Agent Address := do
  let a ← get
  addWith c path a.registry.mainType a.depth

end Keys

def remove (address : Address) : Action Agent Bool := do
  if ← onRegistry (Registry.erase address) then
    discard <| onTracker (Tracker.untrack address)
    Action.log .info ("Stopped managing address " ++ address.text)
    return true
  return false

def addresses (a : Agent) : List Address := a.registry.addresses

def mainAddress (a : Agent) : Except Error Address := a.registry.mainAddress

def scriptAddress (d : Crypto.Digests) (a : Agent) (hash : Bytes) : Except Error Address :=
  Address.ofScriptHash d a.network hash

def keyOf (a : Agent) (address : Address) : Except Error ExtendedKey := a.registry.keyOf address

def layersOf (a : Agent) (address : Address) : Except Error Layers := a.tracker.layersOf address

def pending (a : Agent) (address : Address) : Except Error Update := a.tracker.pending address

def pendingBalance (a : Agent) (address : Address) : Except Error BalanceUpdate :=
  Update.balance <$> a.pending address

def commit (address : Address) : Action Agent Unit := onTracker (Tracker.commit address)

def takeUpdate (address : Address) : Action Agent Update := onTracker (Tracker.takeUpdate address)

def takeBalance (address : Address) : Action Agent BalanceUpdate := do
  return (← takeUpdate address).balance

def reconcile (address : Address) (raw : Snapshot) : Action Agent Update :=
  onTracker (Tracker.reconcile address raw)

end Agent

end WatchWallet
