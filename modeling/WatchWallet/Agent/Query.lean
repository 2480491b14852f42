import WatchWallet.Agent.Basic
import WatchWallet.Oracle
/-!
Asking an oracle on behalf of an agent.

A query holds all that the answer depends on, so that the agent need not stand still while the
oracle is asked; its answer is a view, which is installed later. Synchronising does all three
steps at once.
-/

namespace WatchWallet

structure UtxoQuery where
  network : Network
  address : Address
  depth : UInt32
  layers : Layers
deriving DecidableEq, Repr

/-- The view of an address that a query gave, ready to be installed. -/
structure UtxoView where
  address : Address
  utxos : List Utxo
  tip : UInt32
deriving DecidableEq, Repr

namespace UtxoQuery

variable {ω : Type}

def fetch (oracle : Oracle ω) (q : UtxoQuery) : Action ω UtxoView := do
  checkDepth q.depth
  let raw ← oracle.snapshot q.network q.address q.depth
  return ⟨q.address, q.layers.view raw.utxos, raw.tip⟩

def balance (oracle : Oracle ω) (q : UtxoQuery) : Action ω UInt64 := do
  return Utxo.balance (← q.fetch oracle).utxos

end UtxoQuery

namespace Agent

variable {ω : Type}

def query (a : Agent) (address : Address) (depth : UInt32) : Except Error UtxoQuery := do
  return ⟨a.network, address, depth, ← a.layersOf address⟩

def install (v : UtxoView) : Action Agent Update := onTracker (Tracker.install v.address v.utxos)

/-- Asks for the outputs of an address at its own depth and installs the view. -/
def sync (oracle : Oracle ω) (address : Address) : Action (Agent × ω) Update := do
  let a := (← get).1
  let l ← a.layersOf address
  let q ← a.query address l.depth
  let v ← Action.onSecond (q.fetch oracle)
  Action.onFirst (install v)

/-- The root key to adopt: the one that is known, else the oracle's. -/
def rootKeyFrom (oracle : Oracle ω) (n : Network) (known : ExtendedKey) :
    Action ω ExtendedKey := do
  if known.publicKey.isEmpty then
    let k ← oracle.rootKey
    if k.publicKey.isEmpty then Action.fail (.noRootKey n)
    return k
  else return known

end Agent

end WatchWallet
