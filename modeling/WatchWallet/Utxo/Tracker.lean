import WatchWallet.Action
import WatchWallet.Address
import WatchWallet.Utxo.Layers
/-!
The addresses whose outputs are tracked, each with its layers.
-/

namespace WatchWallet

structure Tracker where
  layers : Std.ExtTreeMap Address Layers

namespace Tracker

def empty : Tracker := ⟨∅⟩

def contains (t : Tracker) (a : Address) : Bool := t.layers.contains a

def layersOf (t : Tracker) (a : Address) : Except Error Layers :=
  match t.layers[a]? with
  | some l => .ok l
  | none => .error (.notTracked a.text)

def pending (t : Tracker) (a : Address) : Except Error Update := Layers.pending <$> t.layersOf a

/-- Starts tracking an address, unless it is tracked already. -/
def track (a : Address) (depth : UInt32) : Action Tracker Unit :=
  modify fun t => ⟨t.layers.insertIfNew a (.fresh depth)⟩

/-- Puts layers in place, whatever was there. -/
def restore (a : Address) (l : Layers) : Action Tracker Unit :=
  modify fun t => ⟨t.layers.insert a l⟩

/-- Stops tracking an address; answers whether it was tracked. -/
def untrack (a : Address) : Action Tracker Bool := do
  let t ← get
  set (Tracker.mk (t.layers.erase a))
  return t.contains a

def change (a : Address) (f : Layers → Layers) : Action Tracker Unit := do
  let t ← get
  let l ← t.layersOf a
  set (Tracker.mk (t.layers.insert a (f l)))

/-- Acknowledges the unseen layer. -/
def commit (a : Address) : Action Tracker Unit := change a Layers.commit

/-- Answers the pending update and acknowledges it. -/
def takeUpdate (a : Address) : Action Tracker Update := do
  let u ← (← get).pending a
  commit a
  return u

/-- Installs a view as the unseen layer and answers the pending update. -/
def install (a : Address) (us : List Utxo) : Action Tracker Update := do
  change a (·.install us)
  (← get).pending a

/-- Installs the view that a raw snapshot gives. -/
def reconcile (a : Address) (raw : Snapshot) : Action Tracker Update := do
  let l ← (← get).layersOf a
  let us := l.view raw.utxos
  Action.log .debug ("Reconciled " ++ toString us.length ++ " UTXOs for " ++ a.text ++
    " at tip " ++ toString raw.tip.toNat)
  install a us

def addSpent (a : Address) (o : OutPoint) : Action Tracker Unit := change a (·.addSpent o)

def addGenerated (a : Address) (u : Utxo) : Action Tracker Unit := change a (·.addGenerated u)

end Tracker

end WatchWallet
