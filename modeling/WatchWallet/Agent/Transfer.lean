import WatchWallet.Address.Ref
import WatchWallet.Agent.Basic
/-!
The outputs that a transaction of the wallet spent and created.

All addresses of a transfer are resolved before any output is recorded. Outputs of addresses that
are not tracked are passed over.
-/

namespace WatchWallet

structure Transfer where
  id : Bytes
  spent : AddressRef.Table (List Utxo)
  generated : AddressRef.Table (List Utxo)

namespace Agent

def resolveAll (d : Crypto.Digests) (session : Network)
    (entries : List (AddressRef × List Utxo)) : Except Error (List (Address × List Utxo)) :=
  entries.mapM fun (r, us) => do return (← r.resolve d session, us)

def recordSpent (address : Address) (us : List Utxo) : Action Agent Unit := do
  if (← get).tracker.contains address then
    us.forM fun u => onTracker (Tracker.addSpent address u.outPoint)
  else Action.log .warn ("Ignoring spent outputs of unmanaged address " ++ address.text)

def recordGenerated (address : Address) (us : List Utxo) : Action Agent Unit := do
  if (← get).tracker.contains address then
    us.forM fun u => onTracker (Tracker.addGenerated address u)

def applyTransfer (d : Crypto.Digests) (t : Transfer) : Action Agent Unit := do
  let session := (← get).network
  let spent ← resolveAll d session t.spent.toList
  let generated ← resolveAll d session t.generated.toList
  spent.forM fun (address, us) => recordSpent address us
  generated.forM fun (address, us) => recordGenerated address us

end Agent

end WatchWallet
