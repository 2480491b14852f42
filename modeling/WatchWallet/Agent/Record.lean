import WatchWallet.Address.Ref
import WatchWallet.Agent.Basic
/-!
The durable record of an agent.

Addresses are kept as text and network, and resolved again when the agent is rebuilt.
-/

namespace WatchWallet

structure AgentRecord where
  network : Network
  mainType : ScriptType
  keys : AddressRef.Table ExtendedKey
  layers : AddressRef.Table Layers
  depth : UInt32
  rootKey : ExtendedKey

namespace AgentRecord

open Json AddressRef in
def toJson (r : AgentRecord) : Json :=
  .object [("ecdsa_pub_key", r.rootKey.toJson),
    ("ecdsa_pub_key_addresses", Table.toJson ExtendedKey.toJson r.keys),
    ("main_address_type", .string r.mainType.name), ("min_confirmations", ofUInt32 r.depth),
    ("network", .string r.network.name),
    ("utxos_state_addresses", Table.toJson Layers.toJson r.layers)]

open Json AddressRef in
def ofJson : Reader AgentRecord := fun j => do
  let network ← field "network" Json.network j
  let mainType ← field "main_address_type" Json.scriptType j
  let keys ← field "ecdsa_pub_key_addresses" (Table.ofJson ExtendedKey.ofJson) j
  let layers ← field "utxos_state_addresses" (Table.ofJson Layers.ofJson) j
  let depth ← field "min_confirmations" uint32 j
  let rootKey ← field "ecdsa_pub_key" ExtendedKey.ofJson j
  return ⟨network, mainType, keys, layers, depth, rootKey⟩

end AgentRecord

namespace Agent

/-- Entries by address, with the address as it is written down. -/
def tableOf {α : Type} (entries : List (Address × α)) : AddressRef.Table α :=
  .ofEntries (entries.map fun (a, x) => (a.ref, x))

def snapshot (a : Agent) : AgentRecord where
  network := a.network
  mainType := a.registry.mainType
  keys := tableOf a.registry.keys.toList
  layers := tableOf a.tracker.layers.toList
  depth := a.depth
  rootKey := a.registry.rootKey

section Restore

variable (c : Crypto.Suite)

def restoreKey (session : Network) (r : AddressRef) (k : ExtendedKey) : Action Agent Unit := do
  let address ← r.resolve c.digests session
  discard <| onRegistry (Registry.insert address k)

def restoreLayers (session : Network) (r : AddressRef) (l : Layers) : Action Agent Unit := do
  let address ← r.resolve c.digests session
  onTracker (Tracker.restore address l)

/-- Fills a new agent from a record, without resetting what is managed. -/
def fill (r : AgentRecord) : Action Agent Unit := do
  if !r.rootKey.publicKey.isEmpty then onRegistry (Registry.setRoot c r.rootKey)
  r.keys.toList.forM fun (ref, k) => restoreKey c r.network ref k
  r.layers.toList.forM fun (ref, l) => restoreLayers c r.network ref l
  Action.log .info ("Restored agent with " ++ toString r.keys.size ++ " managed addresses")

/-- The agent of a record. -/
def restore {σ : Type} (r : AgentRecord) : Action σ Agent := do
  let a ← create r.network r.mainType r.depth
  Action.building a (fill c r)

end Restore

end Agent

end WatchWallet
