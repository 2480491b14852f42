import WatchWallet.Action
import WatchWallet.Address
import WatchWallet.Key
import WatchWallet.Utxo.Basic
/-!
The source of what happens on a network.

An oracle is a set of operations on a state of its own. Any of them may fail, and may change that
state when it does.
-/

namespace WatchWallet

structure Oracle (ω : Type) where
  rootKey : Action ω ExtendedKey
  snapshot : Network → Address → (depth : UInt32) → Action ω Snapshot
  /-- Fees in thousandths of a satoshi for a byte, by percentile. -/
  fees : Network → Action ω (List UInt64)
  sign : Path → (hash : Bytes) → Action ω Bytes
  send : (transaction : Bytes) → Network → Action ω Unit

end WatchWallet
