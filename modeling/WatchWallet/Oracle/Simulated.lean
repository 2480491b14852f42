import Std.Data.ExtTreeMap
import WatchWallet.Fee
import WatchWallet.Oracle
import WatchWallet.Signing
/-!
An oracle with a chain of its own: a tip, the outputs of addresses, and one private key that it
derives and signs with.
-/

namespace WatchWallet

structure Simulated where
  network : Network
  privateKey : Bytes
  key : ExtendedKey
  tip : UInt32
  utxos : Std.ExtTreeMap Address (List Utxo)
  /-- Transactions sent since the last block. -/
  waiting : List Bytes

namespace Simulated

def outputsOf (s : Simulated) (a : Address) : List Utxo := s.utxos.getD a []

def addUtxo (a : Address) (u : Utxo) : Action Simulated Unit :=
  modify fun s => { s with utxos := s.utxos.insert a (s.outputsOf a ++ [u]) }

/-- Removes all records of an outpoint; answers whether there were any. -/
def removeUtxo (a : Address) (o : OutPoint) : Action Simulated Bool := do
  let s ← get
  let kept := (s.outputsOf a).filter (·.outPoint ≠ o)
  set { s with utxos := s.utxos.insert a kept }
  return kept.length < (s.outputsOf a).length

def mine : Action Simulated Unit := modify fun s => { s with waiting := [], tip := s.tip + 1 }

def setTip (tip : UInt32) : Action Simulated Unit := modify fun s => { s with tip := tip }

/-- The output that the main address starts with. -/
def firstOutput (tip : UInt32) : Utxo := ⟨⟨Bytes.zeros 32, 0⟩, 250000, tip⟩

def create (c : Crypto.Suite) (n : Network) (t : ScriptType) (privateKey chainCode : Bytes) :
    Except Error Simulated :=
  if privateKey.isEmpty then .ok ⟨n, [], ⟨[], chainCode, []⟩, maxDepth, ∅, []⟩
  else do
    let publicKey ← Key.ofPrivate c privateKey
    let main := Address.ofKey c.digests n t publicKey
    return ⟨n, privateKey, ⟨publicKey, chainCode, []⟩, maxDepth,
      (∅ : Std.ExtTreeMap Address (List Utxo)).insert main [firstOutput maxDepth], []⟩

def checkNetwork (n : Network) : Action Simulated Unit := do
  let s ← get
  if n ≠ s.network then Action.fail (.otherNetwork s.network n)

def snapshot (n : Network) (a : Address) (depth : UInt32) : Action Simulated Snapshot := do
  checkNetwork n
  let s ← get
  return ⟨(s.outputsOf a).filter (·.hasDepth s.tip depth), s.tip⟩

def fees (n : Network) : Action Simulated (List UInt64) := do
  checkNetwork n
  return (List.range 100).map fun i => UInt64.ofNat (1000 * (i + 1))

def sign (c : Crypto.Suite) (path : Path) (hash : Bytes) : Action Simulated Bytes := do
  let s ← get
  if s.privateKey.isEmpty then Action.fail (.signing .keyMissing)
  let child ← Key.derivePrivate c s.privateKey s.key.chainCode path
  Signing.sign c.curve child.key hash

def send (transaction : Bytes) (n : Network) : Action Simulated Unit := do
  checkNetwork n
  if transaction.isEmpty then Action.fail .emptyTransaction
  modify fun s => { s with waiting := s.waiting ++ [transaction] }
  Action.log .debug
    ("Mock oracle accepted transaction of " ++ toString transaction.length ++ " bytes")

def oracle (c : Crypto.Suite) : Oracle Simulated where
  rootKey := return (← get).key
  snapshot := snapshot
  fees := fees
  sign := sign c
  send := send

end Simulated

end WatchWallet
