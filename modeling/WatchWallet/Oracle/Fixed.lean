import WatchWallet.Oracle
/-!
An oracle with fixed answers, or with one reason to refuse everything but its root key.
-/

namespace WatchWallet

structure Fixed where
  refusal : Option String
  key : ExtendedKey
  answer : Snapshot
  fees : List UInt64

namespace Fixed

def unlessRefused {α : Type} (kind : Error.Kind) (answer : Fixed → α) : Action Fixed α := do
  let f ← get
  match f.refusal with
  | some words => Action.fail (.reported kind words)
  | none => return answer f

def oracle : Oracle Fixed where
  rootKey := return (← get).key
  snapshot _ _ _ := unlessRefused .oracleReject Fixed.answer
  fees _ := unlessRefused .oracleReject Fixed.fees
  sign _ _ := unlessRefused .signingFailure fun _ => []
  send _ _ := unlessRefused .oracleReject fun _ => ()

end Fixed

end WatchWallet
