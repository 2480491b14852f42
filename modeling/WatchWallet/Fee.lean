import WatchWallet.Oracle
/-!
Fee levels, as percentiles of the fees that an oracle reports.
-/

namespace WatchWallet

inductive FeeRequest where
  | slow
  | standard
  | fast
  | percentile (value : UInt8)
deriving DecidableEq, Repr

namespace FeeRequest

def index : FeeRequest → Except Error Nat
  | slow => .ok 25
  | standard => .ok 50
  | fast => .ok 75
  | percentile value =>
    if value ≤ 99 then .ok value.toNat else .error (.percentileTooHigh value)

/-- The fee at the percentile asked for. The request is checked before the oracle is asked. -/
def lookUp {ω : Type} (oracle : Oracle ω) (n : Network) (request : FeeRequest) :
    Action ω UInt64 := do
  let i ← request.index
  let fees ← oracle.fees n
  match fees[i]? with
  | some fee => return fee
  | none => Action.fail (.percentileMissing fees.length)

end FeeRequest

end WatchWallet
