import WatchWallet.Json.Value
/-!
Amounts of coins in satoshis.

An amount is taken as a double and multiplied as doubles are. The product is rounded to a whole
number of 64 bits with a sign, halves away from zero, and its bits are kept without the sign.
-/

namespace WatchWallet.Amount

/-- A decimal as a double, by the conversion that doubles come with. -/
def double (d : Decimal) : Float :=
  let x := Float.ofScientific d.digits (d.exponent < 0) d.exponent.natAbs
  if d.negative then -x else x

def satoshisPerCoin : Float := 100000000.0

/-- The whole number nearest to `m * 2 ^ e`; a half is rounded up. -/
def nearest (m : Nat) : (e : Int) → Nat
  | .ofNat e => m * Nat.pow 2 e
  | .negSucc e => (m + Nat.pow 2 e) / Nat.pow 2 (e + 1)

/-- The whole number nearest to a double, halves away from zero; none where that is no number. -/
def whole? (x : Float) : Option Int :=
  match x.toModel.unpack with
  | .finite sign m e _ => some (sign.apply (nearest m e))
  | .zero _ => some 0
  | _ => none

/-- A double as a number of 64 bits with a sign. The least of them stands for what has no place. -/
def toInt64 (x : Float) : Int64 :=
  match whole? x with
  | some n =>
    if Int64.minValue.toInt ≤ n ∧ n ≤ Int64.maxValue.toInt then .ofInt n else .minValue
  | none => .minValue

def satoshis (coins : Decimal) : UInt64 := (toInt64 (double coins * satoshisPerCoin)).toUInt64

end WatchWallet.Amount
