import WatchWallet.Crypto.Der
import WatchWallet.Error
/-!
Signatures of message digests: in the lower half of the order, in DER.
-/

namespace WatchWallet.Signing

variable (c : Crypto.Curve)

def sign (privateKey hash : Bytes) : Except Error Bytes :=
  if hash.length ≠ 32 then .error (.signing .hashLength)
  else
    match c.sign? (Bytes.toNat privateKey) hash with
    | some sig => .ok (Crypto.Der.encode (sig.lowered c.order))
    | none => .error (.signing .noSignature)

/-- What a reader of a signature can find out about it. -/
structure Finding where
  isDer : Bool
  isLow : Bool
  verifies : Bool
deriving DecidableEq, Repr

def inspect (publicKey hash signature : Bytes) : Finding :=
  match Crypto.Der.decode? signature with
  | none => ⟨false, false, false⟩
  | some sig =>
    ⟨true, sig.s ≤ c.order / 2, (c.decode? publicKey).any fun p => c.verify p hash sig⟩

end WatchWallet.Signing
