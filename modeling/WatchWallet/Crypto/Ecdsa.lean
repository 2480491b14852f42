import WatchWallet.Crypto.Secp256k1
import WatchWallet.Crypto.Sha512
import WatchWallet.Crypto.Suite
/-!
Signatures over secp256k1.

The nonce is taken from the keyed digest of the message under the key, with a counter for the
rare nonce that gives no signature; a signature is thus a function of key and message.
-/

namespace WatchWallet.Crypto.Ecdsa

open Secp256k1 (order)

def signWith (key hash nonce : Nat) : Option Signature :=
  match Secp256k1.mulBase nonce with
  | .infinity => none
  | .affine x _ =>
    let r := x % order
    let s := Modular.inverse order nonce * ((hash + r * key) % order) % order
    if r = 0 ∨ s = 0 then none else some ⟨r, s⟩

def nonce (key : Nat) (hash : Bytes) (counter : Nat) : Nat :=
  let secret := Bytes.ofNatFixed 32 (key % order)
  Bytes.toNat (Sha512.hmac secret (hash ++ Bytes.ofNatFixed 4 counter)) % order

/-- A key of more than 256 bits signs nothing. -/
def sign? (key : Nat) (hash : Bytes) : Option Signature :=
  if 256 ≤ key.log2 then none
  else (List.range 64).findSome? fun counter =>
    signWith key (Bytes.toNat hash) (nonce key hash counter)

def verify (key : Secp256k1.Point) (hash : Bytes) (sig : Signature) : Bool :=
  if 0 < sig.r ∧ sig.r < order ∧ 0 < sig.s ∧ sig.s < order then
    let w := Modular.inverse order sig.s
    let u := Bytes.toNat hash * w % order
    let v := sig.r * w % order
    match Secp256k1.add (Secp256k1.mulBase u) (Secp256k1.multiple v key) with
    | .infinity => false
    | .affine x _ => x % order == sig.r
  else false

end WatchWallet.Crypto.Ecdsa
