import WatchWallet.Crypto.Ecdsa
import WatchWallet.Crypto.Ripemd160
import WatchWallet.Crypto.Sha256
/-!
The suite of the Bitcoin network.
-/

namespace WatchWallet.Crypto

def Digests.standard : Digests where
  sha256 := Sha256.digest
  ripemd160 := Ripemd160.digest
  hmacSha512 := Sha512.hmac
  length_sha256 := Sha256.length_digest
  length_ripemd160 := Ripemd160.length_digest
  length_hmacSha512 := Sha512.length_hmac

def Curve.secp256k1 : Curve where
  Point := Secp256k1.Point
  order := Secp256k1.order
  add := Secp256k1.add
  mulBase := Secp256k1.mulBase
  decode? := Secp256k1.decode?
  compress? := Secp256k1.compress?
  sign? := Ecdsa.sign?
  verify := Ecdsa.verify

def Suite.standard : Suite := ⟨.standard, .secp256k1⟩

end WatchWallet.Crypto
