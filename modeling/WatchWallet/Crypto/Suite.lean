import WatchWallet.Bytes
/-!
What the wallet needs of cryptography.

Addresses need digests only; keys need the group that they live in as well. Both are passed as
values, so that everything above them holds for any digests of these sizes and for any group.
-/

namespace WatchWallet.Crypto

/-- The digest of a digest. -/
def doubleDigest (digest : Bytes → Bytes) (msg : Bytes) : Bytes := digest (digest msg)

structure Digests where
  sha256 : Bytes → Bytes
  ripemd160 : Bytes → Bytes
  hmacSha512 : (key msg : Bytes) → Bytes
  length_sha256 : ∀ msg, (sha256 msg).length = 32
  length_ripemd160 : ∀ msg, (ripemd160 msg).length = 20
  length_hmacSha512 : ∀ key msg, (hmacSha512 key msg).length = 64

attribute [simp] Digests.length_sha256 Digests.length_ripemd160 Digests.length_hmacSha512

namespace Digests

variable (d : Digests)

def hash160 (msg : Bytes) : Bytes := d.ripemd160 (d.sha256 msg)

@[simp] theorem length_hash160 (msg : Bytes) : (d.hash160 msg).length = 20 := by simp [hash160]

end Digests

structure Signature where
  r : Nat
  s : Nat
deriving DecidableEq, Repr

/-- Of `s` and `order - s`, which verify alike, the one in the lower half. -/
def Signature.lowered (order : Nat) (sig : Signature) : Signature :=
  if order / 2 < sig.s then { sig with s := order - sig.s } else sig

/-- A group with a base point, the text of its points, and signatures over it. -/
structure Curve where
  Point : Type
  order : Nat
  add : Point → Point → Point
  mulBase : Nat → Point
  decode? : Bytes → Option Point
  /-- The compressed form; the neutral point has none. -/
  compress? : Point → Option Bytes
  sign? : (key : Nat) → (hash : Bytes) → Option Signature
  verify : Point → (hash : Bytes) → Signature → Bool

structure Suite where
  digests : Digests
  curve : Curve

end WatchWallet.Crypto
