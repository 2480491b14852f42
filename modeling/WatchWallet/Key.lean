import WatchWallet.Crypto.Suite
import WatchWallet.Error
/-!
Keys and their derivation along paths.

A path is a list of byte strings. A step digests the public key with the segment under the chain
code; one half of the digest moves the key, the other half is the next chain code. Public and
private derivation take the same steps, on points and on scalars.
-/

namespace WatchWallet

abbrev Path := List Bytes

structure ExtendedKey where
  publicKey : Bytes
  chainCode : Bytes
  path : Path
deriving DecidableEq, Repr, Inhabited

def ExtendedKey.empty : ExtendedKey := ⟨[], [], []⟩

/-- A key, public or private, with the chain code that its children are derived under. -/
structure ChainedKey where
  key : Bytes
  chainCode : Bytes
deriving DecidableEq, Repr

namespace Key

/-- An empty chain code stands for one of zeros. -/
def startChain (chainCode : Bytes) : Bytes :=
  if chainCode.isEmpty then Bytes.zeros 32 else chainCode

section Derivation

variable (c : Crypto.Suite)

/-- The number that a step moves the key by: the first half of the digest, unless it is zero or
not below the order. -/
def scalar? (digest : Bytes) : Option Nat :=
  let n := Bytes.toNat (digest.take 32)
  if n = 0 ∨ c.curve.order ≤ n then none else some n

def stepDigest (publicKey chainCode segment : Bytes) : Bytes :=
  c.digests.hmacSha512 chainCode (publicKey ++ segment)

def publicStep (k : ChainedKey) (segment : Bytes) : Except Error ChainedKey := do
  let digest := stepDigest c k.key k.chainCode segment
  let some n := scalar? c digest | throw (.key .publicScalar)
  let some parent := c.curve.decode? k.key | throw (.key .publicPoint)
  let some child := c.curve.compress? (c.curve.add (c.curve.mulBase n) parent)
    | throw (.key .publicInfinity)
  return ⟨child, digest.drop 32⟩

def derivePublic (publicKey chainCode : Bytes) (path : Path) : Except Error ChainedKey :=
  path.foldlM (publicStep c) ⟨publicKey, startChain chainCode⟩

/-- The public key of the number that a byte string writes. -/
def ofPrivate (privateKey : Bytes) : Except Error Bytes := do
  if Bytes.toNat privateKey = 0 then throw (.key .privateZero)
  let some publicKey := c.curve.compress? (c.curve.mulBase (Bytes.toNat privateKey))
    | throw (.key .privateInfinity)
  return publicKey

def privateStep (k : ChainedKey) (segment : Bytes) : Except Error ChainedKey := do
  let publicKey ← ofPrivate c k.key
  let digest := stepDigest c publicKey k.chainCode segment
  let some n := scalar? c digest | throw (.key .privateScalar)
  let child := (Bytes.toNat k.key + n) % c.curve.order
  if child = 0 then throw (.key .privateSum)
  return ⟨Bytes.ofNatFixed 32 child, digest.drop 32⟩

def derivePrivate (privateKey chainCode : Bytes) (path : Path) : Except Error ChainedKey :=
  path.foldlM (privateStep c) ⟨privateKey, startChain chainCode⟩

end Derivation

end Key

/-- The key along `path` below `parent`, which knows its whole path. -/
def ExtendedKey.derive (c : Crypto.Suite) (parent : ExtendedKey) (path : Path) :
    Except Error ExtendedKey := do
  let k ← Key.derivePublic c parent.publicKey parent.chainCode path
  return ⟨k.key, k.chainCode, parent.path ++ path⟩

namespace ExtendedKey

open Json in
def toJson (k : ExtendedKey) : Json :=
  .object [("chain_code", ofBytes k.chainCode), ("derivation_path", ofList ofBytes k.path),
    ("public_key", ofBytes k.publicKey)]

open Json in
def ofJson : Reader ExtendedKey := fun j => do
  let publicKey ← field "public_key" bytes j
  let chainCode ← field "chain_code" bytes j
  let path ← field "derivation_path" (listOf bytes) j
  return ⟨publicKey, chainCode, path⟩

end ExtendedKey

end WatchWallet
