import WatchWallet.Crypto.Suite
/-!
Signatures in DER: a sequence of two integers, each in the fewest bytes that keep it from reading
as negative.

Lengths take one byte, which is enough for numbers of 256 bits.
-/

namespace WatchWallet.Crypto.Der

def integerBytes (n : Nat) : Bytes :=
  match Bytes.ofNat n with
  | [] => [0]
  | b :: bs => if b < 0x80 then b :: bs else 0 :: b :: bs

def tagged (tag : UInt8) (content : Bytes) : Bytes :=
  tag :: UInt8.ofNat content.length :: content

def encode (sig : Signature) : Bytes :=
  tagged 0x30 (tagged 0x02 (integerBytes sig.r) ++ tagged 0x02 (integerBytes sig.s))

/-- The content under a tag, and what follows it. -/
def readTagged (tag : UInt8) : Bytes → Option (Bytes × Bytes)
  | t :: len :: rest =>
    if t = tag ∧ len < 0x80 ∧ len.toNat ≤ rest.length then
      some (rest.take len.toNat, rest.drop len.toNat)
    else none
  | _ => none

def readInteger (bs : Bytes) : Option (Nat × Bytes) := do
  let (content, rest) ← readTagged 0x02 bs
  let n := Bytes.toNat content
  if content = integerBytes n then return (n, rest) else none

/-- The signature that a whole byte string writes. -/
def decode? (bs : Bytes) : Option Signature := do
  let (content, rest) ← readTagged 0x30 bs
  let (r, content) ← readInteger content
  let (s, content) ← readInteger content
  if rest.isEmpty && content.isEmpty then return ⟨r, s⟩ else none

end WatchWallet.Crypto.Der
