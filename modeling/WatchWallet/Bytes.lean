import WatchWallet.Radix
/-!
Byte strings, and the numbers and words that they write.

Numbers are written with the most significant byte first unless a name says otherwise.
-/

namespace WatchWallet

abbrev Bytes := List UInt8

namespace Bytes

def toNat (bs : Bytes) : Nat := Radix.value 256 (bs.reverse.map UInt8.toNat)

/-- The shortest byte string that writes `n`; the empty one for zero. -/
def ofNat (n : Nat) : Bytes := (Radix.digits 256 n).reverse.map UInt8.ofNat

/-- The lowest `len` bytes of `n`, in that many bytes. -/
def ofNatFixed : (len n : Nat) → Bytes
  | 0, _ => []
  | len + 1, n => ofNatFixed len (n / 256) ++ [UInt8.ofNat n]

def ofNatFixedLittle : (len n : Nat) → Bytes
  | 0, _ => []
  | len + 1, n => UInt8.ofNat n :: ofNatFixedLittle len (n / 256)

def zeros (len : Nat) : Bytes := List.replicate len 0

/-- The first `count` pieces of `size` bytes each. -/
def blocks (size : Nat) : (count : Nat) → Bytes → List Bytes
  | 0, _ => []
  | count + 1, bs => bs.take size :: blocks size count (bs.drop size)

@[simp] theorem toNat_nil : toNat [] = 0 := rfl

@[simp] theorem length_ofNatFixed (len n : Nat) : (ofNatFixed len n).length = len := by
  induction len generalizing n with
  | zero => rfl
  | succ len ih => simp [ofNatFixed, ih]

@[simp] theorem length_ofNatFixedLittle (len n : Nat) :
    (ofNatFixedLittle len n).length = len := by
  induction len generalizing n with
  | zero => rfl
  | succ len ih => simp [ofNatFixedLittle, ih]

@[simp] theorem length_zeros (len : Nat) : (zeros len).length = len := by simp [zeros]

theorem toNat_append_singleton (bs : Bytes) (b : UInt8) :
    toNat (bs ++ [b]) = 256 * toNat bs + b.toNat := by
  simp [toNat, Nat.add_comm]

end Bytes

/-- The bytes of a text in UTF-8. -/
def utf8 (text : List Char) : Bytes := text.flatMap String.utf8EncodeChar

@[simp] theorem utf8_nil : utf8 [] = [] := rfl
@[simp] theorem utf8_cons (c : Char) (cs : List Char) :
    utf8 (c :: cs) = String.utf8EncodeChar c ++ utf8 cs := rfl

end WatchWallet
