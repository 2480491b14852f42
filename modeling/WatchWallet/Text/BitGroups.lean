import WatchWallet.Bytes
/-!
Regrouping a stream of bits.

The values of the input are groups of `src` bits, those of the output groups of `dst` bits, both
with the most significant bit first. Between two values fewer than `dst` bits wait to be
written: their number is `count` and the number they write is `pending`.
-/

namespace WatchWallet.BitGroups

/-- The groups written, and whether the input fitted into groups without a remainder that
has to be kept. -/
structure Regrouped where
  groups : Bytes
  fits : Bool
deriving DecidableEq, Repr

/-- How many numbers can be written with `width` bits. -/
def span (width : Nat) : Nat := Nat.pow 2 width

/-- The whole groups of `dst` bits at the head of `count` bits. -/
def wholeGroups (dst count bits : Nat) : Bytes :=
  (List.range (count / dst)).map fun i =>
    UInt8.ofNat (bits / span (count - (i + 1) * dst) % span dst)

/-- The end of the input: with padding the bits left over are filled up with zeros; without it
they must be fewer than an input group, and zero. -/
def finish (src dst : Nat) (pad : Bool) (count pending : Nat) : Regrouped :=
  if pad then
    ⟨if 0 < count then [UInt8.ofNat (pending * span (dst - count))] else [], true⟩
  else ⟨[], count < src && pending == 0⟩

def regroupFrom (src dst : Nat) (pad : Bool) : (count pending : Nat) → Bytes → Regrouped
  | count, pending, [] => finish src dst pad count pending
  | count, pending, v :: vs =>
    if v.toNat < span src then
      let total := count + src
      let bits := pending * span src + v.toNat
      let rest := regroupFrom src dst pad (total % dst) (bits % span (total % dst)) vs
      { rest with groups := wholeGroups dst total bits ++ rest.groups }
    else ⟨[], false⟩

/-- Regroup values of `src` bits into groups of `dst` bits, up to the first value that has more
than `src` bits. -/
def regroup (src dst : Nat) (pad : Bool) (values : Bytes) : Regrouped :=
  regroupFrom src dst pad 0 0 values

@[simp] theorem regroupFrom_nil (src dst : Nat) (pad : Bool) (count pending : Nat) :
    regroupFrom src dst pad count pending [] = finish src dst pad count pending := rfl

end WatchWallet.BitGroups
