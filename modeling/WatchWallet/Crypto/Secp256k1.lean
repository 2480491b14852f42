import WatchWallet.Bytes
import WatchWallet.Crypto.Modular
/-!
The curve secp256k1: `y² = x³ + 7` over a prime field, with its base point.

Points are affine. A multiple of a point is taken in Jacobian coordinates, where `⟨x, y, z⟩` stands
for `(x / z², y / z³)` and `z = 0` for the point at infinity, and is brought back at the end.
-/

namespace WatchWallet.Crypto.Secp256k1

def prime : Nat := 0xfffffffffffffffffffffffffffffffffffffffffffffffffffffffefffffc2f

def order : Nat := 0xfffffffffffffffffffffffffffffffebaaedce6af48a03bbfd25e8cd0364141

inductive Point where
  | infinity
  | affine (x y : Nat)
deriving DecidableEq, Repr, Inhabited

def base : Point :=
  .affine 0x79be667ef9dcbbac55a06295ce870b07029bfcdb2dce28d959f2815b16f81798
    0x483ada7726a3c4655da4fbfc0e1108a8fd17b448a68554199c47d08ffb10d4b8

def mul (a b : Nat) : Nat := a * b % prime

def sub (a b : Nat) : Nat := (a + (prime - b % prime)) % prime

/-- The right side of the curve equation. -/
def cubic (x : Nat) : Nat := (x * x * x + 7) % prime

def onCurve (x y : Nat) : Bool := x < prime && y < prime && mul y y == cubic x

/-- The square root of the parity asked for; the exponent is right as the prime is 3 modulo 4. -/
def root? (a parity : Nat) : Option Nat :=
  let y := Modular.pow prime a ((prime + 1) / 4)
  if mul y y = a then some (if y % 2 = parity then y else (prime - y) % prime) else none

structure Jacobian where
  x : Nat
  y : Nat
  z : Nat

namespace Jacobian

def infinity : Jacobian := ⟨1, 1, 0⟩

def ofPoint : Point → Jacobian
  | .infinity => infinity
  | .affine x y => ⟨x, y, 1⟩

def toPoint (p : Jacobian) : Point :=
  if p.z = 0 then .infinity
  else
    let i := Modular.inverse prime p.z
    let i2 := mul i i
    .affine (mul p.x i2) (mul p.y (mul i2 i))

def double (p : Jacobian) : Jacobian :=
  if p.z = 0 ∨ p.y = 0 then infinity
  else
    let y2 := mul p.y p.y
    let s := mul 4 (mul p.x y2)
    let m := mul 3 (mul p.x p.x)
    let x := sub (mul m m) (2 * s)
    ⟨x, sub (mul m (sub s x)) (mul 8 (mul y2 y2)), mul 2 (mul p.y p.z)⟩

def add (p q : Jacobian) : Jacobian :=
  if p.z = 0 then q
  else if q.z = 0 then p
  else
    let pz2 := mul p.z p.z
    let qz2 := mul q.z q.z
    let u := mul p.x qz2
    let s := mul p.y (mul qz2 q.z)
    let h := sub (mul q.x pz2) u
    let r := sub (mul q.y (mul pz2 p.z)) s
    if h = 0 then (if r = 0 then double p else infinity)
    else
      let h2 := mul h h
      let h3 := mul h2 h
      let v := mul u h2
      let x := sub (sub (mul r r) h3) (2 * v)
      ⟨x, sub (mul r (sub v x)) (mul s h3), mul h (mul p.z q.z)⟩

/-- The multiple by a number below `2 ^ 256`, from the highest bit down. -/
def multiple (k : Nat) (p : Jacobian) : Jacobian :=
  (List.range 256).foldr
    (fun i acc => if k.testBit i then add (double acc) p else double acc) infinity

end Jacobian

def add (p q : Point) : Point := (Jacobian.add (.ofPoint p) (.ofPoint q)).toPoint

def multiple (k : Nat) (p : Point) : Point :=
  (Jacobian.multiple (k % order) (.ofPoint p)).toPoint

def mulBase (k : Nat) : Point := multiple k base

def coordinate (n : Nat) : Bytes := Bytes.ofNatFixed 32 n

def compress? : Point → Option Bytes
  | .infinity => none
  | .affine x y => some ((if y % 2 = 0 then 2 else 3) :: coordinate x)

/-- A point from its text: the byte `00` for infinity, a compressed point, an uncompressed one, or
a hybrid one, whose first byte gives the parity of the ordinate once more. -/
def decode? : Bytes → Option Point
  | [] => none
  | tag :: rest =>
    if tag = 0 then if rest.isEmpty then some .infinity else none
    else if tag = 2 ∨ tag = 3 then
      let x := Bytes.toNat rest
      if rest.length = 32 ∧ x < prime then
        (root? (cubic x) (tag.toNat % 2)).map (.affine x)
      else none
    else if tag = 4 ∨ tag = 6 ∨ tag = 7 then
      let x := Bytes.toNat (rest.take 32)
      let y := Bytes.toNat (rest.drop 32)
      if rest.length = 64 ∧ onCurve x y ∧ (tag = 4 ∨ y % 2 = tag.toNat % 2) then
        some (.affine x y)
      else none
    else none

end WatchWallet.Crypto.Secp256k1
