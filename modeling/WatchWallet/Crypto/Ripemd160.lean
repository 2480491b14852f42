import WatchWallet.Crypto.Blocks
/-!
The digest RIPEMD-160.

Two lines of eighty steps run over the same block, each with its own order of words, rotations,
constants and order of mixing functions; a step is the same for both. Words are written with
the least significant byte first.
-/

namespace WatchWallet.Crypto.Ripemd160

structure State where
  a : UInt32
  b : UInt32
  c : UInt32
  d : UInt32
  e : UInt32

def start : State := ⟨0x67452301, 0xefcdab89, 0x98badcfe, 0x10325476, 0xc3d2e1f0⟩

def rotate (x n : UInt32) : UInt32 := (x <<< n) ||| (x >>> (32 - n))

def word (bs : Bytes) : UInt32 := UInt32.ofNat (Bytes.toNat bs.reverse)

/-- The mixing functions, by number of the group of sixteen steps. -/
def mix : Nat → UInt32 → UInt32 → UInt32 → UInt32
  | 0, x, y, z => x ^^^ y ^^^ z
  | 1, x, y, z => (x &&& y) ||| (~~~x &&& z)
  | 2, x, y, z => (x ||| ~~~y) ^^^ z
  | 3, x, y, z => (x &&& z) ||| (y &&& ~~~z)
  | _, x, y, z => x ^^^ (y ||| ~~~z)

/-- A line: in which order the steps take the words, how far they rotate, and the constant and
the mixing function of each group. -/
structure Line where
  order : List Nat
  rotations : List UInt32
  constants : List UInt32
  mixing : List Nat

def leftLine : Line where
  order := [
    0, 1, 2, 3, 4, 5, 6, 7, 8, 9, 10, 11, 12, 13, 14, 15,
    7, 4, 13, 1, 10, 6, 15, 3, 12, 0, 9, 5, 2, 14, 11, 8,
    3, 10, 14, 4, 9, 15, 8, 1, 2, 7, 0, 6, 13, 11, 5, 12,
    1, 9, 11, 10, 0, 8, 12, 4, 13, 3, 7, 15, 14, 5, 6, 2,
    4, 0, 5, 9, 7, 12, 2, 10, 14, 1, 3, 8, 11, 6, 15, 13]
  rotations := [
    11, 14, 15, 12, 5, 8, 7, 9, 11, 13, 14, 15, 6, 7, 9, 8,
    7, 6, 8, 13, 11, 9, 7, 15, 7, 12, 15, 9, 11, 7, 13, 12,
    11, 13, 6, 7, 14, 9, 13, 15, 14, 8, 13, 6, 5, 12, 7, 5,
    11, 12, 14, 15, 14, 15, 9, 8, 9, 14, 5, 6, 8, 6, 5, 12,
    9, 15, 5, 11, 6, 8, 13, 12, 5, 12, 13, 14, 11, 8, 5, 6]
  constants := [0x00000000, 0x5a827999, 0x6ed9eba1, 0x8f1bbcdc, 0xa953fd4e]
  mixing := [0, 1, 2, 3, 4]

def rightLine : Line where
  order := [
    5, 14, 7, 0, 9, 2, 11, 4, 13, 6, 15, 8, 1, 10, 3, 12,
    6, 11, 3, 7, 0, 13, 5, 10, 14, 15, 8, 12, 4, 9, 1, 2,
    15, 5, 1, 3, 7, 14, 6, 9, 11, 8, 12, 2, 10, 0, 4, 13,
    8, 6, 4, 1, 3, 11, 15, 0, 5, 12, 2, 13, 9, 7, 10, 14,
    12, 15, 10, 4, 1, 5, 8, 7, 6, 2, 13, 14, 0, 3, 9, 11]
  rotations := [
    8, 9, 9, 11, 13, 15, 15, 5, 7, 7, 8, 11, 14, 14, 12, 6,
    9, 13, 15, 7, 12, 8, 9, 11, 7, 7, 12, 7, 6, 15, 13, 11,
    9, 7, 15, 11, 8, 6, 6, 14, 12, 13, 5, 14, 13, 13, 7, 5,
    15, 5, 8, 11, 14, 14, 6, 14, 6, 9, 12, 9, 12, 5, 15, 8,
    8, 5, 12, 9, 12, 5, 14, 6, 8, 13, 6, 5, 15, 13, 11, 11]
  constants := [0x50a28be6, 0x5c4dd124, 0x6d703ef3, 0x7a6d76e9, 0x00000000]
  mixing := [4, 3, 2, 1, 0]

def round (k : UInt32) (f : Nat) (s : State) (w n : UInt32) : State :=
  let t := rotate (s.a + mix f s.b s.c s.d + w + k) n + s.e
  ⟨s.e, t, s.b, rotate s.c 10, s.d⟩

def Line.run (line : Line) (words : List UInt32) (s : State) : State :=
  ((line.order.zip line.rotations).zipIdx).foldl
    (fun s ((i, n), j) =>
      round (line.constants.getD (j / 16) 0) (line.mixing.getD (j / 16) 0) s (words.getD i 0) n) s

def step (s : State) (block : Bytes) : State :=
  let words := (Bytes.blocks 4 16 block).map word
  let l := leftLine.run words s
  let r := rightLine.run words s
  ⟨s.b + l.c + r.d, s.c + l.d + r.e, s.d + l.e + r.a, s.e + l.a + r.b, s.a + l.b + r.c⟩

def State.bytes (s : State) : Bytes :=
  [s.a, s.b, s.c, s.d, s.e].flatMap fun w => Bytes.ofNatFixedLittle 4 w.toNat

def digest (msg : Bytes) : Bytes :=
  (compressed 64 step start (padded 64 (Bytes.ofNatFixedLittle 8 (8 * msg.length)) msg)).bytes

@[simp] theorem length_digest (msg : Bytes) : (digest msg).length = 20 := by
  simp [digest, State.bytes]

end WatchWallet.Crypto.Ripemd160
