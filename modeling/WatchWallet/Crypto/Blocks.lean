import WatchWallet.Bytes
/-!
Messages as whole blocks.

A message is followed by the byte `0x80`, by zeros, and by its bit count, which ends the last
block. The digests fold their compression over the blocks.
-/

namespace WatchWallet.Crypto

/-- The message, padded to whole blocks that end with `count`. -/
def padded (size : Nat) (count msg : Bytes) : Bytes :=
  msg ++ 0x80 :: Bytes.zeros ((2 * size - 1 - count.length - msg.length % size) % size) ++ count

def compressed {σ : Type} (size : Nat) (step : σ → Bytes → σ) (start : σ) (msg : Bytes) : σ :=
  (Bytes.blocks size (msg.length / size) msg).foldl step start

end WatchWallet.Crypto
