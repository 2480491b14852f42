/-!
Powers modulo a number, and inverses modulo a prime.
-/

namespace WatchWallet.Crypto.Modular

def pow (m base e : Nat) : Nat :=
  if e = 0 then 1 % m
  else
    let half := pow m base (e / 2)
    let square := half * half % m
    if e % 2 = 1 then square * base % m else square
termination_by e
decreasing_by omega

/-- The inverse of `a` modulo a prime `m`. -/
def inverse (m a : Nat) : Nat := pow m a (m - 2)

end WatchWallet.Crypto.Modular
