import Std.Data.ExtTreeSet
import WatchWallet.Address
/-!
Locks on addresses, and the guards that hold them.

A guard owns its address if it was free when the guard was made, and gives it back when it is
dropped; a guard that owns nothing gives nothing back.
-/

namespace WatchWallet

structure LockSet where
  locked : Std.ExtTreeSet Address

structure Guard where
  address : Address
  owns : Bool
deriving DecidableEq, Repr

namespace LockSet

def empty : LockSet := ⟨∅⟩

def isLocked (l : LockSet) (a : Address) : Bool := l.locked.contains a

/-- Locks an address; answers whether it was free. -/
def acquire (l : LockSet) (a : Address) : Bool × LockSet := (!l.isLocked a, ⟨l.locked.insert a⟩)

def release (l : LockSet) (a : Address) : LockSet := ⟨l.locked.erase a⟩

def guard (l : LockSet) (a : Address) : Guard × LockSet :=
  let (free, l) := l.acquire a
  (⟨a, free⟩, l)

def drop (l : LockSet) (g : Guard) : LockSet := if g.owns then l.release g.address else l

end LockSet

end WatchWallet
