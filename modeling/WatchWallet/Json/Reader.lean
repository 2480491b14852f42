import WatchWallet.Hex
import WatchWallet.Json.Value
import WatchWallet.Network
/-!
Reading values of the domain from JSON values, and writing them.

A reader fails for the shape of what it is given, a missing field or a value of another type, or
for a value of the right type that writes nothing. It converts nothing: where a whole number is
asked for, a truth value, a fraction, a negative number and one out of range are of another type,
and where a list is asked for, so is anything but an array. Fields are read in a fixed order and
the first that fails decides; fields that are not asked for are ignored. They are written in the
order of their names.
-/

namespace WatchWallet

inductive ReadFault where
  | shape
  | hex (fault : Hex.Fault)
  | network (name : String)
  | scriptType (name : String)
deriving DecidableEq, Repr

/-- What is said of a value that writes nothing; a fault of shape has no words. -/
def ReadFault.message? : ReadFault → Option String
  | .shape => none
  | .hex fault => some fault.message
  | .network name => some ("Unknown network '" ++ name ++ "'")
  | .scriptType name => some ("Unknown address type '" ++ name ++ "'")

namespace Json

abbrev Reader (α : Type) := Json → Except ReadFault α

def orShape {α : Type} : Option α → Except ReadFault α
  | some a => .ok a
  | none => .error .shape

def field {α : Type} (key : String) (read : Reader α) : Reader α := fun j => do
  read (← orShape (j.member? key))

/-- A field that may be missing. -/
def field? {α : Type} (key : String) (read : Reader α) : Reader (Option α) := fun j =>
  match j.member? key with
  | some v => some <$> read v
  | none => .ok none

/-- The item of an array at a position, which has to be there. -/
def item {α : Type} (i : Nat) (read : Reader α) : Reader α := fun j => do
  read (← orShape ((← orShape j.items?)[i]?))

def text : Reader String := fun j => orShape j.string?

def boolean : Reader Bool := fun j => orShape j.bool?

def uint32 : Reader UInt32 := fun j => UInt32.ofNat <$> orShape (j.natBelow? UInt32.size)

def uint64 : Reader UInt64 := fun j => UInt64.ofNat <$> orShape (j.natBelow? UInt64.size)

def bytes : Reader Bytes := fun j => do
  match Hex.decode (← text j) with
  | .ok bs => .ok bs
  | .error fault => .error (.hex fault)

def listOf {α : Type} (read : Reader α) : Reader (List α) := fun j => do
  (← orShape j.items?).mapM read

def network : Reader Network := fun j => do
  let name ← text j
  match Network.ofName? name with
  | some n => .ok n
  | none => .error (.network name)

def scriptType : Reader ScriptType := fun j => do
  let name ← text j
  match ScriptType.ofName? name with
  | some t => .ok t
  | none => .error (.scriptType name)

def ofUInt32 (n : UInt32) : Json := .ofNat n.toNat

def ofUInt64 (n : UInt64) : Json := .ofNat n.toNat

def ofBytes (bs : Bytes) : Json := .string (Hex.encode bs)

def ofList {α : Type} (write : α → Json) (as : List α) : Json := .array (as.map write)

end Json

end WatchWallet
