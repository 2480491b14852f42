import Std.Data.ExtTreeMap
import WatchWallet.Address
/-!
Addresses as they are written down: a text and the network it was kept for.
-/

namespace WatchWallet

structure AddressRef where
  text : String
  network : Network
deriving DecidableEq, Repr

namespace AddressRef

instance : Ord AddressRef := ⟨compareLex (compareOn text) (compareOn network)⟩

instance : Std.TransOrd AddressRef :=
  inferInstanceAs (Std.TransCmp (compareLex (compareOn text) (compareOn network)))

instance : Std.LawfulEqOrd AddressRef where
  eq_of_compare {a b} h := by
    obtain ⟨t, n⟩ := a
    obtain ⟨t', n'⟩ := b
    obtain ⟨ht, hn⟩ := Ordering.then_eq_eq.1 h
    obtain rfl : t = t' := Std.LawfulEqOrd.eq_of_compare ht
    obtain rfl : n = n' := Std.LawfulEqOrd.eq_of_compare hn
    rfl

/-- Values by address; of two entries for one address the first is kept. -/
abbrev Table (α : Type) := Std.ExtTreeMap AddressRef α

def Table.ofEntries {α : Type} (entries : List (AddressRef × α)) : Table α :=
  entries.foldl (fun m (r, a) => m.insertIfNew r a) ∅

/-- The address that is meant, in a session on a network. -/
def resolve (d : Crypto.Digests) (r : AddressRef) (session : Network) : Except Error Address :=
  if r.network = session then Address.decodeOn d r.text session
  else .error (.foreignRecord r.text r.network session)

open Json in
def toJson (r : AddressRef) : Json := .array [.string r.text, .string r.network.name]

open Json in
def ofJson : Reader AddressRef := fun j => do
  let text ← item 0 Json.text j
  let network ← item 1 Json.network j
  return ⟨text, network⟩

open Json in
def Table.toJson {α : Type} (write : α → Json) (m : Table α) : Json :=
  ofList (fun (r, a) => .array [r.toJson, write a]) m.toList

open Json in
def Table.ofJson {α : Type} (read : Reader α) : Reader (Table α) := fun j =>
  Table.ofEntries <$> listOf (fun entry => do
    let r ← item 0 AddressRef.ofJson entry
    let a ← item 1 read entry
    return (r, a)) j

end AddressRef

def Address.ref (a : Address) : AddressRef := ⟨a.text, a.network⟩

end WatchWallet
