/-!
Networks and script types, in their fixed order, and their names.
-/

namespace WatchWallet

inductive Network where
  | mainnet
  | testnet
  | regtest
deriving DecidableEq, Repr, Inhabited

namespace Network

def name : Network → String
  | .mainnet => "mainnet"
  | .testnet => "testnet"
  | .regtest => "regtest"

def ofName? (s : String) : Option Network := [mainnet, testnet, regtest].find? (·.name = s)

def rank : Network → Nat
  | .mainnet => 0
  | .testnet => 1
  | .regtest => 2

instance : Ord Network := ⟨compareOn rank⟩

instance : Std.TransOrd Network := inferInstanceAs (Std.TransCmp (compareOn rank))

instance : Std.LawfulEqOrd Network where
  eq_of_compare {a b} := by cases a <;> cases b <;> decide

@[simp] theorem ofName?_name (n : Network) : ofName? n.name = some n := by cases n <;> decide

end Network

/-- What an address asks of its spender: a key, a script, or a key by witness. -/
inductive ScriptType where
  | p2pkh
  | p2sh
  | p2wpkh
deriving DecidableEq, Repr, Inhabited

namespace ScriptType

def name : ScriptType → String
  | .p2pkh => "p2pkh"
  | .p2sh => "p2sh"
  | .p2wpkh => "p2wpkh"

def ofName? (s : String) : Option ScriptType := [p2pkh, p2sh, p2wpkh].find? (·.name = s)

def rank : ScriptType → Nat
  | .p2pkh => 0
  | .p2sh => 1
  | .p2wpkh => 2

instance : Ord ScriptType := ⟨compareOn rank⟩

instance : Std.TransOrd ScriptType := inferInstanceAs (Std.TransCmp (compareOn rank))

instance : Std.LawfulEqOrd ScriptType where
  eq_of_compare {a b} := by cases a <;> cases b <;> decide

@[simp] theorem ofName?_name (t : ScriptType) : ofName? t.name = some t := by cases t <;> decide

end ScriptType

end WatchWallet
