import WatchWallet.Error
import WatchWallet.Crypto.Suite
/-!
Addresses: their parts, their order, and their text.

An address is made from its network, its script type and the digest it pays to; the text follows
from these. Test and regression networks share the version bytes of the Base58 forms, so that a
Base58 text of the test network may be meant for either.
-/

namespace WatchWallet

structure Address where
  text : String
  network : Network
  scriptType : ScriptType
  payload : Bytes
deriving DecidableEq, Repr, Inhabited

namespace Address

instance : Ord Address :=
  ⟨compareLex (compareOn text) <| compareLex (compareOn network) <|
    compareLex (compareOn scriptType) (compareOn payload)⟩

instance : Std.TransOrd Address :=
  inferInstanceAs (Std.TransCmp (compareLex (compareOn text) <| compareLex (compareOn network) <|
    compareLex (compareOn scriptType) (compareOn payload)))

instance : Std.LawfulEqOrd Address where
  eq_of_compare {a b} h := by
    obtain ⟨t, n, s, p⟩ := a
    obtain ⟨t', n', s', p'⟩ := b
    obtain ⟨ht, h⟩ := Ordering.then_eq_eq.1 h
    obtain ⟨hn, h⟩ := Ordering.then_eq_eq.1 h
    obtain ⟨hs, hp⟩ := Ordering.then_eq_eq.1 h
    obtain rfl : t = t' := Std.LawfulEqOrd.eq_of_compare ht
    obtain rfl : n = n' := Std.LawfulEqOrd.eq_of_compare hn
    obtain rfl : s = s' := Std.LawfulEqOrd.eq_of_compare hs
    obtain rfl : p = p' := Std.LawfulEqOrd.eq_of_compare hp
    rfl

section Codec

variable (d : Crypto.Digests)

def keyVersion : Network → UInt8
  | .mainnet => 0x00
  | .testnet | .regtest => 0x6f

def scriptVersion : Network → UInt8
  | .mainnet => 0x05
  | .testnet | .regtest => 0xc4

def hrp : Network → List Char
  | .mainnet => ['b', 'c']
  | .testnet => ['t', 'b']
  | .regtest => ['b', 'c', 'r', 't']

def render (n : Network) (t : ScriptType) (payload : Bytes) : String :=
  match t with
  | .p2pkh => Base58.encodeChecked d.sha256 (keyVersion n :: payload)
  | .p2sh => Base58.encodeChecked d.sha256 (scriptVersion n :: payload)
  | .p2wpkh => Bech32.encode ⟨hrp n, 0, payload⟩

def ofPayload (n : Network) (t : ScriptType) (payload : Bytes) : Address :=
  ⟨render d n t payload, n, t, payload⟩

/-- The script that asks for a signature of one key: push its digest, check. -/
def redeemScript (publicKey : Bytes) : Bytes := 0x14 :: d.hash160 publicKey ++ [0xac]

/-- The address of a public key. -/
def ofKey (n : Network) (t : ScriptType) (publicKey : Bytes) : Address :=
  match t with
  | .p2pkh | .p2wpkh => ofPayload d n t (d.hash160 publicKey)
  | .p2sh => ofPayload d n t (d.hash160 (redeemScript d publicKey))

def ofScriptHash (n : Network) (hash : Bytes) : Except Error Address :=
  if hash.length = 20 then .ok (ofPayload d n .p2sh hash)
  else .error (.scriptHashLength hash.length)

/-- Whether a text starts, in any case, with the human-readable part of a network and the
separator. -/
def looksSegwit (cs : List Char) : Bool :=
  [Network.mainnet, .testnet, .regtest].any fun n =>
    (hrp n ++ ['1']).isPrefixOf (cs.map Char.toLower)

def networkOfHrp (h : List Char) : Network :=
  if h = hrp .mainnet then .mainnet else if h = hrp .testnet then .testnet else .regtest

def ofSegwit (text : String) : Except Error Address :=
  match Bech32.decode text with
  | .error fault => .error (.bech32 fault text)
  | .ok s =>
    if s.program.length = 20 then .ok (ofPayload d (networkOfHrp s.hrp) .p2wpkh s.program)
    else .error (.unsupportedProgram text)

/-- The network and script type that a version byte names; those of the test network where two
networks share it. -/
def ofVersion? (version : UInt8) : Option (Network × ScriptType) :=
  if version = 0x00 then some (.mainnet, .p2pkh)
  else if version = 0x05 then some (.mainnet, .p2sh)
  else if version = 0x6f then some (.testnet, .p2pkh)
  else if version = 0xc4 then some (.testnet, .p2sh)
  else none

def ofBase58 (text : String) : Except Error Address :=
  match Base58.decodeChecked d.sha256 text with
  | .error fault => .error (.base58 fault text)
  | .ok [] => .error (.payloadLength text)
  | .ok (version :: payload) =>
    if payload.length = 20 then
      match ofVersion? version with
      | some (n, t) => .ok (ofPayload d n t payload)
      | none => .error (.unknownVersion text)
    else .error (.payloadLength text)

def decode (text : String) : Except Error Address :=
  if looksSegwit text.toList then ofSegwit d text else ofBase58 d text

/-- The address of a text on the network it is expected on. A Base58 text of the test network is
taken for one of the regression network where that is expected. -/
def decodeOn (text : String) (expected : Network) : Except Error Address := do
  let a ← decode d text
  if a.network = expected then return a
  else if a.scriptType ≠ .p2wpkh ∧ a.network = .testnet ∧ expected = .regtest then
    return ofPayload d .regtest a.scriptType a.payload
  else throw (.foreignAddress text a.network expected)

end Codec

end Address

end WatchWallet
