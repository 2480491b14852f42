import WatchWallet.Crypto.Suite
/-!
Byte strings as Base58 text.

A byte string is a number written in 58 digits, with one leading `1` for each leading zero byte.
The checked form carries the first four bytes of the double digest of its data.
-/

namespace WatchWallet.Base58

inductive Fault where
  | badCharacter
  | tooShort
  | badChecksum
deriving DecidableEq, Repr

def alphabet : List Char :=
  "123456789ABCDEFGHJKLMNPQRSTUVWXYZabcdefghijkmnopqrstuvwxyz".toList

def symbol (d : Nat) : Char := alphabet.getD d '1'

def symbolValue? (c : Char) : Option Nat := alphabet.idxOf? c

def encodeChars (bs : Bytes) : List Char :=
  List.replicate (bs.takeWhile (· = 0)).length '1' ++
    (Radix.digits 58 (Bytes.toNat bs)).reverse.map symbol

def decodeChars (cs : List Char) : Option Bytes := do
  let ds ← cs.mapM symbolValue?
  return Bytes.zeros (cs.takeWhile (· = '1')).length ++ Bytes.ofNat (Radix.value 58 ds.reverse)

def encode (bs : Bytes) : String := String.ofList (encodeChars bs)

def decode (text : String) : Except Fault Bytes :=
  match decodeChars text.toList with
  | some bs => .ok bs
  | none => .error .badCharacter

section Checked

variable (sha256 : Bytes → Bytes)

def checksum (bs : Bytes) : Bytes := (Crypto.doubleDigest sha256 bs).take 4

def encodeChecked (bs : Bytes) : String := encode (bs ++ checksum sha256 bs)

def decodeChecked (text : String) : Except Fault Bytes := do
  let bs ← decode text
  if bs.length < 4 then throw .tooShort
  let payload := bs.take (bs.length - 4)
  if bs.drop (bs.length - 4) = checksum sha256 payload then return payload
  throw .badChecksum

end Checked

@[simp] theorem encodeChars_nil : encodeChars [] = [] := by simp [encodeChars]

end WatchWallet.Base58
