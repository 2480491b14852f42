import WatchWallet.Bytes
/-!
Byte strings as hexadecimal text.

Writing uses lower case; reading takes either case. A text of odd byte length is refused for
its length, whatever its characters are.
-/

namespace WatchWallet.Hex

inductive Fault where
  | oddLength
  | badCharacter
deriving DecidableEq, Repr

def Fault.message : Fault → String
  | .oddLength => "Invalid hex string length"
  | .badCharacter => "Invalid hex character"

/-- The character of a value below sixteen. -/
def digit (n : Nat) : Char := if n < 10 then Char.ofNat (48 + n) else Char.ofNat (87 + n)

def digitValue? (c : Char) : Option Nat :=
  if '0' ≤ c ∧ c ≤ '9' then some (c.toNat - 48)
  else if 'a' ≤ c ∧ c ≤ 'f' then some (c.toNat - 87)
  else if 'A' ≤ c ∧ c ≤ 'F' then some (c.toNat - 55)
  else none

def encodeByte (b : UInt8) : List Char := [digit (b.toNat / 16), digit (b.toNat % 16)]

def encodeChars (bs : Bytes) : List Char := bs.flatMap encodeByte

def encode (bs : Bytes) : String := String.ofList (encodeChars bs)

def decodeChars : List Char → Except Fault Bytes
  | [] => .ok []
  | [_] => .error .badCharacter
  | h :: l :: rest =>
    match digitValue? h, digitValue? l with
    | some hi, some lo => (UInt8.ofNat (16 * hi + lo) :: ·) <$> decodeChars rest
    | _, _ => .error .badCharacter

def decode (text : String) : Except Fault Bytes :=
  if text.utf8ByteSize % 2 = 1 then .error .oddLength else decodeChars text.toList

@[simp] theorem encodeChars_nil : encodeChars [] = [] := rfl
@[simp] theorem encodeChars_cons (b : UInt8) (bs : Bytes) :
    encodeChars (b :: bs) = encodeByte b ++ encodeChars bs := rfl

end WatchWallet.Hex
