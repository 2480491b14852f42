import WatchWallet.Text.BitGroups
/-!
Witness programs as Bech32 text.

A text is a human-readable part, the separator `1`, and data symbols of five bits, of which the
last six are a checksum over everything before them. Writing checks nothing; reading accepts
witness version zero only, in one case throughout.
-/

namespace WatchWallet.Bech32

inductive Fault where
  | badLength
  | badCharacter
  | mixedCase
  | noSeparator
  | badDataCharacter
  | badChecksum
  | noVersion
  | unknownVersion
  | badPadding
  | badProgramLength
deriving DecidableEq, Repr

def Fault.reason : Fault → String
  | .badLength => "bad length"
  | .badCharacter => "invalid character"
  | .mixedCase => "mixed case"
  | .noSeparator => "missing separator"
  | .badDataCharacter => "invalid data character"
  | .badChecksum => "checksum mismatch"
  | .noVersion => "missing witness version"
  | .unknownVersion => "unsupported witness version"
  | .badPadding => "invalid padding"
  | .badProgramLength => "invalid program length"

def alphabet : List Char := "qpzry9x8gf2tvdw0s3jn54khce6mua7l".toList

def symbol (v : UInt8) : Char := alphabet.getD v.toNat 'q'

def symbolValue? (c : Char) : Option UInt8 := (alphabet.idxOf? c).map UInt8.ofNat

/-- One step of the checksum: the state moves up by five bits, takes in `v`, and is reduced by
the generator of each bit that moved out. -/
def polymodStep (state v : UInt32) : UInt32 :=
  let top := state >>> 25
  let reduce (mask generator : UInt32) : UInt32 := if top &&& mask = 0 then 0 else generator
  ((state &&& 0x1ffffff) <<< 5) ^^^ v ^^^ reduce 1 0x3b6a57b2 ^^^ reduce 2 0x26508e6d ^^^
    reduce 4 0x1ea119fa ^^^ reduce 8 0x3d4233dd ^^^ reduce 16 0x2a1462b3

def polymod (values : Bytes) : UInt32 :=
  values.foldl (fun state v => polymodStep state v.toUInt32) 1

/-- The high bits of each character, a zero, and the low five bits of each character. -/
def expandHrp (hrp : Bytes) : Bytes :=
  hrp.map (fun (b : UInt8) => b >>> 5) ++ [0] ++ hrp.map fun (b : UInt8) => b &&& 31

def checksum (hrp values : Bytes) : Bytes :=
  let mod := polymod (expandHrp hrp ++ values ++ Bytes.zeros 6) ^^^ 1
  [25, 20, 15, 10, 5, 0].map fun (shift : UInt32) => ((mod >>> shift) &&& 31).toUInt8

def checks (hrp values : Bytes) : Bool := polymod (expandHrp hrp ++ values) = 1

/-- A witness program under its human-readable part. -/
structure Segwit where
  hrp : List Char
  version : UInt8
  program : Bytes
deriving DecidableEq, Repr

def encodeChars (s : Segwit) : List Char :=
  let values := s.version :: (BitGroups.regroup 8 5 true s.program).groups
  s.hrp ++ '1' :: (values ++ checksum (utf8 s.hrp) values).map symbol

def encode (s : Segwit) : String := String.ofList (encodeChars s)

/-- Splits at the last separator. -/
def splitLast? (cs : List Char) : Option (List Char × List Char) :=
  match cs.reverse.dropWhile (· ≠ '1') with
  | [] => none
  | _ :: front => some (front.reverse, (cs.reverse.takeWhile (· ≠ '1')).reverse)

def decodeValues (hrp : List Char) (values : Bytes) : Except Fault Segwit :=
  match values.take (values.length - 6) with
  | [] => throw .noVersion
  | version :: groups => do
    if version ≠ 0 then throw .unknownVersion
    let program := BitGroups.regroup 5 8 false groups
    if !program.fits then throw .badPadding
    if program.groups.length ≠ 20 ∧ program.groups.length ≠ 32 then throw .badProgramLength
    return ⟨hrp, version, program.groups⟩

/-- Reads the lower-case form of a text. -/
def decodeLower (cs : List Char) : Except Fault Segwit :=
  match splitLast? cs with
  | none => throw .noSeparator
  | some (hrp, data) =>
    if hrp.isEmpty ∨ data.length < 6 then throw .noSeparator
    else match data.mapM symbolValue? with
      | none => throw .badDataCharacter
      | some values =>
        if checks (utf8 hrp) values then decodeValues hrp values else throw .badChecksum

def decodeChars (cs : List Char) : Except Fault Segwit :=
  if cs = [] ∨ 90 < (utf8 cs).length then throw .badLength
  else if cs.any fun c => c.toNat < 33 || 126 < c.toNat then throw .badCharacter
  else if cs.any Char.isLower && cs.any Char.isUpper then throw .mixedCase
  else decodeLower (cs.map Char.toLower)

def decode (text : String) : Except Fault Segwit := decodeChars text.toList

end WatchWallet.Bech32
