import WatchWallet.Json.Reader
import WatchWallet.Text.Base58
import WatchWallet.Text.Bech32
/-!
What can go wrong in the wallet.

An error is its cause. Its kind and its wording are functions of the cause. Where a text could not
be read, the wording ends before the account of it that a reader of texts gives of its own.
-/

namespace WatchWallet

/-- The greatest confirmation depth that can be asked for. -/
def maxDepth : UInt32 := 6

/-- The greatest number of segments of a derivation path. -/
def maxPathLength : Nat := 255

namespace Error

inductive Kind where
  | minConfirmationsTooHigh
  | derivationPathTooLong
  | addressNotTracked
  | invalidAddress
  | invalidScriptHash
  | invalidPercentile
  | networkMismatch
  | derivationError
  | oracleReject
  | signingFailure
  | stateFileError
deriving DecidableEq, Repr

def Kind.defaultMessage : Kind → String
  | .minConfirmationsTooHigh => "Minimum confirmations above upper bound"
  | .derivationPathTooLong => "Derivation path too long"
  | .addressNotTracked => "Address not tracked"
  | .invalidAddress => "Invalid address"
  | .invalidScriptHash => "Invalid script hash"
  | .invalidPercentile => "Invalid fee percentile"
  | .networkMismatch => "Address network mismatch"
  | .derivationError => "Key derivation failed"
  | .oracleReject => "Oracle rejected the call"
  | .signingFailure => "Signing failed"
  | .stateFileError => "State file error"

inductive KeyFault where
  /-- The digest of a public step is no scalar. -/
  | publicScalar
  | publicPoint
  | publicInfinity
  | privateZero
  /-- A private key whose public key is the point at infinity. -/
  | privateInfinity
  /-- The digest of a private step is no scalar. -/
  | privateScalar
  | privateSum
  | rootSize
  | rootMissing
deriving DecidableEq, Repr

def KeyFault.message : KeyFault → String
  | .publicScalar => "Public key derivation failed: invalid scalar"
  | .publicPoint => "Public key derivation failed: invalid public key"
  | .publicInfinity => "Public key derivation failed: derived point at infinity"
  | .privateZero => "Invalid private key"
  | .privateInfinity => "Cannot serialize public key"
  | .privateScalar => "Invalid scalar"
  | .privateSum => "Invalid child private key"
  | .rootSize => "Root public key must be a 33-byte compressed point"
  | .rootMissing => "Root public key not initialized"

/-- Why a node's command line gave no answer that can be used. -/
inductive NodeFault where
  | notStarted (binary : String)
  | exit (status : Int) (output : String)
  | silent
  | badJson
  | otherNetwork (serves asked : Network)
  | scanIncomplete
  | scanShape
  | scanTxid (fault : Hex.Fault)
  | statsShape
  | percentileCount
  | keyMissing
  | signerMissing
deriving DecidableEq, Repr

def NodeFault.message : NodeFault → String
  | .notStarted binary =>
    "Failed to execute " ++ binary ++ ". Make sure it is installed and in your PATH."
  | .exit status output =>
    "bitcoin-cli command failed with exit code " ++ toString status ++ ". Output: " ++ output
  | .silent => "Empty response from bitcoin-cli"
  | .badJson => "Failed to parse JSON response"
  | .otherNetwork serves asked => "Node runs on " ++ serves.name ++ ", not " ++ asked.name
  | .scanIncomplete => "scantxoutset did not complete"
  | .scanShape => "Unexpected scantxoutset reply"
  | .scanTxid fault => "Unexpected txid in scantxoutset reply: " ++ fault.message
  | .statsShape => "Unexpected getblockstats reply"
  | .percentileCount => "Expected five feerate percentiles"
  | .keyMissing => "No root public key configured for bitcoin-cli oracle"
  | .signerMissing => "No signer configured for bitcoin-cli oracle"

inductive SigningFault where
  | hashLength
  | keyMissing
  | noSignature
deriving DecidableEq, Repr

def SigningFault.message : SigningFault → String
  | .hashLength => "Signing failed: message hash must be 32 bytes"
  | .keyMissing => "Signing failed: oracle has no private key"
  | .noSignature => "Signing failed: ECDSA_do_sign"

inductive FileFault where
  | unwritable
  /-- Opened, but not written as a whole. -/
  | unwritten
  | unreadable
  | read (fault : ReadFault)
deriving DecidableEq, Repr

def FileFault.message (path : String) : FileFault → String
  | .unwritable => "Cannot open state file for writing: " ++ path
  | .unwritten => "Failed to write state file: " ++ path
  | .unreadable => "Cannot open state file: " ++ path
  | .read fault =>
    match fault.message? with
    | none => "Malformed state file " ++ path
    | some message => "Invalid value in state file " ++ path ++ ": " ++ message

end Error

open Error in
inductive Error where
  | depthTooHigh (depth : UInt32)
  | pathTooLong (length : Nat)
  | notTracked (address : String)
  | base58 (fault : Base58.Fault) (text : String)
  | bech32 (fault : Bech32.Fault) (text : String)
  | unsupportedProgram (text : String)
  | payloadLength (text : String)
  | unknownVersion (text : String)
  | scriptHashLength (length : Nat)
  | percentileTooHigh (value : UInt8)
  | percentileMissing (count : Nat)
  /-- An address of one network where another is expected. -/
  | foreignAddress (text : String) (actual expected : Network)
  /-- An address kept for one network in the record of another. -/
  | foreignRecord (text : String) (kept session : Network)
  | key (fault : KeyFault)
  | otherNetwork (serves asked : Network)
  | emptyTransaction
  | noRootKey (network : Network)
  | node (fault : NodeFault)
  | signing (fault : SigningFault)
  | stateFile (fault : FileFault) (path : String)
  /-- Reported from outside, in words of its own; empty words stand for those of the kind. -/
  | reported (kind : Kind) (words : String)
deriving DecidableEq, Repr

namespace Error

def kind : Error → Kind
  | depthTooHigh _ => .minConfirmationsTooHigh
  | pathTooLong _ => .derivationPathTooLong
  | notTracked _ => .addressNotTracked
  | base58 .. | bech32 .. | unsupportedProgram _ | payloadLength _ | unknownVersion _ =>
    .invalidAddress
  | scriptHashLength _ => .invalidScriptHash
  | percentileTooHigh _ | percentileMissing _ => .invalidPercentile
  | foreignAddress .. | foreignRecord .. => .networkMismatch
  | key _ => .derivationError
  | otherNetwork .. | emptyTransaction | noRootKey _ | node _ => .oracleReject
  | signing _ => .signingFailure
  | stateFile .. => .stateFileError
  | reported kind _ => kind

def quoted (text : String) : String := "'" ++ text ++ "'"

def message : Error → String
  | depthTooHigh depth =>
    "Minimum confirmations " ++ toString depth.toNat ++ " above upper bound " ++
      toString maxDepth.toNat
  | pathTooLong length =>
    "Derivation path has " ++ toString length ++ " segments, at most " ++
      toString maxPathLength ++ " allowed"
  | notTracked address => "Address not tracked: " ++ address
  | base58 .badCharacter text => "Invalid Base58 character in " ++ quoted text
  | base58 .tooShort text => "Base58Check string too short: " ++ quoted text
  | base58 .badChecksum text => "Base58Check checksum mismatch: " ++ quoted text
  | bech32 fault text => "Invalid Bech32 address " ++ quoted text ++ ": " ++ fault.reason
  | unsupportedProgram text => "Unsupported witness program in " ++ quoted text
  | payloadLength text => "Unexpected payload length in " ++ quoted text
  | unknownVersion text => "Unknown version byte in " ++ quoted text
  | scriptHashLength length => "Script hash must be 20 bytes, got " ++ toString length
  | percentileTooHigh value =>
    "Fee percentile must be at most 99, got " ++ toString value.toNat
  | percentileMissing count => "Oracle returned " ++ toString count ++ " fee percentiles"
  | foreignAddress text actual expected =>
    "Address " ++ quoted text ++ " belongs to " ++ actual.name ++ ", expected " ++ expected.name
  | foreignRecord text kept session =>
    "Address " ++ text ++ " stored for " ++ kept.name ++ " in a " ++ session.name ++ " state"
  | key fault => fault.message
  | otherNetwork serves asked => "Oracle serves " ++ serves.name ++ ", not " ++ asked.name
  | emptyTransaction => "Empty transaction"
  | noRootKey network => "Oracle has no root public key for " ++ network.name
  | node fault => fault.message
  | signing fault => fault.message
  | stateFile fault path => fault.message path
  | reported kind words => if words.isEmpty then kind.defaultMessage else words

end Error

end WatchWallet
