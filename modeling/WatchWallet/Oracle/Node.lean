import WatchWallet.Json.Parser
import WatchWallet.Oracle
import WatchWallet.Oracle.Amount
import WatchWallet.Text.LineBuffer
/-!
An oracle that runs the command line of a node.

The shell is a function on a state of its own: it takes a command line and gives back what the
command printed and how it ended, if it could be started. What a command prints is read through a
line buffer.
-/

namespace WatchWallet

namespace Node

structure Reply where
  output : String
  status : Int
deriving DecidableEq, Repr

/-- There is no reply where the command cannot be started. -/
abbrev Shell (ω : Type) := String → ω → Option Reply × ω

structure Config where
  network : Network
  /-- The program that is run. -/
  binary : String := "bitcoin-cli"
  /-- What stands before every command. -/
  extraArgs : List String := []
  key : ExtendedKey := .empty
  signer : Option (Path → Bytes → Bytes) := none

def chainFlag : Network → String
  | .mainnet => "-chain=main"
  | .testnet => "-testnet"
  | .regtest => "-regtest"

def commandLine (cfg : Config) (command : String) : String :=
  " ".intercalate ([cfg.binary, chainFlag cfg.network] ++ cfg.extraArgs ++ [command, "2>&1"])

def scanCommand (a : Address) : String :=
  "scantxoutset start '[\"addr(" ++ a.text ++ ")\"]'"

def statsCommand (height : String) : String :=
  "getblockstats " ++ height ++ " '[\"feerate_percentiles\"]'"

def sendCommand (transaction : Bytes) : String := "sendrawtransaction " ++ Hex.encode transaction

def trimLineEnds (s : String) : String :=
  String.ofList (s.toList.reverse.dropWhile fun c => c = '\n' || c = '\r').reverse

/-! Replies -/

open Json in
def readUnspent : Reader Utxo := fun j => do
  let txid ← field "txid" bytes j
  let vout ← field "vout" uint32 j
  let amount ← field "amount" (fun v => orShape v.decimal?) j
  let height ← field "height" uint32 j
  return ⟨⟨txid, vout⟩, Amount.satoshis amount, height⟩

open Json in
def readScan : Reader (Option Snapshot) := fun j =>
  match j with
  | .object _ => do
    let success ← field? "success" boolean j
    if success = some true then
      let tip ← field "height" uint32 j
      let utxos ← field "unspents" (listOf readUnspent) j
      return some ⟨utxos, tip⟩
    else return none
  | _ => throw .shape

/-- The snapshot that a reply to a scan gives. -/
def parseScan (j : Json) : Except Error Snapshot :=
  match readScan j with
  | .ok (some s) => .ok s
  | .ok none => .error (.node .scanIncomplete)
  | .error (.hex fault) => .error (.node (.scanTxid fault))
  | .error _ => .error (.node .scanShape)

/-- The percentiles that a node reports. -/
def reported : List Nat := [10, 25, 50, 75, 90]

/-- The fee for a byte at a percentile: that of the first reported percentile not below it, or the
last one, in thousandths. -/
def feeAt (values : List UInt64) (percentile : Nat) : UInt64 :=
  match (reported.zip values).find? fun (p, _) => percentile ≤ p with
  | some (_, v) => v * 1000
  | none => values.getLastD 0 * 1000

/-- Why percentiles could not be expanded: there are not five, or one is no number. -/
inductive PercentileFault where
  | count
  | shape
deriving DecidableEq, Repr

def expandPercentiles (j : Json) : Except PercentileFault (List UInt64) :=
  match j.items? with
  | none => .error .count
  | some items =>
    if items.length ≠ reported.length then .error .count
    else match items.mapM Json.uint64 with
      | .ok values => .ok ((List.range 100).map (feeAt values))
      | .error _ => .error .shape

def PercentileFault.error : PercentileFault → Error
  | .count => .node .percentileCount
  | .shape => .node .statsShape

/-! Commands -/

section Commands

variable {ω : Type} (cfg : Config) (shell : Shell ω)

def execute (command : String) : Action ω String := do
  let line := commandLine cfg command
  Action.log .trace ("Running " ++ line)
  let some reply ← modifyGet (shell line) | Action.fail (.node (.notStarted cfg.binary))
  let arrived := LineBuffer.arriving reply.output
  if reply.status ≠ 0 then Action.fail (.node (.exit reply.status arrived))
  let output := trimLineEnds arrived
  if output.isEmpty then Action.fail (.node .silent)
  return output

def executeJson (command : String) : Action ω Json := do
  match Json.parse (← execute cfg shell command) with
  | some j => return j
  | none => Action.fail (.node .badJson)

def checkNetwork (n : Network) : Action ω Unit :=
  if n = cfg.network then pure () else Action.fail (.node (.otherNetwork cfg.network n))

def snapshot (n : Network) (a : Address) (depth : UInt32) : Action ω Snapshot := do
  checkNetwork cfg n
  let s ← parseScan (← executeJson cfg shell (scanCommand a))
  let utxos := s.utxos.filter (·.hasDepth s.tip depth)
  Action.log .debug
    ("scantxoutset returned " ++ toString utxos.length ++ " UTXOs for " ++ a.text)
  return ⟨utxos, s.tip⟩

def fees (n : Network) : Action ω (List UInt64) := do
  checkNetwork cfg n
  let height ← execute cfg shell "getblockcount"
  let stats ← executeJson cfg shell (statsCommand height)
  match stats.member? "feerate_percentiles" with
  | none => Action.fail (.node .statsShape)
  | some percentiles =>
    match expandPercentiles percentiles with
    | .ok fees => return fees
    | .error fault => Action.fail fault.error

def rootKey : Action ω ExtendedKey :=
  if cfg.key.publicKey.isEmpty then Action.fail (.node .keyMissing) else pure cfg.key

def sign (path : Path) (hash : Bytes) : Action ω Bytes :=
  match cfg.signer with
  | some signer => pure (signer path hash)
  | none => Action.fail (.node .signerMissing)

def send (transaction : Bytes) (n : Network) : Action ω Unit := do
  checkNetwork cfg n
  let txid ← execute cfg shell (sendCommand transaction)
  Action.log .info ("Broadcast transaction " ++ txid)

def oracle : Oracle ω where
  rootKey := rootKey cfg
  snapshot := snapshot cfg shell
  fees := fees cfg shell
  sign := sign cfg
  send := send cfg shell

end Commands

end Node

end WatchWallet
