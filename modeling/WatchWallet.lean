import WatchWallet.Agent.Query
import WatchWallet.Agent.StateFile
import WatchWallet.Agent.Transfer
import WatchWallet.Crypto.Standard
import WatchWallet.Lock
import WatchWallet.Oracle.Fixed
import WatchWallet.Oracle.Node
import WatchWallet.Oracle.Simulated
import WatchWallet.Proofs.Action
import WatchWallet.Proofs.Address.Alphanumeric
import WatchWallet.Proofs.Address.Beginning
import WatchWallet.Proofs.Address.Canonical
import WatchWallet.Proofs.Address.Identity
import WatchWallet.Proofs.Address.RoundTrip
import WatchWallet.Proofs.Agent.Adding
import WatchWallet.Proofs.Agent.Balances
import WatchWallet.Proofs.Agent.Cells
import WatchWallet.Proofs.Agent.Failure
import WatchWallet.Proofs.Agent.Interleaving
import WatchWallet.Proofs.Agent.Isolation
import WatchWallet.Proofs.Agent.Managed
import WatchWallet.Proofs.Agent.OwnOutputs
import WatchWallet.Proofs.Agent.Replay
import WatchWallet.Proofs.Agent.Restore
import WatchWallet.Proofs.Agent.Restored
import WatchWallet.Proofs.Agent.Signatures
import WatchWallet.Proofs.Agent.Spared
import WatchWallet.Proofs.Agent.StateFile
import WatchWallet.Proofs.Agent.Step
import WatchWallet.Proofs.Agent.Sync
import WatchWallet.Proofs.Agent.Tracked
import WatchWallet.Proofs.Agent.Transfer
import WatchWallet.Proofs.Agent.UpdatePaths
import WatchWallet.Proofs.Bytes
import WatchWallet.Proofs.Crypto.CurveGroup
import WatchWallet.Proofs.Crypto.Der
import WatchWallet.Proofs.Crypto.Ecdsa
import WatchWallet.Proofs.Crypto.Lawful
import WatchWallet.Proofs.Crypto.Modular
import WatchWallet.Proofs.Crypto.Primality
import WatchWallet.Proofs.Entries
import WatchWallet.Proofs.Fee
import WatchWallet.Proofs.Hex
import WatchWallet.Proofs.Json.Codec
import WatchWallet.Proofs.Json.Reader
import WatchWallet.Proofs.Json.Text
import WatchWallet.Proofs.Key
import WatchWallet.Proofs.Key.Composition
import WatchWallet.Proofs.Lock
import WatchWallet.Proofs.Oracle.History
import WatchWallet.Proofs.Oracle.Node
import WatchWallet.Proofs.Oracle.Percentiles
import WatchWallet.Proofs.Oracle.Scan
import WatchWallet.Proofs.Oracle.Simulated
import WatchWallet.Proofs.Radix
import WatchWallet.Proofs.Signing
import WatchWallet.Proofs.Text.Alphabet
import WatchWallet.Proofs.Text.Base58
import WatchWallet.Proofs.Text.Bech32
import WatchWallet.Proofs.Text.Conversion
import WatchWallet.Proofs.Text.Distance
import WatchWallet.Proofs.Text.ErrorDetection
import WatchWallet.Proofs.Text.Regrouping
import WatchWallet.Proofs.Text.Segwit
import WatchWallet.Proofs.Utxo.Reports
import WatchWallet.Proofs.Utxo.Run
import WatchWallet.Proofs.Utxo.Selection
import WatchWallet.Proofs.Utxo.Sharing
import WatchWallet.Proofs.Utxo.Tracker
import WatchWallet.Proofs.Utxo.View
