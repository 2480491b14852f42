import WatchWallet.Agent.Record
import WatchWallet.Json.Parser
import WatchWallet.Json.Printer
/-!
Records of agents in files.

A file is written anew each time. What was in it before is gone as soon as it is open, also where
the record then cannot be written.
-/

namespace WatchWallet

/-- The files that can be reached, by path. -/
structure Files where
  /-- Whether a file can be opened to be written. -/
  writable : String → Bool
  /-- What an open file takes of a text. Writing fails where that is not the whole of it. -/
  takes : (path text : String) → String
  contents : Std.ExtTreeMap String String

namespace StateFile

/-- The text of a record. -/
def text (r : AgentRecord) : String := r.toJson.render (some 4)

def save (path : String) (r : AgentRecord) : Action Files Unit := do
  let files ← get
  if files.writable path then
    let taken := files.takes path (text r)
    set { files with contents := files.contents.insert path taken }
    if taken ≠ text r then Action.fail (.stateFile .unwritten path)
  else Action.fail (.stateFile .unwritable path)

/-- The record that a text writes. -/
def read (text : String) : Except ReadFault AgentRecord := do
  AgentRecord.ofJson (← Json.orShape (Json.parse text))

def load (path : String) : Action Files AgentRecord := do
  let files ← get
  match files.contents[path]? with
  | none => Action.fail (.stateFile .unreadable path)
  | some text =>
    match read text with
    | .ok r => return r
    | .error fault => Action.fail (.stateFile (.read fault) path)

end StateFile

namespace Agent

def save (a : Agent) (path : String) : Action Files Unit := StateFile.save path a.snapshot

def load (c : Crypto.Suite) (path : String) : Action Files Agent := do
  restore c (← StateFile.load path)

end Agent

end WatchWallet
