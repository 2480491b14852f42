/-!
Log levels, entries, and the logger.

A logger lets an entry through when its level reaches the threshold, and hands it to its sink.
Without a sink an entry becomes a line of text on the error output.
-/

namespace WatchWallet.Log

structure Level where
  rank : Int
deriving DecidableEq, Repr

namespace Level

def trace : Level := ⟨0⟩
def debug : Level := ⟨1⟩
def info : Level := ⟨2⟩
def warn : Level := ⟨3⟩
def error : Level := ⟨4⟩
def off : Level := ⟨5⟩

def name (l : Level) : String :=
  match l.rank with
  | 0 => "TRACE"
  | 1 => "DEBUG"
  | 2 => "INFO"
  | 3 => "WARN"
  | 4 => "ERROR"
  | 5 => "OFF"
  | _ => "UNKNOWN"

/-- Whether a threshold lets a level through; nothing is ever logged at `off`. -/
def reaches (l threshold : Level) : Bool := l ≠ off && threshold.rank ≤ l.rank

end Level

structure Entry where
  level : Level
  message : String
deriving DecidableEq, Repr

def Entry.line (e : Entry) : String := "[custody] " ++ e.level.name ++ " " ++ e.message ++ "\n"

/-- A logger whose sinks are of type `σ`. -/
structure Logger (σ : Type) where
  threshold : Level := .warn
  sink : Option σ := none

def Logger.reaches {σ : Type} (l : Logger σ) (level : Level) : Bool := level.reaches l.threshold

/-- Where entries go in a program with a state of type `ω`. A sink may do anything with an entry,
and change the logger too. -/
structure Outlet (ω σ : Type) where
  logger : ω → Logger σ
  /-- What a sink does when it is called. -/
  call : σ → Entry → ω → ω
  /-- What a line on the error output does. -/
  print : String → ω → ω

namespace Outlet

variable {ω σ : Type} (o : Outlet ω σ)

/-- Hands an entry to the sink, whatever the threshold is. -/
def write (e : Entry) (s : ω) : ω :=
  match (o.logger s).sink with
  | some sink => o.call sink e s
  | none => o.print e.line s

def log (e : Entry) (s : ω) : ω := if (o.logger s).reaches e.level then o.write e s else s

/-- One entry after another; each meets the logger that the one before has left. -/
def logAll (es : List Entry) (s : ω) : ω := es.foldl (fun s e => o.log e s) s

end Outlet

end WatchWallet.Log
