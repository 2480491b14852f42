import WatchWallet.Error
import WatchWallet.Log
/-!
Operations on a state.

An operation ends with a value or an error. In either case it leaves a state and the entries that
it logged: an error undoes nothing, so what a failed operation has changed can be seen.
-/

namespace WatchWallet

structure Outcome (σ α : Type) where
  result : Except Error α
  state : σ
  log : List Log.Entry

/-- An operation on a state of type `σ` that answers with an `α`. -/
def Action (σ α : Type) : Type := σ → Outcome σ α

namespace Action

variable {σ τ α β : Type}

def run (x : Action σ α) (s : σ) : Outcome σ α := x s

instance : Monad (Action σ) where
  pure a := fun s => ⟨.ok a, s, []⟩
  bind x f := fun s =>
    match x s with
    | ⟨.ok a, s', es⟩ =>
      let o := f a s'
      { o with log := es ++ o.log }
    | ⟨.error e, s', es⟩ => ⟨.error e, s', es⟩

instance : MonadStateOf σ (Action σ) where
  get := fun s => ⟨.ok s, s, []⟩
  set s := fun _ => ⟨.ok (), s, []⟩
  modifyGet f := fun s => ⟨.ok (f s).1, (f s).2, []⟩

def fail (e : Error) : Action σ α := fun s => ⟨.error e, s, []⟩

def ofExcept : Except Error α → Action σ α
  | .ok a => pure a
  | .error e => fail e

instance : MonadLift (Except Error) (Action σ) := ⟨ofExcept⟩

def log (level : Log.Level) (message : String) : Action σ Unit :=
  fun s => ⟨.ok (), s, [⟨level, message⟩]⟩

/-- An operation on a part of the state. -/
def within (part : σ → τ) (replace : σ → τ → σ) (x : Action τ α) : Action σ α := fun s =>
  let o := x (part s)
  ⟨o.result, replace s o.state, o.log⟩

def onFirst (x : Action σ α) : Action (σ × τ) α := within Prod.fst (fun p s => (s, p.2)) x

def onSecond (x : Action τ α) : Action (σ × τ) α := within Prod.snd (fun p t => (p.1, t)) x

/-- The state that an operation leaves when it starts from `t`. The state at hand is not touched. -/
def building (t : τ) (x : Action τ Unit) : Action σ τ := fun s =>
  let o := x t
  ⟨o.result.map fun _ => o.state, s, o.log⟩

@[simp] theorem run_pure (a : α) (s : σ) : run (pure a) s = ⟨.ok a, s, []⟩ := rfl

@[simp] theorem run_fail (e : Error) (s : σ) :
    run (fail e : Action σ α) s = ⟨.error e, s, []⟩ := rfl

@[simp] theorem run_get (s : σ) : run (get : Action σ σ) s = ⟨.ok s, s, []⟩ := rfl

@[simp] theorem run_set (s t : σ) : run (set t : Action σ Unit) s = ⟨.ok (), t, []⟩ := rfl

@[simp] theorem run_modify (f : σ → σ) (s : σ) :
    run (modify f : Action σ Unit) s = ⟨.ok (), f s, []⟩ := rfl

@[simp] theorem run_log (level : Log.Level) (message : String) (s : σ) :
    run (log level message) s = ⟨.ok (), s, [⟨level, message⟩]⟩ := rfl

theorem run_bind (x : Action σ α) (f : α → Action σ β) (s : σ) :
    run (x >>= f) s =
      match run x s with
      | ⟨.ok a, s', es⟩ => { run (f a) s' with log := es ++ (run (f a) s').log }
      | ⟨.error e, s', es⟩ => ⟨.error e, s', es⟩ := rfl

@[simp] theorem run_within (part : σ → τ) (replace : σ → τ → σ) (x : Action τ α) (s : σ) :
    run (within part replace x) s =
      ⟨(run x (part s)).result, replace s (run x (part s)).state, (run x (part s)).log⟩ := rfl

@[simp] theorem run_building (t : τ) (x : Action τ Unit) (s : σ) :
    run (building t x) s = ⟨(run x t).result.map fun _ => (run x t).state, s, (run x t).log⟩ := rfl

@[simp] theorem ofExcept_ok (a : α) : (ofExcept (.ok a) : Action σ α) = pure a := rfl

@[simp] theorem ofExcept_error (e : Error) : (ofExcept (.error e) : Action σ α) = fail e := rfl

end Action

end WatchWallet
