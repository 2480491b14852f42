import WatchWallet.Agent.Query
import WatchWallet.Proofs.Utxo.Tracker

/-!
What an agent's operations on one tracked address answer and leave.

They are those of its tracker, and leave the rest of the agent alone.
-/

namespace WatchWallet.Agent

open WatchWallet.Action

/-- The agent with the layers of one address changed, if that is tracked. -/
def modify (a : Agent) (x : Address) (f : Layers → Layers) : Agent :=
  { a with tracker := a.tracker.modify x f }

@[simp] lemma modify_id (a : Agent) (x : Address) : a.modify x id = a := by
  rw [modify, Tracker.modify_id]

lemma modify_modify (a : Agent) (x : Address) (f g : Layers → Layers) :
    (a.modify x f).modify x g = a.modify x (g ∘ f) := by
  rw [modify, modify, Tracker.modify_modify, modify]

lemma modify_of_not_mem {a : Agent} {x : Address} (h : x ∉ a.tracker.layers)
    (f : Layers → Layers) : a.modify x f = a := by
  rw [modify, Tracker.modify_of_none (Std.ExtTreeMap.getElem?_eq_none h)]

lemma mem_modify {a : Agent} {x y : Address} {f : Layers → Layers} :
    y ∈ (a.modify x f).tracker.layers ↔ y ∈ a.tracker.layers := Tracker.mem_modify

lemma getElem?_modify_of_some {a : Agent} {x : Address} {l : Layers}
    (h : a.tracker.layers[x]? = some l) (f : Layers → Layers) :
    (a.modify x f).tracker.layers[x]? = some (f l) :=
  Tracker.getElem?_modify_self h f

lemma state_onTracker {α : Type} {op : Action Tracker α} {a : Agent} {x : Address}
    {f : Layers → Layers} (h : (run op a.tracker).state = a.tracker.modify x f) :
    (run (onTracker op) a).state = a.modify x f := by
  rw [onTracker, run_within, h]
  rfl

section Spec

variable (a : Agent) (x : Address)

lemma state_commit : (run (commit x) a).state = a.modify x Layers.commit :=
  state_onTracker (Tracker.state_change a.tracker x Layers.commit)

lemma state_takeUpdate : (run (takeUpdate x) a).state = a.modify x Layers.commit :=
  state_onTracker (Tracker.state_takeUpdate a.tracker x)

lemma state_takeBalance : (run (takeBalance x) a).state = a.modify x Layers.commit := by
  rw [takeBalance, bind_pure_comp, run_map, state_takeUpdate]

lemma result_takeBalance :
    (run (takeBalance x) a).result = (run (takeUpdate x) a).result.map Update.balance := by
  rw [takeBalance, bind_pure_comp, run_map]

lemma state_install (v : UtxoView) :
    (run (install v) a).state = a.modify v.address (·.install v.utxos) :=
  state_onTracker (Tracker.state_install a.tracker v.address v.utxos)

lemma result_install (v : UtxoView) : (run (install v) a).result =
    (a.modify v.address (·.install v.utxos)).pending v.address := by
  rw [install, onTracker, run_within, Tracker.result_install]
  rfl

lemma result_reconcile (raw : Snapshot) : (run (reconcile x raw) a).result =
    (a.modify x (Layers.reconcile raw.utxos)).pending x := by
  rw [reconcile, onTracker, run_within, Tracker.result_reconcile]
  rfl

lemma state_reconcile (raw : Snapshot) :
    (run (reconcile x raw) a).state = a.modify x (Layers.reconcile raw.utxos) :=
  state_onTracker (Tracker.state_reconcile a.tracker x raw)

end Spec

end WatchWallet.Agent
