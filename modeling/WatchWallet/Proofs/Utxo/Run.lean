import WatchWallet.Proofs.Utxo.Tracker

/-!
Runs of operations on tracked addresses.

What a call does to the layers of an address that it neither ends to track nor replaces is an
effect of the call. So what a run does to the layers of an address that stays tracked is a fold
over the calls that name it.
-/

namespace WatchWallet

open WatchWallet.Action

namespace Tracker

/-- A call of an operation on tracked addresses, with its arguments. -/
inductive Call
  | track (address : Address) (depth : UInt32)
  | restore (address : Address) (l : Layers)
  | untrack (address : Address)
  | pending (address : Address)
  | commit (address : Address)
  | takeUpdate (address : Address)
  | install (address : Address) (us : List Utxo)
  | reconcile (address : Address) (raw : Snapshot)
  | addSpent (address : Address) (o : OutPoint)
  | addGenerated (address : Address) (u : Utxo)

/-- The tracker that a call leaves, whether it fails or not. -/
def after (t : Tracker) : Call → Tracker
  | .track address depth => (run (track address depth) t).state
  | .restore address l => (run (restore address l) t).state
  | .untrack address => (run (untrack address) t).state
  | .pending _ => t
  | .commit address => (run (commit address) t).state
  | .takeUpdate address => (run (takeUpdate address) t).state
  | .install address us => (run (install address us) t).state
  | .reconcile address raw => (run (reconcile address raw) t).state
  | .addSpent address o => (run (addSpent address o) t).state
  | .addGenerated address u => (run (addGenerated address u) t).state

namespace Call

/-- The call neither ends to track the address nor puts other layers in place. -/
def Spares (x : Address) : Call → Prop
  | .untrack y | .restore y _ => y ≠ x
  | _ => True

/-- What a call does to the layers of an address that it spares. -/
def effect (x : Address) : Call → Layers → Layers
  | .commit y | .takeUpdate y => if y = x then Layers.commit else id
  | .install y us => if y = x then (·.install us) else id
  | .reconcile y raw => if y = x then Layers.reconcile raw.utxos else id
  | .addSpent y o => if y = x then (·.addSpent o) else id
  | .addGenerated y u => if y = x then (·.addGenerated u) else id
  | .track .. | .restore .. | .untrack _ | .pending _ => id

end Call

/-- **One call**: a spared address stays tracked, and its layers change by the effect. -/
theorem layers_after {t : Tracker} {x : Address} {l : Layers} (h : t.layers[x]? = some l)
    {call : Call} (hcall : call.Spares x) :
    (after t call).layers[x]? = some (call.effect x l) := by
  have hmodify : ∀ y f, (t.modify y f).layers[x]? = some ((if y = x then f else id) l) := by
    intro y f
    rw [getElem?_modify, h, Option.map_some]
  cases call with
  | track y depth =>
    have hx : ¬(y = x ∧ y ∉ t.layers) := by
      rintro ⟨rfl, hnot⟩
      rw [Std.ExtTreeMap.getElem?_eq_none hnot] at h
      cases h
    simpa [after, track, Call.effect, Std.ExtTreeMap.getElem?_insertIfNew, hx] using h
  | restore y l' =>
    have hy : y ≠ x := hcall
    simpa [after, restore, Call.effect, Std.ExtTreeMap.getElem?_insert, hy] using h
  | untrack y =>
    have hy : y ≠ x := hcall
    simpa [after, untrack, run_bind, Call.effect, Std.ExtTreeMap.getElem?_erase, hy] using h
  | pending y => exact h
  | commit y => exact (congrArg (·.layers[x]?) (state_change t y _)).trans (hmodify y _)
  | takeUpdate y => exact (congrArg (·.layers[x]?) (state_takeUpdate t y)).trans (hmodify y _)
  | install y us => exact (congrArg (·.layers[x]?) (state_install t y us)).trans (hmodify y _)
  | reconcile y raw => exact (congrArg (·.layers[x]?) (state_reconcile t y raw)).trans (hmodify y _)
  | addSpent y o => exact (congrArg (·.layers[x]?) (state_change t y _)).trans (hmodify y _)
  | addGenerated y u => exact (congrArg (·.layers[x]?) (state_change t y _)).trans (hmodify y _)

end Tracker

end WatchWallet
