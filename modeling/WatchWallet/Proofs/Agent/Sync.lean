import WatchWallet.Proofs.Agent.Tracked

/-!
Synchronising an address either fails and leaves the agent alone, or installs the view that the
oracle's answer gives, as reconciling with that answer does.
-/

namespace WatchWallet.Agent

open WatchWallet.Action

lemma query_eq (a : Agent) (x : Address) (depth : UInt32) :
    a.query x depth = (a.layersOf x).map fun l => ⟨a.network, x, depth, l⟩ := by
  rw [query]
  cases a.layersOf x <;> rfl

section Sync

variable {ω : Type} (oracle : Oracle ω) {a : Agent} {x : Address} (o : ω)

lemma run_sync_of_none (h : a.tracker.layers[x]? = none) :
    run (sync oracle x) (a, o) = ⟨.error (.notTracked x.text), (a, o), []⟩ := by
  simp [sync, run_bind, layersOf, Tracker.layersOf_of_none h]

variable {l : Layers} (hl : a.tracker.layers[x]? = some l)
include hl

lemma run_sync_of_depth (hdepth : maxDepth < l.depth) :
    run (sync oracle x) (a, o) = ⟨.error (.depthTooHigh l.depth), (a, o), []⟩ := by
  simp [sync, run_bind, layersOf, Tracker.layersOf_of_some hl, query_eq, Except.map,
    UtxoQuery.fetch, checkDepth, hdepth, onSecond]

variable (hdepth : l.depth ≤ maxDepth)
include hdepth

/-- A refusal of the oracle is passed on, with what it did to the oracle. -/
lemma run_sync_of_refusal {e : Error}
    (h : (run (oracle.snapshot a.network x l.depth) o).result = .error e) :
    (run (sync oracle x) (a, o)).result = .error e ∧ (run (sync oracle x) (a, o)).state.1 = a := by
  have hnot : ¬maxDepth < l.depth := UInt32.not_lt.mpr hdepth
  rcases hraw : run (oracle.snapshot a.network x l.depth) o with ⟨r, o', es⟩
  rw [hraw] at h
  obtain rfl : r = .error e := h
  simp [sync, run_bind, layersOf, Tracker.layersOf_of_some hl, query_eq, Except.map,
    UtxoQuery.fetch, checkDepth, hnot, hraw, onSecond]

/-- An answer of the oracle is installed as if it were given at once. -/
lemma run_sync_of_answer {raw : Snapshot}
    (h : (run (oracle.snapshot a.network x l.depth) o).result = .ok raw) :
    (run (sync oracle x) (a, o)).result = (run (reconcile x raw) a).result ∧
      (run (sync oracle x) (a, o)).state.1 = (run (reconcile x raw) a).state := by
  have hnot : ¬maxDepth < l.depth := UInt32.not_lt.mpr hdepth
  rcases hraw : run (oracle.snapshot a.network x l.depth) o with ⟨r, o', es⟩
  rw [hraw] at h
  obtain rfl : r = .ok raw := h
  have hinstall : run (sync oracle x) (a, o) =
      ⟨(run (Tracker.install x (l.view raw.utxos)) a.tracker).result,
        ({ a with tracker := (run (Tracker.install x (l.view raw.utxos)) a.tracker).state }, o'),
        es ++ (run (Tracker.install x (l.view raw.utxos)) a.tracker).log⟩ := by
    simp [sync, run_bind, layersOf, Tracker.layersOf_of_some hl, query_eq, Except.map,
      UtxoQuery.fetch, checkDepth, hnot, hraw, onSecond, onFirst, install, onTracker]
  rw [hinstall, result_reconcile, state_reconcile, Tracker.result_install, Tracker.state_install,
    Tracker.modify_install_of_some hl]
  exact ⟨rfl, rfl⟩

/-- What is reported of a tracked address is always installed. -/
lemma sync_eq_error_iff {e : Error} : (run (sync oracle x) (a, o)).result = .error e ↔
    (run (oracle.snapshot a.network x l.depth) o).result = .error e := by
  cases hraw : (run (oracle.snapshot a.network x l.depth) o).result with
  | error e' => simp [(run_sync_of_refusal oracle o hl hdepth hraw).1]
  | ok raw =>
    have hinstalled := getElem?_modify_of_some hl (Layers.reconcile raw.utxos)
    rw [(run_sync_of_answer oracle o hl hdepth hraw).1, result_reconcile, pending,
      Tracker.pending_of_some hinstalled]
    simp

end Sync

/-- All or nothing. -/
theorem sync_cases {ω : Type} (oracle : Oracle ω) (a : Agent) (x : Address) (o : ω) :
    (∃ e, (run (sync oracle x) (a, o)).result = .error e ∧
      (run (sync oracle x) (a, o)).state.1 = a) ∨
    ∃ raw, (run (sync oracle x) (a, o)).result = (run (reconcile x raw) a).result ∧
      (run (sync oracle x) (a, o)).state.1 = (run (reconcile x raw) a).state := by
  cases hl : a.tracker.layers[x]? with
  | none => exact Or.inl ⟨_, by rw [run_sync_of_none oracle o hl], by rw [run_sync_of_none oracle o hl]⟩
  | some l =>
    rcases Nat.lt_or_ge maxDepth.toNat l.depth.toNat with hdepth | hdepth
    · have hrun := run_sync_of_depth oracle o hl hdepth
      exact Or.inl ⟨_, by rw [hrun], by rw [hrun]⟩
    · cases hraw : (run (oracle.snapshot a.network x l.depth) o).result with
      | error e => exact Or.inl ⟨e, run_sync_of_refusal oracle o hl hdepth hraw⟩
      | ok raw => exact Or.inr ⟨raw, run_sync_of_answer oracle o hl hdepth hraw⟩

end WatchWallet.Agent
