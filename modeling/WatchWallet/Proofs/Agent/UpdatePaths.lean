import WatchWallet.Proofs.Agent.Isolation
import WatchWallet.Proofs.Agent.Query
import WatchWallet.Proofs.Agent.Restored

/-!
Three ways from a report to a view.

An agent can be given a report of the outputs of an address, it can ask an oracle for one, or a view
can be made away from it, from a query that took the layers of the address along. The report then
meets the layers at different moments. But a view depends only on the depth of the address and on
what is recorded as spent and as created; so the ways agree as long as no more is recorded in
between, whatever else becomes of the agent. A query at a depth that is not allowed is no way to a
view: the oracle is not asked then, though it might have answered.
-/

namespace WatchWallet

open WatchWallet.Action

/-- What is seen and unseen does not go into a view. -/
lemma Layers.SameOwn.view_eq {l l' : Layers} (h : l.SameOwn l') (raw : List Utxo) :
    l'.view raw = l.view raw := by
  have hspent : l'.spent = l.spent := by simpa using h.spent_eq
  have hgenerated : l'.generated = l.generated := by simpa using h.generated_eq
  rw [view, view, h.depth_eq, hspent, hgenerated]

namespace Agent

/-! ### Between a query and its view -/

/-- The operation keeps the address tracked and records no output for it. -/
def Operation.LeavesRecords (c : Crypto.Suite) (a : Agent) (x : Address) : Operation → Prop
  | .call cl => Spares c a x cl ∧ spentBy c a x cl = [] ∧ generatedBy c a x cl = []
  | .ask _ => True

/-- What can become of an agent while the records of an address are left alone: any operations that
do so, which may fail, and being rebuilt from the agent's own record. -/
inductive Meanwhile (c : Crypto.Suite) (x : Address) (a : Agent) : Agent → Prop
  | start : Meanwhile c x a a
  | operated {b : Agent} (h : Meanwhile c x a b) (op : Operation) (hop : op.LeavesRecords c b x) :
      Meanwhile c x a (operate c b op).state
  | reloaded {b b' : Agent} (h : Meanwhile c x a b)
      (hb : (run (restore c b.snapshot) ()).result = .ok b') : Meanwhile c x a b'

variable {c : Crypto.Suite} {a b : Agent} {x : Address} {l : Layers}

lemma state_operate_call (call : Call) : (operate c a (.call call)).state = after c a call :=
  state_outcome c a call

lemma Meanwhile.called (h : Meanwhile c x a b) (call : Call)
    (hcall : (Operation.call call).LeavesRecords c b x) : Meanwhile c x a (after c b call) := by
  rw [← state_operate_call]
  exact h.operated (.call call) hcall

lemma Reachable.operated (h : Reachable c a) (op : Operation) :
    Reachable c (operate c a op).state := by
  cases op with
  | call call =>
    rw [state_operate_call]
    exact .called h call
  | ask question => rwa [(operate_ask c a question).2]

/-- **One operation** that leaves the records of an address alone changes at most what is seen and
unseen of it. -/
theorem exists_sameOwn_operate (hl : a.tracker.layers[x]? = some l) {op : Operation}
    (hop : op.LeavesRecords c a x) :
    ∃ l', (operate c a op).state.tracker.layers[x]? = some l' ∧ l.SameOwn l' := by
  cases op with
  | call call =>
    obtain ⟨hspare, hspent, hgenerated⟩ := hop
    obtain ⟨l', hl', hrecorded⟩ := exists_recorded_after hl hspare
    rw [hspent, hgenerated] at hrecorded
    exact ⟨l', by rw [state_operate_call, hl'], hrecorded⟩
  | ask question => exact ⟨l, by rw [(operate_ask c a question).2, hl], l.sameOwn_refl⟩

/-- **All operations** in between. -/
theorem Meanwhile.sameOwn (h : Meanwhile c x a b) (ha : Reachable c a)
    (hl : a.tracker.layers[x]? = some l) :
    Reachable c b ∧ ∃ l', b.tracker.layers[x]? = some l' ∧ l.SameOwn l' := by
  induction h with
  | start => exact ⟨ha, l, hl, l.sameOwn_refl⟩
  | operated _ op hop ih =>
    obtain ⟨hb, l', hl', hsame⟩ := ih
    obtain ⟨l'', hl'', hsame'⟩ := exists_sameOwn_operate hl' hop
    exact ⟨hb.operated op, l'', hl'', hsame.trans hsame'⟩
  | reloaded _ hb' ih =>
    -- Being rebuilt changes nothing.
    rw [(ih.1.yields_restore ()).1] at hb'
    obtain rfl := Except.ok.inj hb'
    exact ih

/-! ### The ways -/

/-- To install the view that layers give is to reconcile with the report, if the layers that are
there now have the same records. -/
lemma modify_install (hl : b.tracker.layers[x]? = some l) {l₀ : Layers} (h : l₀.SameOwn l)
    (raw : List Utxo) :
    b.modify x (·.install (l₀.view raw)) = b.modify x (Layers.reconcile raw) := by
  rw [modify, modify, ← h.view_eq, Tracker.modify_install_of_some hl]

/-- **The late way**: whatever operations there were since, installing the view that the layers of
then give answers and leaves what reconciling now does. -/
theorem Meanwhile.installs (h : Meanwhile c x a b) (ha : Reachable c a)
    (hl : a.tracker.layers[x]? = some l) (raw : Snapshot) :
    let v : UtxoView := ⟨x, l.view raw.utxos, raw.tip⟩
    (∃ u, (run (reconcile x raw) b).result = .ok u ∧ (run (install v) b).result = .ok u) ∧
      (run (install v) b).state = (run (reconcile x raw) b).state ∧
      ∃ l', (run (install v) b).state.layersOf x = .ok l' ∧ l'.unseen = v.utxos := by
  intro v
  obtain ⟨-, l', hl', hsame⟩ := h.sameOwn ha hl
  have hmodify : b.modify x (·.install v.utxos) = b.modify x (Layers.reconcile raw.utxos) :=
    modify_install hl' hsame raw.utxos
  have hinstalled := getElem?_modify_of_some hl' (·.install v.utxos)
  have hpending : (b.modify x (·.install v.utxos)).pending x =
      .ok (l'.install v.utxos).pending := Tracker.pending_of_some hinstalled
  refine ⟨⟨(l'.install v.utxos).pending, ?_, ?_⟩, ?_, l'.install v.utxos, ?_, rfl⟩
  · rw [result_reconcile, ← hmodify, hpending]
  · rw [result_install, hpending]
  · rw [state_install, state_reconcile, hmodify]
  · rw [state_install, layersOf, Tracker.layersOf_of_some hinstalled]

/-- **The ways to a view agree**: for an address of an agent, whatever its history, and any report
of an oracle at the depth of the address, if that is allowed, synchronising answers and leaves what
reconciling with the report does. So does installing the view that the report gives a query from
before, whatever operations there were since that recorded no output for the address: it answers
and leaves what reconciling after them does. And what the query counts is the balance of what is
unseen then. -/
theorem update_paths_agree (h : Reachable c a) (hl : a.layersOf x = .ok l)
    (hdepth : l.depth ≤ maxDepth) (raw : Snapshot) :
    ∃ q v, a.query x l.depth = .ok q ∧
      (∀ (ω : Type) (oracle : Oracle ω) (o : ω),
        (run (oracle.snapshot a.network x l.depth) o).result = .ok raw →
          (run (sync oracle x) (a, o)).result = (run (reconcile x raw) a).result ∧
          (run (sync oracle x) (a, o)).state.1 = (run (reconcile x raw) a).state ∧
          (run (q.fetch oracle) o).result = .ok v ∧
          (run (q.balance oracle) o).result = .ok (Utxo.balance v.utxos)) ∧
      ∀ b, Meanwhile c x a b →
        (∃ u, (run (reconcile x raw) b).result = .ok u ∧ (run (install v) b).result = .ok u) ∧
        (run (install v) b).state = (run (reconcile x raw) b).state ∧
        ∃ l', (run (install v) b).state.layersOf x = .ok l' ∧ l'.unseen = v.utxos := by
  have hget := Tracker.layersOf_eq_ok_iff.mp hl
  let q : UtxoQuery := ⟨a.network, x, l.depth, l⟩
  have hquery : a.query x l.depth = .ok q := by
    rw [query_eq, hl]
    rfl
  refine ⟨q, ⟨x, l.view raw.utxos, raw.tip⟩, hquery, fun ω oracle o hraw => ?_,
    fun b hb => hb.installs h hget raw⟩
  obtain ⟨hresult, hstate⟩ := run_sync_of_answer oracle o hget hdepth hraw
  have hfetch : (run (q.fetch oracle) o).result = .ok ⟨x, l.view raw.utxos, raw.tip⟩ := by
    rw [UtxoQuery.result_fetch oracle q o hdepth, hraw]
    rfl
  refine ⟨hresult, hstate, hfetch, ?_⟩
  rw [UtxoQuery.result_balance, hfetch]
  rfl

section Runs

/-- A view of the main address is asked for. Before it is installed another address is added, an
older report is installed and acknowledged, and the agent is rebuilt. -/
theorem update_paths_agree_of_interleaved :
    let k : ExtendedKey := ⟨Bytes.zeros 33, [], []⟩
    let start : Agent := ⟨.empty .regtest .p2wpkh, .empty, 3⟩
    let main := Address.ofKey .standard .regtest .p2wpkh k.publicKey
    let a := after .standard start (.adopt k)
    let raw : Snapshot := ⟨[⟨⟨[1], 0⟩, 5, 7⟩], 9⟩
    let b := after .standard (after .standard (after .standard a (.addWith [] .p2pkh 0))
      (.reconcile main ⟨[], 8⟩)) (.commit main)
    let o : Fixed := ⟨none, .empty, raw, []⟩
    Reachable .standard a ∧ a.layersOf main = .ok (.fresh 3) ∧ (Layers.fresh 3).depth ≤ maxDepth ∧
      (run (Fixed.oracle.snapshot a.network main 3) o).result = .ok raw ∧
      Meanwhile .standard main a b ∧
      ∃ q v, a.query main 3 = .ok q ∧ (run (q.fetch Fixed.oracle) o).result = .ok v ∧
        (run (sync Fixed.oracle main) (a, o)).state.1 = (run (reconcile main raw) a).state ∧
        (∃ u, (run (reconcile main raw) b).result = .ok u ∧ (run (install v) b).result = .ok u) ∧
        (run (install v) b).state = (run (reconcile main raw) b).state := by
  intro k start main a raw b o
  have hreach : Reachable .standard a := .called (.created (create_of_le (by decide))) (.adopt k)
  have htracked : a.layersOf main = .ok (.fresh 3) :=
    Tracker.layersOf_of_some (begins_adopt .standard (rfl : k.publicKey.length = 33) start).2
  have hdepth : (Layers.fresh 3).depth ≤ maxDepth := by decide
  have hraw := UtxoQuery.snapshot_fixed a.network main 3 raw
  -- the address stays a name from here on: no step is to compute its digests
  clear_value a main
  have hmeanwhile : Meanwhile .standard main a b := by
    have hstart : Meanwhile .standard main a a := .start
    have hadded := hstart.called (.addWith [] .p2pkh 0) ⟨trivial, rfl, rfl⟩
    have hreconciled := hadded.called (.reconcile main ⟨[], 8⟩) ⟨trivial, rfl, rfl⟩
    have hcommitted := hreconciled.called (.commit main) ⟨trivial, rfl, rfl⟩
    exact hcommitted.reloaded ((((hreach.called _).called _).called _).yields_restore ()).1
  obtain ⟨q, v, hquery, hanswered, hinstalled⟩ := update_paths_agree hreach htracked hdepth raw
  obtain ⟨-, hsync, hfetch, -⟩ := hanswered Fixed Fixed.oracle o hraw
  obtain ⟨hresult, hstate, -⟩ := hinstalled b hmeanwhile
  exact ⟨hreach, htracked, hdepth, hraw, hmeanwhile, q, v, hquery, hfetch, hsync, hresult, hstate⟩

/-- An agent is rebuilt from a record in which its main address has a depth that is not allowed. An
oracle answers at this depth, and the agent can be given the report; but it does not ask for it. -/
theorem update_paths_differ_too_deep :
    let k : ExtendedKey := ⟨2 :: Bytes.ofNatFixed 32
      0x79be667ef9dcbbac55a06295ce870b07029bfcdb2dce28d959f2815b16f81798, [], []⟩
    let main := Address.ofKey .standard .regtest .p2wpkh k.publicKey
    let old : Utxo := ⟨⟨List.replicate 32 1, 0⟩, 5, 3⟩
    let raw : Snapshot := ⟨[old], 9⟩
    let o : Fixed := ⟨none, .empty, raw, []⟩
    ∃ a, (run (restore .standard (recordOf .regtest k main main (.fresh 7))) ()).result = .ok a ∧
      Reachable .standard a ∧ a.layersOf main = .ok (.fresh 7) ∧
      (run (Fixed.oracle.snapshot a.network main 7) o).result = .ok raw ∧
      (run (reconcile main raw) a).result = .ok ⟨[old], []⟩ ∧
      (run (sync Fixed.oracle main) (a, o)).result = .error (.depthTooHigh 7) ∧
      (run (sync Fixed.oracle main) (a, o)).state.1 ≠ (run (reconcile main raw) a).state := by
  intro k main old raw o
  have hmain : Address.Belongs Crypto.Suite.standard.digests .regtest main :=
    Address.belongs_ofKey .p2wpkh k.publicKey
  have hlen : k.publicKey.length = 33 := by simp [k]
  clear_value main
  set r := recordOf .regtest k main main (.fresh 7)
  have hrestored : (run (restore .standard r) ()).result = .ok (r.agent .standard) :=
    result_restore_eq_ok_iff.mpr ⟨accepted_recordOf hlen hmain hmain, rfl⟩
  have hlayers : (r.agent .standard).tracker.layers[main]? = some (.fresh 7) := by
    rw [r.getElem?_layers_agent]
    exact (lookup_layers_recordOf hmain main).trans (if_pos rfl)
  have hhigh : maxDepth < (Layers.fresh 7).depth := by decide
  have hsync := run_sync_of_depth Fixed.oracle o hlayers hhigh
  have hinstalled := getElem?_modify_of_some hlayers (Layers.reconcile raw.utxos)
  refine ⟨r.agent .standard, hrestored, .restored hrestored, Tracker.layersOf_of_some hlayers,
    UtxoQuery.snapshot_fixed _ main 7 raw, ?_, congrArg Outcome.result hsync, fun hstate => ?_⟩
  · rw [result_reconcile, pending, Tracker.pending_of_some hinstalled]
    rfl
  · rw [hsync, state_reconcile] at hstate
    rw [← hstate, hlayers] at hinstalled
    cases hinstalled

end Runs

end Agent

end WatchWallet
