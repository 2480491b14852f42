import WatchWallet.Agent.Record
import WatchWallet.Crypto.Standard
import WatchWallet.Proofs.Agent.Step

/-!
An operation that fails leaves the agent as it was.

Most refuse before they change anything. Taking a root key and adding an address change two maps,
but nothing can fail between these changes; a transfer resolves all its addresses first; and
synchronising has its answer before it installs anything.
-/

namespace WatchWallet

open WatchWallet.Action

/-- What answers for tracked addresses only, and changes nothing but the layers of its own. -/
lemma Tracker.atomic_of_guarded {α : Type} {op : Action Tracker α} {x : Address}
    {f : Layers → Layers} (hresult : ∀ t, Guarded (x ∈ t.layers) x (run op t).result)
    (hstate : ∀ t, (run op t).state = t.modify x f) : Atomic op := by
  intro t e he
  have hx : x ∉ t.layers := by
    intro hx
    obtain ⟨v, hv⟩ := (hresult t).answers hx
    rw [hv] at he
    cases he
  rw [hstate, Tracker.modify_of_none (Std.ExtTreeMap.getElem?_eq_none hx)]

namespace Agent

lemma atomic_onTracker {α : Type} {op : Action Tracker α} (h : Atomic op) :
    Atomic (onTracker op) :=
  atomic_within (fun _ => rfl) h

lemma atomic_commit (x : Address) : Atomic (commit x) :=
  atomic_onTracker (Tracker.atomic_of_guarded (fun _ => Tracker.guarded_change _)
    fun t => Tracker.state_change t x _)

lemma atomic_takeUpdate (x : Address) : Atomic (takeUpdate x) :=
  atomic_onTracker (Tracker.atomic_of_guarded (fun _ => Tracker.guarded_takeUpdate)
    fun t => Tracker.state_takeUpdate t x)

lemma atomic_install (v : UtxoView) : Atomic (install v) :=
  atomic_onTracker (Tracker.atomic_of_guarded (fun _ => Tracker.guarded_install v.utxos)
    fun t => Tracker.state_install t v.address v.utxos)

lemma atomic_reconcile (x : Address) (raw : Snapshot) : Atomic (reconcile x raw) :=
  atomic_onTracker (Tracker.atomic_of_guarded (fun _ => Tracker.guarded_reconcile raw)
    fun t => Tracker.state_reconcile t x raw)

lemma atomic_applyTransfer (d : Crypto.Digests) (t : Transfer) : Atomic (applyTransfer d t) := by
  intro a e he
  rcases applyTransfer_cases d t a with ⟨e', hrun⟩ | ⟨spent, generated, -, -, hyields⟩
  · rw [hrun]
  · exact absurd he (hyields.ne_error e)

section Keys

variable (c : Crypto.Suite)

lemma atomic_adopt (k : ExtendedKey) : Atomic (adopt c k) := by
  intro a e he
  by_cases hk : k.publicKey.length = 33
  · exact absurd he ((yields_adopt c hk a).ne_error e)
  · rw [run_adopt_of_ne c hk]

lemma atomic_addWith (path : Path) (t : ScriptType) (depth : UInt32) :
    Atomic (addWith c path t depth) := by
  intro a e he
  rcases addWith_cases c path t depth a with
    ⟨e', hrun⟩ | ⟨root, k, x, -, -, -, -, -, ⟨-, hyields⟩ | ⟨-, hyields⟩⟩
  · rw [hrun]
  · exact absurd he (hyields.ne_error e)
  · exact absurd he (hyields.ne_error e)

lemma atomic_add (path : Path) : Atomic (add c path) :=
  fun a => atomic_addWith c path a.registry.mainType a.depth a

end Keys

lemma atomic_remove (x : Address) : Atomic (remove x) := by
  intro a e he
  rcases remove_cases x a with hyields | ⟨-, -, hyields⟩
  · exact absurd he (hyields.ne_error e)
  · exact absurd he (hyields.ne_error e)

lemma atomic_sync {ω : Type} (oracle : Oracle ω) (x : Address) {a : Agent} {o : ω} {e : Error}
    (he : (run (sync oracle x) (a, o)).result = .error e) :
    (run (sync oracle x) (a, o)).state.1 = a := by
  rcases sync_cases oracle a x o with ⟨e', -, hstate⟩ | ⟨raw, hresult, hstate⟩
  · exact hstate
  · rw [hstate]
    exact atomic_reconcile x raw a e (hresult.symm.trans he)

/-! ### Every operation -/

/-- A question to an agent, with its arguments. -/
inductive Question
  | addresses
  | mainAddress
  | scriptAddress (hash : Bytes)
  | keyOf (address : Address)
  | layersOf (address : Address)
  | query (address : Address) (depth : UInt32)
  | pending (address : Address)
  | pendingBalance (address : Address)

def Question.Answer : Question → Type
  | addresses => List Address
  | mainAddress | scriptAddress _ => Address
  | keyOf _ => ExtendedKey
  | layersOf _ => Layers
  | query .. => UtxoQuery
  | pending _ => Update
  | pendingBalance _ => BalanceUpdate

def Call.Answer : Call → Type
  | adopt _ | commit _ | applyTransfer _ => Unit
  | addWith .. | add _ => Address
  | remove _ => Bool
  | takeUpdate _ | reconcile .. | install _ | sync .. => Update
  | takeBalance _ => BalanceUpdate

section Operations

variable (c : Crypto.Suite)

/-- What an agent answers to a question. -/
def answer (a : Agent) : (q : Question) → Except Error q.Answer
  | .addresses => .ok a.addresses
  | .mainAddress => a.mainAddress
  | .scriptAddress hash => a.scriptAddress c.digests hash
  | .keyOf address => a.keyOf address
  | .layersOf address => a.layersOf address
  | .query address depth => a.query address depth
  | .pending address => a.pending address
  | .pendingBalance address => a.pendingBalance address

/-- What a call answers and leaves. -/
def outcome (a : Agent) : (call : Call) → Outcome Agent call.Answer
  | .adopt k => run (adopt c k) a
  | .addWith path t depth => run (addWith c path t depth) a
  | .add path => run (add c path) a
  | .remove address => run (remove address) a
  | .commit address => run (commit address) a
  | .takeUpdate address => run (takeUpdate address) a
  | .takeBalance address => run (takeBalance address) a
  | .reconcile address raw => run (reconcile address raw) a
  | .install v => run (install v) a
  | .sync oracle o address =>
    let r := run (sync oracle address) (a, o)
    ⟨r.result, r.state.1, r.log⟩
  | .applyTransfer t => run (applyTransfer c.digests t) a

lemma state_outcome (a : Agent) (call : Call) : (outcome c a call).state = after c a call := by
  cases call <;> rfl

theorem state_eq_of_failed {a : Agent} {call : Call} {e : Error}
    (h : (outcome c a call).result = .error e) : after c a call = a := by
  cases call with
  | adopt k => exact atomic_adopt c k a e h
  | addWith path t depth => exact atomic_addWith c path t depth a e h
  | add path => exact atomic_add c path a e h
  | remove address => exact atomic_remove address a e h
  | commit address => exact atomic_commit address a e h
  | takeUpdate address => exact atomic_takeUpdate address a e h
  | takeBalance address => exact atomic_map (atomic_takeUpdate address) Update.balance a e h
  | reconcile address raw => exact atomic_reconcile address raw a e h
  | install v => exact atomic_install v a e h
  | sync oracle o address => exact atomic_sync oracle address h
  | applyTransfer t => exact atomic_applyTransfer c.digests t a e h

/-- A call, or a question, which is answered from the agent as it is. -/
inductive Operation : Type 1
  | call (call : Call)
  | ask (question : Question)

def Operation.Answer : Operation → Type
  | .call cl => cl.Answer
  | .ask q => q.Answer

def operate (a : Agent) : (op : Operation) → Outcome Agent op.Answer
  | .call call => outcome c a call
  | .ask question => run (get >>= fun a => monadLift (answer c a question)) a

lemma state_operate_of_failed {a : Agent} {op : Operation} {e : Error}
    (h : (operate c a op).result = .error e) : (operate c a op).state = a := by
  cases op with
  | call call => exact (state_outcome c a call).trans (state_eq_of_failed c h)
  | ask question => exact congrArg Outcome.state (run_monadLift (answer c a question) a)

/-- **All or nothing**: whatever operation fails, with whatever arguments and oracle, the record of
the agent is the same after it as before. A transfer with one address that cannot be resolved
fails, so it records nothing for any address; and an agent that is refused a root key keeps the
one that it has, with its addresses. -/
theorem snapshot_of_failed (a : Agent) :
    (∀ (op : Operation) (e : Error), (operate c a op).result = .error e →
      (operate c a op).state = a ∧ (operate c a op).state.snapshot = a.snapshot) ∧
    (∀ (t : Transfer) (entry : AddressRef × List Utxo) (e : Error),
      entry ∈ t.spent.toList ∨ entry ∈ t.generated.toList →
      entry.1.resolve c.digests a.network = .error e →
      ∃ e', (run (applyTransfer c.digests t) a).result = .error e' ∧
        ∀ x, (run (applyTransfer c.digests t) a).state.layersOf x = a.layersOf x) ∧
    ∀ (k : ExtendedKey) (e : Error), (run (adopt c k) a).result = .error e →
      (run (adopt c k) a).state.registry.rootKey = a.registry.rootKey ∧
        (run (adopt c k) a).state.mainAddress = a.mainAddress ∧
        (run (adopt c k) a).state.addresses = a.addresses := by
  refine ⟨fun op e h => ?_, fun t entry e hmem hentry => ?_, fun k e h => ?_⟩
  · have hstate := state_operate_of_failed c h
    exact ⟨hstate, by rw [hstate]⟩
  · obtain ⟨e', he'⟩ : ∃ e', resolveAll c.digests a.network t.spent.toList = .error e' ∨
        resolveAll c.digests a.network t.generated.toList = .error e' := by
      rcases hmem with hmem | hmem
      · obtain ⟨e', he'⟩ := exists_resolveAll_eq_error hmem hentry
        exact ⟨e', Or.inl he'⟩
      · obtain ⟨e', he'⟩ := exists_resolveAll_eq_error hmem hentry
        exact ⟨e', Or.inr he'⟩
    obtain ⟨e'', hrun⟩ := run_applyTransfer_of_error he'
    exact ⟨e'', by rw [hrun], fun x => by rw [hrun]⟩
  · have hstate : (run (adopt c k) a).state = a := atomic_adopt c k a e h
    rw [hstate]
    exact ⟨rfl, rfl, rfl⟩

end Operations

/-- A transfer that spends an output of the main address, and lists an output of another network
with those that it created. -/
theorem snapshot_of_failed_foreign_output :
    let k : ExtendedKey := ⟨Bytes.zeros 33, [], []⟩
    let a := adopting .standard ⟨.empty .regtest .p2wpkh, .empty, 0⟩ k
    let u : Utxo := ⟨⟨[1], 0⟩, 5, 7⟩
    let foreign : AddressRef := ⟨"1BoatSLRHtKNngkdXEeobR76b53LETtpyT", .mainnet⟩
    let t : Transfer := ⟨[1], (∅ : AddressRef.Table (List Utxo)).insert
      (Address.ofKey .standard .regtest .p2wpkh k.publicKey).ref [u],
      (∅ : AddressRef.Table (List Utxo)).insert foreign [u]⟩
    (foreign, [u]) ∈ t.generated.toList ∧
      foreign.resolve .standard a.network = .error (.foreignRecord foreign.text .mainnet .regtest) ∧
      ∃ e, (run (applyTransfer .standard t) a).result = .error e ∧
        (run (applyTransfer .standard t) a).state.snapshot = a.snapshot := by
  intro k a u foreign t
  have hmem : (foreign, [u]) ∈ t.generated.toList := by
    rw [Std.ExtTreeMap.mem_toList_iff_getElem?_eq_some]
    exact Std.ExtTreeMap.getElem?_insert_self
  have hforeign : foreign.resolve .standard a.network =
      .error (.foreignRecord foreign.text .mainnet .regtest) := rfl
  obtain ⟨hunchanged, hrecords, -⟩ := snapshot_of_failed .standard a
  obtain ⟨e, he, -⟩ := hrecords t (foreign, [u]) _ (Or.inr hmem) hforeign
  exact ⟨hmem, hforeign, e, he, (hunchanged (.call (.applyTransfer t)) e he).2⟩

end Agent

end WatchWallet
