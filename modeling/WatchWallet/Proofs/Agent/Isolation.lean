import WatchWallet.Proofs.Agent.Cells
import WatchWallet.Proofs.Agent.OwnOutputs

/-!
An operation concerns the addresses that it names, and no others.

It names those that it is given, the one that it derives, or those that its entries are read as on
the network of the agent: an address of another network with the same text is not among them, and
two texts of one address name it once. To these the operation is local. Only taking a root key
concerns all addresses.
-/

namespace WatchWallet

open WatchWallet.Action

namespace Tracker

variable {t u : Tracker} {x : Address} (h : u.layers[x]? = t.layers[x]?)
include h

lemma layersOf_congr : u.layersOf x = t.layersOf x := by
  rw [layersOf, layersOf, h]

lemma pending_congr : u.pending x = t.pending x := by
  rw [pending, pending, layersOf_congr h]

lemma pending_modify_congr (f : Layers → Layers) :
    (u.modify x f).pending x = (t.modify x f).pending x :=
  pending_congr (by rw [getElem?_modify, getElem?_modify, h])

lemma result_change_congr (f : Layers → Layers) :
    (run (change x f) u).result = (run (change x f) t).result := by
  cases hl : t.layers[x]? with
  | none => rw [run_change_of_none hl, run_change_of_none (h.trans hl)]
  | some l => rw [run_change_of_some hl, run_change_of_some (h.trans hl)]

end Tracker

namespace Agent

/-! ### Operations on a tracked address -/

section Tracked

variable (a : Agent) (x : Address)

lemma local_commit : Local {x} (run (commit x)) a :=
  local_of_modify (fun _ hb => Tracker.result_change_congr hb _) fun b => state_commit b x

lemma local_takeUpdate : Local {x} (run (takeUpdate x)) a := by
  refine local_of_modify (fun b hb => ?_) fun b => state_takeUpdate b x
  simp only [takeUpdate, onTracker, run_within, Tracker.result_takeUpdate]
  exact Tracker.pending_congr hb

lemma local_takeBalance : Local {x} (run (takeBalance x)) a := by
  refine local_of_modify (fun b hb => ?_) fun b => state_takeBalance b x
  simp only [result_takeBalance, takeUpdate, onTracker, run_within, Tracker.result_takeUpdate]
  rw [Tracker.pending_congr hb]

lemma local_install (v : UtxoView) : Local {v.address} (run (install v)) a := by
  refine local_of_modify (fun b hb => ?_) fun b => state_install b v
  rw [result_install, result_install]
  exact Tracker.pending_modify_congr hb _

lemma local_reconcile (raw : Snapshot) : Local {x} (run (reconcile x raw)) a := by
  refine local_of_modify (fun b hb => ?_) fun b => state_reconcile b x raw
  rw [result_reconcile, result_reconcile]
  exact Tracker.pending_modify_congr hb _

/-- Both agents ask the oracle the same, so it gives them the same answer. -/
lemma local_sync {ω : Type} (oracle : Oracle ω) (o : ω) :
    Local {x} (fun b => outcome c b (.sync oracle o x)) a := by
  cases hl : a.tracker.layers[x]? with
  | none =>
    refine local_of_unchanged (.error (.notTracked x.text)) fun b hb => ?_
    have hrun := run_sync_of_none oracle o ((hb.layers_eq rfl).trans hl)
    exact ⟨congrArg Outcome.result hrun, congrArg (fun r => r.state.1) hrun⟩
  | some l =>
    rcases Nat.lt_or_ge maxDepth.toNat l.depth.toNat with hdepth | hdepth
    · refine local_of_unchanged (.error (.depthTooHigh l.depth)) fun b hb => ?_
      have hrun := run_sync_of_depth oracle o ((hb.layers_eq rfl).trans hl) hdepth
      exact ⟨congrArg Outcome.result hrun, congrArg (fun r => r.state.1) hrun⟩
    cases hraw : (run (oracle.snapshot a.network x l.depth) o).result with
    | error e =>
      refine local_of_unchanged (.error e) fun b hb => ?_
      exact run_sync_of_refusal oracle o ((hb.layers_eq rfl).trans hl) hdepth
        (by rw [hb.network_eq, hraw])
    | ok raw =>
      refine (local_reconcile a x raw).congr fun b hb => ?_
      exact run_sync_of_answer oracle o ((hb.layers_eq rfl).trans hl) hdepth
        (by rw [hb.network_eq, hraw])

end Tracked

/-! ### Adding, removing and transfers -/

lemma derive_congr (c : Crypto.Suite) {r r' : Registry} (hnetwork : r'.network = r.network)
    (hroot : r'.root = r.root) (path : Path) (t : ScriptType) :
    r'.derive c path t = r.derive c path t := by
  rw [Registry.derive, Registry.derive, hnetwork, hroot]

/-- The addresses that a path leads to: one or none. -/
def derivedAt (c : Crypto.Suite) (a : Agent) (path : Path) (t : ScriptType) : Set Address :=
  {x | ∃ k, a.registry.derive c path t = .ok (k, x)}

lemma derivedAt_of_ok {c : Crypto.Suite} {a : Agent} {path : Path} {t : ScriptType}
    {k : ExtendedKey} {x : Address} (h : a.registry.derive c path t = .ok (k, x)) :
    derivedAt c a path t = {x} := by
  ext y
  constructor
  · rintro ⟨k', hk'⟩
    rw [h] at hk'
    exact (Prod.mk.inj (Except.ok.inj hk')).2.symm
  · rintro rfl
    exact ⟨k, h⟩

/-- The addresses of the agent's network that the entries of a transfer are read as. -/
def listedBy (d : Crypto.Digests) (a : Agent) (t : Transfer) : Set Address :=
  {x | ∃ e, (e ∈ t.spent.toList ∨ e ∈ t.generated.toList) ∧ e.1.resolve d a.network = .ok x}

section Keys

variable (c : Crypto.Suite) (a : Agent)

lemma local_addWith (path : Path) (t : ScriptType) (depth : UInt32) :
    Local (derivedAt c a path t) (run (addWith c path t depth)) a := by
  rcases Nat.lt_or_ge maxDepth.toNat depth.toNat with hdepth | hdepth
  · refine local_of_unchanged (.error (.depthTooHigh depth)) fun b _ => ?_
    rw [run_addWith_of_depth c hdepth]
    exact ⟨rfl, rfl⟩
  rcases Nat.lt_or_ge maxPathLength path.length with hpath | hpath
  · refine local_of_unchanged (.error (.pathTooLong path.length)) fun b _ => ?_
    rw [run_addWith_of_length c hdepth hpath]
    exact ⟨rfl, rfl⟩
  cases hderive : a.registry.derive c path t with
  | error e =>
    refine local_of_unchanged (.error e) fun b hb => ?_
    have hsame := derive_congr c hb.network_eq hb.root_eq path t
    rw [run_addWith_of_error c hdepth hpath (hsame.trans hderive)]
    exact ⟨rfl, rfl⟩
  | ok derived =>
    obtain ⟨k, x⟩ := derived
    rw [derivedAt_of_ok hderive]
    have hsame : ∀ b, AgreesOn {x} a b → b.registry.derive c path t = .ok (k, x) := fun b hb =>
      (derive_congr c hb.network_eq hb.root_eq path t).trans hderive
    by_cases hmem : x ∈ a.registry.keys
    · refine local_of_unchanged (.ok x) fun b hb => ?_
      exact yields_addWith_of_mem c hdepth hpath (hsame b hb) ((hb.mem_keys_iff rfl).mpr hmem)
    · refine local_of_alters (.ok x) (Cell.start k depth) rfl fun b hb => ?_
      obtain ⟨hresult, hstate⟩ := yields_addWith_of_not_mem c hdepth hpath (hsame b hb)
        fun hin => hmem ((hb.mem_keys_iff rfl).mp hin)
      rw [hresult, hstate]
      exact ⟨rfl, alters_managing b x k depth⟩

/-- The main type and the depth of the agent stand in for those that are not given. -/
lemma local_add (path : Path) :
    Local (derivedAt c a path a.registry.mainType) (run (add c path)) a := by
  refine (local_addWith c a path a.registry.mainType a.depth).congr fun b hb => ?_
  have hrun : run (add c path) b = run (addWith c path b.registry.mainType b.depth) b := rfl
  rw [hrun, hb.mainType_eq, hb.depth_eq]
  exact ⟨rfl, rfl⟩

lemma local_remove (x : Address) : Local {x} (run (remove x)) a := by
  by_cases hmain : ∃ root, a.registry.root = some root ∧ root.address = x
  · obtain ⟨root, hroot, hx⟩ := hmain
    exact local_of_unchanged (.ok false) fun b hb =>
      yields_remove_of_main (hb.root_eq.trans hroot) hx
  have hother : ∀ b, AgreesOn {x} a b → ∀ root, b.registry.root = some root → root.address ≠ x :=
    fun b hb root hroot hx => hmain ⟨root, hb.root_eq.symm.trans hroot, hx⟩
  by_cases hmem : x ∈ a.registry.keys
  · refine local_of_alters (.ok true) (fun _ => ⟨none, none⟩) rfl fun b hb => ?_
    obtain ⟨hresult, hstate⟩ := yields_remove_of_mem (hother b hb) ((hb.mem_keys_iff rfl).mpr hmem)
    rw [hresult, hstate]
    exact ⟨rfl, alters_dropping b x⟩
  · exact local_of_unchanged (.ok false) fun b hb =>
      yields_remove_of_not_mem (hother b hb) fun hin => hmem ((hb.mem_keys_iff rfl).mp hin)

end Keys

lemma outputsAt_eq_nil {x : Address} {entries : List (Address × List Utxo)}
    (h : ∀ p ∈ entries, p.1 ≠ x) : outputsAt x entries = [] :=
  List.flatMap_eq_nil_iff.mpr fun p hp => if_neg (h p hp)

lemma local_applyTransfer (d : Crypto.Digests) (a : Agent) (t : Transfer) :
    Local (listedBy d a t) (run (applyTransfer d t)) a := by
  rcases applyTransfer_decided d t a.network with
    ⟨e, hrun⟩ | ⟨spent, generated, hspent, hgenerated, hyields⟩
  · refine local_of_unchanged (.error e) fun b hb => ?_
    rw [hrun b hb.network_eq]
    exact ⟨rfl, rfl⟩
  refine ⟨.ok (), fun x => Cell.modify
    (Layers.generate (outputsAt x generated) ∘ Layers.spend (outputsAt x spent)), ?_, ?_⟩
  · -- No outputs are listed for an address that no entry is read as.
    intro x hx
    have hnotSpent : outputsAt x spent = [] := outputsAt_eq_nil fun p hp hpx => by
      obtain ⟨e, he, hresolve⟩ := exists_mem_of_resolveAll hspent hp
      exact hx ⟨e, Or.inl he, hpx ▸ hresolve⟩
    have hnotGenerated : outputsAt x generated = [] := outputsAt_eq_nil fun p hp hpx => by
      obtain ⟨e, he, hresolve⟩ := exists_mem_of_resolveAll hgenerated hp
      exact hx ⟨e, Or.inr he, hpx ▸ hresolve⟩
    simp only
    rw [hnotSpent, hnotGenerated, Layers.accumulates_spend.nil, Layers.accumulates_generate.nil]
    exact Cell.modify_id
  · intro b hb
    obtain ⟨hresult, hstate⟩ := hyields b hb.network_eq
    rw [hresult, hstate]
    exact ⟨rfl, alters_recording b spent generated⟩

/-! ### Questions -/

/-- The addresses that a question names. -/
def Question.named : Question → Set Address
  | .addresses | .mainAddress | .scriptAddress _ => ∅
  | .keyOf x | .layersOf x | .query x _ | .pending x | .pendingBalance x => {x}

/-- A question about the addresses that it names, or about none; not one for all of them. -/
def Question.IsLocal : Question → Prop
  | .addresses => False
  | _ => True

section AgreesOn

variable {N : Set Address} {a b : Agent} (h : AgreesOn N a b)
include h

lemma AgreesOn.mainAddress_eq : b.mainAddress = a.mainAddress := by
  rw [mainAddress, mainAddress, Registry.mainAddress, Registry.mainAddress, h.root_eq]

lemma AgreesOn.scriptAddress_eq (d : Crypto.Digests) (hash : Bytes) :
    b.scriptAddress d hash = a.scriptAddress d hash := by
  rw [scriptAddress, scriptAddress, h.network_eq]

variable {x : Address} (hx : x ∈ N)
include hx

lemma AgreesOn.keyOf_eq : b.keyOf x = a.keyOf x := by
  rw [keyOf, keyOf, Registry.keyOf, Registry.keyOf, h.key_eq hx]

lemma AgreesOn.layersOf_eq : b.layersOf x = a.layersOf x := Tracker.layersOf_congr (h.layers_eq hx)

lemma AgreesOn.query_eq (depth : UInt32) : b.query x depth = a.query x depth := by
  rw [Agent.query_eq, Agent.query_eq, h.layersOf_eq hx, h.network_eq]

lemma AgreesOn.pending_eq : b.pending x = a.pending x := Tracker.pending_congr (h.layers_eq hx)

lemma AgreesOn.pendingBalance_eq : b.pendingBalance x = a.pendingBalance x := by
  rw [pendingBalance, pendingBalance, h.pending_eq hx]

end AgreesOn

lemma answer_congr (c : Crypto.Suite) {a b : Agent} {q : Question} (hq : q.IsLocal)
    (h : AgreesOn q.named a b) : answer c b q = answer c a q := by
  cases q with
  | addresses => exact hq.elim
  | mainAddress => exact h.mainAddress_eq
  | scriptAddress hash => exact h.scriptAddress_eq c.digests hash
  | keyOf x => exact h.keyOf_eq rfl
  | layersOf x => exact h.layersOf_eq rfl
  | query x depth => exact h.query_eq rfl depth
  | pending x => exact h.pending_eq rfl
  | pendingBalance x => exact h.pendingBalance_eq rfl

/-! ### Every operation -/

section Operations

variable (c : Crypto.Suite)

/-- The addresses that a call names: those that it is given, the one that it derives, or those that
its entries are read as. -/
def Call.named (a : Agent) : Call → Set Address
  | .adopt _ => Set.univ
  | .addWith path t _ => derivedAt c a path t
  | .add path => derivedAt c a path a.registry.mainType
  | .remove x | .commit x | .takeUpdate x | .takeBalance x | .reconcile x _ | .sync _ _ x => {x}
  | .install v => {v.address}
  | .applyTransfer t => listedBy c.digests a t

def Operation.named (a : Agent) : Operation → Set Address
  | .call cl => cl.named c a
  | .ask question => question.named

/-- Leaves the root key as it is. -/
def Operation.KeepsRoot : Operation → Prop
  | .call (.adopt _) => False
  | _ => True

/-- Concerns the addresses that it names and no others. -/
def Operation.IsLocal : Operation → Prop
  | .call (.adopt _) => False
  | .call _ => True
  | .ask question => question.IsLocal

lemma local_outcome (a : Agent) {call : Call} (h : (Operation.call call).KeepsRoot) :
    Local (call.named c a) (fun b => outcome c b call) a := by
  cases call with
  | adopt k => exact h.elim
  | addWith path t depth => exact local_addWith c a path t depth
  | add path => exact local_add c a path
  | remove x => exact local_remove a x
  | commit x => exact local_commit a x
  | takeUpdate x => exact local_takeUpdate a x
  | takeBalance x => exact local_takeBalance a x
  | reconcile x raw => exact local_reconcile a x raw
  | install v => exact local_install a v
  | sync oracle o x => exact local_sync a x oracle o
  | applyTransfer t => exact local_applyTransfer c.digests a t

lemma operate_ask (a : Agent) (q : Question) :
    (operate c a (.ask q)).result = answer c a q ∧ (operate c a (.ask q)).state = a := by
  have hrun : operate c a (.ask q) = run (monadLift (answer c a q)) a := rfl
  rw [hrun, run_monadLift]
  exact ⟨rfl, rfl⟩

lemma local_operate (a : Agent) {op : Operation} (h : op.IsLocal) :
    Local (op.named c a) (fun b => operate c b op) a := by
  cases op with
  | call call => exact local_outcome c a (by cases call <;> exact h)
  | ask q =>
    refine local_of_unchanged (answer c a q) fun b hb => ?_
    obtain ⟨hresult, hstate⟩ := operate_ask c b q
    exact ⟨hresult.trans (answer_congr c h hb), hstate⟩

/-- What an operation names does not change with the addresses. -/
lemma named_congr {a b : Agent} (hnetwork : b.network = a.network)
    (hroot : b.registry.root = a.registry.root) (htype : b.registry.mainType = a.registry.mainType)
    (op : Operation) : op.named c b = op.named c a := by
  rcases op with call | q
  · cases call with
    | addWith path t depth =>
      simp only [Operation.named, Call.named, derivedAt, derive_congr c hnetwork hroot]
    | add path =>
      simp only [Operation.named, Call.named, derivedAt, derive_congr c hnetwork hroot, htype]
    | applyTransfer t => simp only [Operation.named, Call.named, listedBy, hnetwork]
    | _ => rfl
  · rfl

/-- What is held for an address. -/
lemma cell_operate_of_not_named (a : Agent) {op : Operation} (h : op.KeepsRoot) {x : Address}
    (hx : x ∉ op.named c a) : (operate c a op).state.cell x = a.cell x := by
  cases op with
  | call call => exact (local_outcome c a h).cell_eq hx
  | ask q => rw [(operate_ask c a q).2]

/-- **Isolation**: whatever operation is taken but for a root key, and whether it fails or not,
what is held for an address that it does not name stays: whether it is managed, its key and all
its layers. So two operations that name disjoint sets of addresses answer the same and leave the
same in either order; and neither changes what the other one names. -/
theorem operations_isolated (a : Agent) :
    (∀ op : Operation, op.KeepsRoot → ∀ x ∉ op.named c a,
      (x ∈ (operate c a op).state.addresses ↔ x ∈ a.addresses) ∧
        (operate c a op).state.keyOf x = a.keyOf x ∧
        (operate c a op).state.layersOf x = a.layersOf x) ∧
    ∀ op op' : Operation, op.IsLocal → op'.IsLocal → Disjoint (op.named c a) (op'.named c a) →
      op'.named c (operate c a op).state = op'.named c a ∧
        op.named c (operate c a op').state = op.named c a ∧
        (operate c (operate c a op).state op').result = (operate c a op').result ∧
        (operate c (operate c a op').state op).result = (operate c a op).result ∧
        (operate c (operate c a op).state op').state =
          (operate c (operate c a op').state op).state := by
  refine ⟨fun op hop x hx => ?_, fun op op' hop hop' hdisjoint => ?_⟩
  · have hcell := cell_operate_of_not_named c a hop hx
    have hkey : (operate c a op).state.registry.keys[x]? = a.registry.keys[x]? :=
      congrArg Cell.key hcell
    refine ⟨?_, ?_, Tracker.layersOf_congr (congrArg Cell.layers hcell)⟩
    · simp only [addresses, Registry.addresses, Std.ExtTreeMap.mem_keys,
        ← Std.ExtTreeMap.isSome_getElem?_iff_mem, hkey]
    · rw [keyOf, keyOf, Registry.keyOf, Registry.keyOf, hkey]
  · have hlocal := local_operate c a hop
    have hlocal' := local_operate c a hop'
    have hfirst := hlocal.agreesOn hdisjoint
    have hsecond := hlocal'.agreesOn hdisjoint.symm
    refine ⟨?_, ?_, hlocal.commutes hlocal' hdisjoint⟩
    · exact named_congr c hfirst.network_eq hfirst.root_eq hfirst.mainType_eq op'
    · exact named_congr c hsecond.network_eq hsecond.root_eq hsecond.mainType_eq op

end Operations

/-- A regression agent spends an output of its main address and adds another address. A test
address has the text of the added one and is named by neither. -/
theorem operations_isolated_from_twin :
    let k : ExtendedKey := ⟨Bytes.zeros 33, [], []⟩
    let a := adopting .standard ⟨.empty .regtest .p2wpkh, .empty, 0⟩ k
    let main := Address.ofKey .standard .regtest .p2wpkh k.publicKey
    let other := Address.ofKey .standard .regtest .p2pkh k.publicKey
    let twin := Address.ofKey .standard .testnet .p2pkh k.publicKey
    let u : Utxo := ⟨⟨[1], 0⟩, 5, 7⟩
    let t : Transfer := ⟨[1], (∅ : AddressRef.Table (List Utxo)).insert main.ref [u], ∅⟩
    let spends : Operation := .call (.applyTransfer t)
    let adds : Operation := .call (.addWith [] .p2pkh 0)
    twin.text = other.text ∧ spends.named .standard a = {main} ∧ adds.named .standard a = {other} ∧
      (operate .standard a adds).state.layersOf twin = a.layersOf twin ∧
      (operate .standard (operate .standard a spends).state adds).state =
        (operate .standard (operate .standard a adds).state spends).state := by
  intro k a main other twin u t spends adds
  have hmain : Address.Belongs Crypto.Suite.standard.digests a.network main :=
    Address.belongs_ofKey .p2wpkh k.publicKey
  have hspends : spends.named .standard a = {main} := by
    have hspent : t.spent.toList = [(main.ref, [u])] := toList_insert_ref main [u]
    have hgenerated : t.generated.toList = [] := rfl
    ext x
    simp only [spends, Operation.named, Call.named, listedBy, hspent, hgenerated, Set.mem_ofPred_eq,
      List.mem_singleton, List.not_mem_nil, or_false, exists_eq_left, hmain.resolve_ref,
      Except.ok.injEq, Set.mem_singleton_iff, eq_comm]
  have hadds : adds.named .standard a = {other} :=
    derivedAt_of_ok (k := ⟨k.publicKey, Bytes.zeros 32, []⟩) rfl
  have htwin : twin ∉ adds.named .standard a := by
    rw [hadds]
    exact fun h => nomatch congrArg Address.network h
  have hdisjoint : Disjoint (spends.named .standard a) (adds.named .standard a) := by
    rw [hspends, hadds, Set.disjoint_singleton]
    exact fun h => nomatch congrArg Address.scriptType h
  obtain ⟨hframe, horder⟩ := operations_isolated .standard a
  refine ⟨rfl, hspends, hadds, (hframe adds trivial twin htwin).2.2, ?_⟩
  exact (horder spends adds trivial trivial hdisjoint).2.2.2.2

end Agent

end WatchWallet
