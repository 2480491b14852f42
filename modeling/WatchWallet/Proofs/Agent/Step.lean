import WatchWallet.Proofs.Agent.Sync
import WatchWallet.Proofs.Agent.Transfer
import WatchWallet.Proofs.Entries

/-!
All that an operation can do to an agent.

A call takes a root key, or starts or ends managing one address, or does no more than refresh
what is kept for the tracked addresses. A call that fails is a call too.
-/

namespace WatchWallet.Agent

open WatchWallet.Action

/-- Only what is kept for the tracked addresses may differ, and no depth does. -/
structure Refreshes (a b : Agent) : Prop where
  registry_eq : b.registry = a.registry
  depth_eq : b.depth = a.depth
  sameDepths : Tracker.SameDepths a.tracker b.tracker

instance : IsPreorder Agent Refreshes where
  refl _ := ⟨rfl, rfl, refl_of Tracker.SameDepths _⟩
  trans _ _ _ h h' := ⟨h'.1.trans h.1, h'.2.trans h.2, trans_of Tracker.SameDepths h.3 h'.3⟩

lemma refreshes_modify (a : Agent) (x : Address) {f : Layers → Layers}
    (hf : ∀ l, (f l).depth = l.depth) : Refreshes a (a.modify x f) :=
  ⟨rfl, rfl, Tracker.sameDepths_modify a.tracker x hf⟩

lemma refreshes_foldl {record : List Utxo → Layers → Layers}
    (hrecord : ∀ us l, (record us l).depth = l.depth) (entries : List (Address × List Utxo))
    (a : Agent) : Refreshes a (entries.foldl (fun a e => a.modify e.1 (record e.2)) a) := by
  induction entries generalizing a with
  | nil => exact refl_of Refreshes a
  | cons e entries ih => exact trans_of Refreshes (refreshes_modify a e.1 (hrecord e.2)) (ih _)

lemma refreshes_recording (a : Agent) (spent generated : List (Address × List Utxo)) :
    Refreshes a (a.recording spent generated) := by
  have hspend : ∀ us l, (Layers.spend us l).depth = l.depth := fun _ _ => rfl
  have hgenerate : ∀ us l, (Layers.generate us l).depth = l.depth := fun _ _ => rfl
  exact trans_of Refreshes (refreshes_foldl hspend spent a) (refreshes_foldl hgenerate generated _)

lemma refreshes_applyTransfer (d : Crypto.Digests) (t : Transfer) (a : Agent) :
    Refreshes a (run (applyTransfer d t) a).state := by
  rcases applyTransfer_cases d t a with ⟨e, hrun⟩ | ⟨spent, generated, -, -, hyields⟩
  · rw [hrun]
    exact refl_of Refreshes a
  · rw [hyields.2]
    exact refreshes_recording a spent generated

lemma refreshes_sync {ω : Type} (oracle : Oracle ω) (a : Agent) (x : Address) (o : ω) :
    Refreshes a (run (sync oracle x) (a, o)).state.1 := by
  rcases sync_cases oracle a x o with ⟨e, -, hstate⟩ | ⟨raw, -, hstate⟩
  · rw [hstate]
    exact refl_of Refreshes a
  · rw [hstate, state_reconcile]
    exact refreshes_modify a x fun _ => rfl

/-! ### Calls -/

/-- A call of an operation that can change an agent, with its arguments. -/
inductive Call : Type 1
  | adopt (k : ExtendedKey)
  | addWith (path : Path) (t : ScriptType) (depth : UInt32)
  | add (path : Path)
  | remove (address : Address)
  | commit (address : Address)
  | takeUpdate (address : Address)
  | takeBalance (address : Address)
  | reconcile (address : Address) (raw : Snapshot)
  | install (v : UtxoView)
  | sync {ω : Type} (oracle : Oracle ω) (o : ω) (address : Address)
  | applyTransfer (t : Transfer)

section Steps

variable (c : Crypto.Suite)

/-- The agent that a call leaves, whether it fails or not. -/
def after (a : Agent) : Call → Agent
  | .adopt k => (run (adopt c k) a).state
  | .addWith path t depth => (run (addWith c path t depth) a).state
  | .add path => (run (add c path) a).state
  | .remove address => (run (remove address) a).state
  | .commit address => (run (commit address) a).state
  | .takeUpdate address => (run (takeUpdate address) a).state
  | .takeBalance address => (run (takeBalance address) a).state
  | .reconcile address raw => (run (reconcile address raw) a).state
  | .install v => (run (install v) a).state
  | .sync oracle o address => (run (sync oracle address) (a, o)).state.1
  | .applyTransfer t => (run (applyTransfer c.digests t) a).state

/-- The root of a key for an agent. -/
def rootOf (a : Agent) (k : ExtendedKey) : Root :=
  ⟨k, Address.ofKey c.digests a.network a.registry.mainType k.publicKey⟩

/-- The agent with a root key just taken: the main address alone is managed. -/
def adopting (a : Agent) (k : ExtendedKey) : Agent :=
  ⟨⟨a.registry.network, a.registry.mainType, some (rootOf c a k),
    (∅ : Std.ExtTreeMap Address ExtendedKey).insert (rootOf c a k).address k⟩,
    ⟨(∅ : Std.ExtTreeMap Address Layers).insertIfNew (rootOf c a k).address (.fresh a.depth)⟩,
    a.depth⟩

/-- The agent with one more address. -/
def managing (a : Agent) (x : Address) (k : ExtendedKey) (depth : UInt32) : Agent :=
  ⟨{ a.registry with keys := a.registry.keys.insertIfNew x k },
    ⟨a.tracker.layers.insertIfNew x (.fresh depth)⟩, a.depth⟩

/-- The agent without an address. -/
def dropping (a : Agent) (x : Address) : Agent :=
  ⟨{ a.registry with keys := a.registry.keys.erase x }, ⟨a.tracker.layers.erase x⟩, a.depth⟩

/-- All that a call can do. -/
inductive Step (a : Agent) : Agent → Prop
  | adopts {k : ExtendedKey} (hk : k.publicKey.length = 33) : Step a (adopting c a k)
  | manages {root : Root} {path : Path} {t : ScriptType} {depth : UInt32} {k : ExtendedKey}
      (hdepth : depth ≤ maxDepth) (hpath : path.length ≤ maxPathLength)
      (hroot : a.registry.root = some root) (hk : root.key.derive c path = .ok k)
      (hnew : Address.ofKey c.digests a.network t k.publicKey ∉ a.registry.keys) :
      Step a (a.managing (Address.ofKey c.digests a.network t k.publicKey) k depth)
  | drops {x : Address} (hmain : ∀ root, a.registry.root = some root → root.address ≠ x)
      (hx : x ∈ a.registry.keys) : Step a (a.dropping x)
  | refreshes {b : Agent} (h : Refreshes a b) : Step a b

lemma step_refl (a : Agent) : Step c a a := .refreshes (refl_of Refreshes a)

lemma yields_adopt {k : ExtendedKey} (hk : k.publicKey.length = 33) (a : Agent) :
    Yields (adopt c k) a () (adopting c a k) := by
  simp [Yields, adopt, onRegistry, onTracker, Registry.adopt, Registry.setRoot, run_bind, hk,
    Registry.mainAddress, Tracker.track, Tracker.empty, adopting, rootOf, network]

lemma run_adopt_of_ne {k : ExtendedKey} (hk : k.publicKey.length ≠ 33) (a : Agent) :
    run (adopt c k) a = ⟨.error (.key .rootSize), a, []⟩ := by
  simp [adopt, onRegistry, Registry.adopt, Registry.setRoot, run_bind, hk]

lemma step_adopt (k : ExtendedKey) (a : Agent) : Step c a (run (adopt c k) a).state := by
  by_cases hk : k.publicKey.length = 33
  · rw [(yields_adopt c hk a).2]
    exact .adopts hk
  · rw [run_adopt_of_ne c hk]
    exact step_refl c a

lemma derive_eq_ok_iff {r : Registry} {path : Path} {t : ScriptType} {k : ExtendedKey}
    {x : Address} : r.derive c path t = .ok (k, x) ↔
      ∃ root, r.root = some root ∧ root.key.derive c path = .ok k ∧
        x = Address.ofKey c.digests r.network t k.publicKey := by
  unfold Registry.derive
  cases r.root with
  | none => simp
  | some root =>
    cases hk : root.key.derive c path with
    | error e => simp [hk, bind, Except.bind]
    | ok k' =>
      simp only [hk, bind, Except.bind, pure, Except.pure, Except.ok.injEq, Prod.mk.injEq,
        Option.some.injEq, exists_eq_left']
      constructor
      · rintro ⟨rfl, rfl⟩
        exact ⟨rfl, rfl⟩
      · rintro ⟨rfl, rfl⟩
        exact ⟨rfl, rfl⟩

section Adding

variable {path : Path} {t : ScriptType} {depth : UInt32} {a : Agent}

lemma run_addWith_of_depth (hdepth : maxDepth < depth) :
    run (addWith c path t depth) a = ⟨.error (.depthTooHigh depth), a, []⟩ := by
  simp [addWith, run_bind, checkDepth, hdepth]

lemma run_addWith_of_length (hdepth : depth ≤ maxDepth) (hpath : maxPathLength < path.length) :
    run (addWith c path t depth) a = ⟨.error (.pathTooLong path.length), a, []⟩ := by
  simp [addWith, run_bind, checkDepth, UInt32.not_lt.mpr hdepth, hpath]

variable (hdepth : depth ≤ maxDepth) (hpath : path.length ≤ maxPathLength)
include hdepth hpath

lemma run_addWith_of_error {e : Error} (h : a.registry.derive c path t = .error e) :
    run (addWith c path t depth) a = ⟨.error e, a, []⟩ := by
  simp [addWith, run_bind, checkDepth, UInt32.not_lt.mpr hdepth, Nat.not_lt.mpr hpath, h]

variable {k : ExtendedKey} {x : Address} (h : a.registry.derive c path t = .ok (k, x))
include h

/-- An address that is managed already is left as it is. -/
lemma yields_addWith_of_mem (hmem : x ∈ a.registry.keys) :
    Yields (addWith c path t depth) a x a := by
  have hin : a.registry.keys.contains x = true := hmem
  simp [Yields, addWith, run_bind, checkDepth, UInt32.not_lt.mpr hdepth, Nat.not_lt.mpr hpath, h,
    onRegistry, Registry.insert, Registry.contains, hin, Entries.insertIfNew_of_mem hmem,
    Except.map]

/-- A new address is managed with its key, and tracked. -/
lemma yields_addWith_of_not_mem (hmem : x ∉ a.registry.keys) :
    Yields (addWith c path t depth) a x (a.managing x k depth) := by
  have hin : a.registry.keys.contains x = false := Bool.eq_false_iff.mpr hmem
  simp [Yields, addWith, run_bind, checkDepth, UInt32.not_lt.mpr hdepth, Nat.not_lt.mpr hpath, h,
    onRegistry, onTracker, Registry.insert, Registry.contains, hin, Tracker.track, managing,
    Except.map]

end Adding

/-- The registry alone decides whether adding an address is refused, finds it managed, or begins
to manage and track it. -/
lemma addWith_decided (path : Path) (t : ScriptType) (depth : UInt32) (r : Registry) :
    (∃ e, ∀ a : Agent, a.registry = r → run (addWith c path t depth) a = ⟨.error e, a, []⟩) ∨
      ∃ root k x, depth ≤ maxDepth ∧ path.length ≤ maxPathLength ∧ r.root = some root ∧
        root.key.derive c path = .ok k ∧ x = Address.ofKey c.digests r.network t k.publicKey ∧
        (x ∈ r.keys ∧ (∀ a : Agent, a.registry = r → Yields (addWith c path t depth) a x a) ∨
          x ∉ r.keys ∧ ∀ a : Agent, a.registry = r →
            Yields (addWith c path t depth) a x (a.managing x k depth)) := by
  rcases Nat.lt_or_ge maxDepth.toNat depth.toNat with hdepth | hdepth
  · exact Or.inl ⟨_, fun a _ => run_addWith_of_depth c hdepth⟩
  rcases Nat.lt_or_ge maxPathLength path.length with hpath | hpath
  · exact Or.inl ⟨_, fun a _ => run_addWith_of_length c hdepth hpath⟩
  rcases h : r.derive c path t with e | ⟨k, x⟩
  · exact Or.inl ⟨e, fun a ha => run_addWith_of_error c hdepth hpath (ha ▸ h)⟩
  obtain ⟨root, hroot, hk, hx⟩ := (derive_eq_ok_iff c).mp h
  refine Or.inr ⟨root, k, x, hdepth, hpath, hroot, hk, hx, ?_⟩
  by_cases hmem : x ∈ r.keys
  · exact Or.inl ⟨hmem, fun a ha => yields_addWith_of_mem c hdepth hpath (ha ▸ h) (ha ▸ hmem)⟩
  · exact Or.inr ⟨hmem, fun a ha =>
      yields_addWith_of_not_mem c hdepth hpath (ha ▸ h) (ha ▸ hmem)⟩

/-- Adding an address is refused, or finds it managed, or begins to manage and track it. -/
lemma addWith_cases (path : Path) (t : ScriptType) (depth : UInt32) (a : Agent) :
    (∃ e, run (addWith c path t depth) a = ⟨.error e, a, []⟩) ∨
      ∃ root k x, depth ≤ maxDepth ∧ path.length ≤ maxPathLength ∧ a.registry.root = some root ∧
        root.key.derive c path = .ok k ∧ x = Address.ofKey c.digests a.network t k.publicKey ∧
        (x ∈ a.registry.keys ∧ Yields (addWith c path t depth) a x a ∨
          x ∉ a.registry.keys ∧ Yields (addWith c path t depth) a x (a.managing x k depth)) := by
  rcases addWith_decided c path t depth a.registry with
    ⟨e, hrun⟩ | ⟨root, k, x, hdepth, hpath, hroot, hk, hx, hmem⟩
  · exact Or.inl ⟨e, hrun a rfl⟩
  · refine Or.inr ⟨root, k, x, hdepth, hpath, hroot, hk, hx, ?_⟩
    exact hmem.imp (And.imp_right fun h => h a rfl) (And.imp_right fun h => h a rfl)

lemma step_addWith (path : Path) (t : ScriptType) (depth : UInt32) (a : Agent) :
    Step c a (run (addWith c path t depth) a).state := by
  rcases addWith_cases c path t depth a with
    ⟨e, hrun⟩ | ⟨root, k, x, hdepth, hpath, hroot, hk, rfl, ⟨-, hyields⟩ | ⟨hnew, hyields⟩⟩
  · rw [hrun]
    exact step_refl c a
  · rw [hyields.2]
    exact step_refl c a
  · rw [hyields.2]
    exact .manages hdepth hpath hroot hk hnew

/-- The main address stays. -/
lemma yields_remove_of_main {a : Agent} {x : Address} {root : Root}
    (hroot : a.registry.root = some root) (hx : root.address = x) :
    Yields (remove x) a false a := by
  simp [Yields, remove, run_bind, onRegistry, Registry.erase, hroot, hx]

section Removing

variable {a : Agent} {x : Address} (hmain : ∀ root, a.registry.root = some root → root.address ≠ x)
include hmain

lemma any_root_eq_false : a.registry.root.any (·.address = x) = false := by
  cases hroot : a.registry.root with
  | none => rfl
  | some root => simpa using hmain root hroot

lemma yields_remove_of_mem (hx : x ∈ a.registry.keys) :
    Yields (remove x) a true (a.dropping x) := by
  have hin : a.registry.keys.contains x = true := hx
  simp [Yields, remove, run_bind, onRegistry, onTracker, Registry.erase, any_root_eq_false hmain,
    Registry.contains, hin, Tracker.untrack, Except.map, dropping]

lemma yields_remove_of_not_mem (hx : x ∉ a.registry.keys) : Yields (remove x) a false a := by
  have hin : a.registry.keys.contains x = false := Bool.eq_false_iff.mpr hx
  simp [Yields, remove, run_bind, onRegistry, Registry.erase, any_root_eq_false hmain,
    Registry.contains, hin, Entries.erase_of_not_mem hx, Except.map]

end Removing

/-- The registry alone decides whether an address goes. -/
lemma remove_decided (x : Address) (r : Registry) :
    (∀ a : Agent, a.registry = r → Yields (remove x) a false a) ∨
      (∀ root, r.root = some root → root.address ≠ x) ∧ x ∈ r.keys ∧
        ∀ a : Agent, a.registry = r → Yields (remove x) a true (a.dropping x) := by
  by_cases hmain : ∃ root, r.root = some root ∧ root.address = x
  · obtain ⟨root, hroot, hx⟩ := hmain
    exact Or.inl fun a ha => yields_remove_of_main (ha ▸ hroot) hx
  have hother : ∀ root, r.root = some root → root.address ≠ x :=
    fun root hroot hx => hmain ⟨root, hroot, hx⟩
  by_cases hx : x ∈ r.keys
  · exact Or.inr ⟨hother, hx, fun a ha => yields_remove_of_mem (ha ▸ hother) (ha ▸ hx)⟩
  · exact Or.inl fun a ha => yields_remove_of_not_mem (ha ▸ hother) (ha ▸ hx)

/-- Removing an address never fails; only one that is managed and not the main one goes. -/
lemma remove_cases (x : Address) (a : Agent) :
    Yields (remove x) a false a ∨
      (∀ root, a.registry.root = some root → root.address ≠ x) ∧ x ∈ a.registry.keys ∧
        Yields (remove x) a true (a.dropping x) := by
  rcases remove_decided x a.registry with hyields | ⟨hother, hx, hyields⟩
  · exact Or.inl (hyields a rfl)
  · exact Or.inr ⟨hother, hx, hyields a rfl⟩

lemma step_remove (x : Address) (a : Agent) : Step c a (run (remove x) a).state := by
  rcases remove_cases x a with hyields | ⟨hother, hx, hyields⟩
  · rw [hyields.2]
    exact step_refl c a
  · rw [hyields.2]
    exact .drops hother hx

/-- **What a call can do** to any agent. -/
theorem step_after (a : Agent) (call : Call) : Step c a (after c a call) := by
  cases call with
  | adopt k => exact step_adopt c k a
  | addWith path t depth => exact step_addWith c path t depth a
  | add path => exact step_addWith c path a.registry.mainType a.depth a
  | remove address => exact step_remove c address a
  | commit address =>
    rw [after, state_commit]
    exact .refreshes (refreshes_modify a address fun _ => rfl)
  | takeUpdate address =>
    rw [after, state_takeUpdate]
    exact .refreshes (refreshes_modify a address fun _ => rfl)
  | takeBalance address =>
    rw [after, state_takeBalance]
    exact .refreshes (refreshes_modify a address fun _ => rfl)
  | reconcile address raw =>
    rw [after, state_reconcile]
    exact .refreshes (refreshes_modify a address fun _ => rfl)
  | install v =>
    rw [after, state_install]
    exact .refreshes (refreshes_modify a v.address fun _ => rfl)
  | sync oracle o address => exact .refreshes (refreshes_sync oracle a address o)
  | applyTransfer t => exact .refreshes (refreshes_applyTransfer c.digests t a)

end Steps

end WatchWallet.Agent
