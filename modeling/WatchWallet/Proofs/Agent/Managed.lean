import WatchWallet.Oracle.Fixed
import WatchWallet.Proofs.Agent.Restore
import WatchWallet.Proofs.Key.Composition

/-!
What holds of an agent from the time it took a root key.

The registry and the tracker are two maps, changed by separate calls. An agent in use has the same
addresses in both, its main address among them, and each with a key that is derived from the root
key. So an operation on an address is refused exactly if the address is not managed.
-/

namespace WatchWallet

open WatchWallet.Action

/-- Fails to report the outputs of an address only by rejecting, or by failing to sign. -/
def Oracle.Rejects {ω : Type} (oracle : Oracle ω) : Prop :=
  ∀ n x depth o e, (run (oracle.snapshot n x depth) o).result = .error e →
    e.kind = .oracleReject ∨ e.kind = .signingFailure

lemma Fixed.oracle_rejects : Fixed.oracle.Rejects := by
  rintro n x depth o e h
  cases hrefusal : o.refusal with
  | none => simp [Fixed.oracle, Fixed.unlessRefused, run_bind, hrefusal] at h
  | some words =>
    obtain rfl : .reported .oracleReject words = e := by
      simpa [Fixed.oracle, Fixed.unlessRefused, run_bind, hrefusal] using h
    exact Or.inl rfl

namespace Agent

/-- The address is that of the key, on the network, and the key is derived from the root key. -/
structure Derived (c : Crypto.Suite) (root : ExtendedKey) (n : Network) (x : Address)
    (k : ExtendedKey) : Prop where
  network_eq : x.network = n
  address_eq : x = Address.ofKey c.digests n x.scriptType k.publicKey
  exists_path : ∃ p : Path, p.length ≤ maxPathLength ∧ k.path = root.path ++ p ∧
    ∃ child, Key.derivePublic c root.publicKey root.chainCode p = .ok child ∧
      child.key = k.publicKey

/-- Managed and tracked addresses agree, and the main address is one of them. -/
structure Managed (c : Crypto.Suite) (a : Agent) : Prop where
  tracked_iff : ∀ x : Address, x ∈ a.tracker.layers ↔ x ∈ a.registry.keys
  exists_main : ∃ root, a.registry.root = some root ∧ root.address ∈ a.registry.keys
  derived : ∀ (x : Address) (k : ExtendedKey), a.registry.keys[x]? = some k →
    Derived c a.registry.rootKey a.network x k
  depth_le : ∀ (x : Address) (l : Layers), a.tracker.layers[x]? = some l → l.depth ≤ maxDepth

variable {c : Crypto.Suite} {a b : Agent}

lemma derived_of_derive {root k : ExtendedKey} {p : Path} (hp : p.length ≤ maxPathLength)
    (h : root.derive c p = .ok k) (n : Network) (t : ScriptType) :
    Derived c root n (Address.ofKey c.digests n t k.publicKey) k := by
  obtain ⟨child, hchild, rfl⟩ := ExtendedKey.derive_eq_ok_iff.mp h
  refine ⟨Address.network_ofKey n t _, ?_, p, hp, rfl, child, hchild, rfl⟩
  rw [Address.scriptType_ofKey]

/-- The root key itself is derived along the empty path. -/
lemma derived_root (root : ExtendedKey) (n : Network) (t : ScriptType) :
    Derived c root n (Address.ofKey c.digests n t root.publicKey) root := by
  refine ⟨Address.network_ofKey n t _, ?_, [], Nat.zero_le _, (List.append_nil _).symm, ?_⟩
  · rw [Address.scriptType_ofKey]
  · exact ⟨⟨root.publicKey, Key.startChain root.chainCode⟩, rfl, rfl⟩

lemma managed_adopting (hdepth : a.depth ≤ maxDepth) (k : ExtendedKey) :
    Managed c (adopting c a k) := by
  refine ⟨?_, ⟨rootOf c a k, rfl, ?_⟩, ?_, ?_⟩
  · intro x
    simp [adopting]
  · simp [adopting]
  · intro x key hkey
    obtain ⟨rfl, rfl⟩ : (rootOf c a k).address = x ∧ k = key := by
      simpa [adopting, Std.ExtTreeMap.getElem?_insert] using hkey
    exact derived_root k a.network a.registry.mainType
  · intro x l hl
    obtain ⟨-, rfl⟩ : (rootOf c a k).address = x ∧ Layers.fresh a.depth = l := by
      simpa [adopting, Std.ExtTreeMap.getElem?_insertIfNew] using hl
    exact hdepth

lemma Managed.managing (ha : Managed c a) {root : Root} {path : Path} {t : ScriptType}
    {depth : UInt32} {k : ExtendedKey} (hdepth : depth ≤ maxDepth)
    (hpath : path.length ≤ maxPathLength) (hroot : a.registry.root = some root)
    (hk : root.key.derive c path = .ok k) :
    Managed c (a.managing (Address.ofKey c.digests a.network t k.publicKey) k depth) := by
  have hkey : a.registry.rootKey = root.key := by rw [Registry.rootKey, hroot]; rfl
  set x := Address.ofKey c.digests a.network t k.publicKey with hx
  refine ⟨?_, ?_, ?_, ?_⟩
  · intro y
    simp only [Agent.managing, Std.ExtTreeMap.mem_insertIfNew, ha.tracked_iff y]
  · obtain ⟨root', hroot', hmain⟩ := ha.exists_main
    exact ⟨root', hroot', Std.ExtTreeMap.mem_insertIfNew.mpr (Or.inr hmain)⟩
  · intro y key hy
    rw [Agent.managing, Std.ExtTreeMap.getElem?_insertIfNew] at hy
    split_ifs at hy with hnew
    · obtain rfl : x = y := Std.LawfulEqOrd.compare_eq_iff_eq.mp hnew.1
      obtain rfl : k = key := Option.some.inj hy
      have hderived := derived_of_derive hpath hk a.network t
      rw [← hkey, ← hx] at hderived
      exact hderived
    · exact ha.derived y key hy
  · intro y l hl
    rw [Agent.managing, Std.ExtTreeMap.getElem?_insertIfNew] at hl
    split_ifs at hl with hnew
    · obtain rfl : Layers.fresh depth = l := Option.some.inj hl
      exact hdepth
    · exact ha.depth_le y l hl

lemma Managed.dropping (ha : Managed c a) {x : Address}
    (hmain : ∀ root, a.registry.root = some root → root.address ≠ x) :
    Managed c (a.dropping x) := by
  refine ⟨?_, ?_, ?_, ?_⟩
  · intro y
    simp only [Agent.dropping, Std.ExtTreeMap.mem_erase, ha.tracked_iff y]
  · obtain ⟨root, hroot, hmem⟩ := ha.exists_main
    refine ⟨root, hroot, Std.ExtTreeMap.mem_erase.mpr ⟨?_, hmem⟩⟩
    intro heq
    exact hmain root hroot (Std.LawfulEqOrd.compare_eq_iff_eq.mp heq).symm
  · intro y key hy
    rw [Agent.dropping, Std.ExtTreeMap.getElem?_erase] at hy
    split_ifs at hy
    exact ha.derived y key hy
  · intro y l hl
    rw [Agent.dropping, Std.ExtTreeMap.getElem?_erase] at hl
    split_ifs at hl
    exact ha.depth_le y l hl

lemma Managed.refreshes (ha : Managed c a) (h : Refreshes a b) : Managed c b := by
  obtain ⟨registry, tracker, depth⟩ := b
  obtain ⟨rfl, rfl, hsame⟩ := h
  refine ⟨fun x => (hsame.mem_iff x).trans (ha.tracked_iff x), ha.exists_main, ha.derived, ?_⟩
  intro x l hl
  obtain ⟨l', hl', hdepth⟩ := hsame.exists_depth hl
  rw [← hdepth]
  exact ha.depth_le x l' hl'

/-- One call keeps what holds of an agent in use. -/
theorem Managed.step (hs : Sound c a) (ha : Managed c a) (h : Step c a b) : Managed c b := by
  cases h with
  | adopts hk => exact managed_adopting hs.depth_le _
  | manages hdepth hpath hroot hk hnew => exact ha.managing hdepth hpath hroot hk
  | drops hmain hx => exact ha.dropping hmain
  | refreshes h => exact ha.refreshes h

/-- What can become of an agent once it took a root key: further calls, which may fail, and
being rebuilt from its own record. -/
inductive InUse (c : Crypto.Suite) : Agent → Prop
  | initialized {a : Agent} {k : ExtendedKey} (h : Reachable c a)
      (hk : (run (adopt c k) a).result = .ok ()) : InUse c (run (adopt c k) a).state
  | called {a : Agent} (h : InUse c a) (call : Call) : InUse c (after c a call)
  | reloaded {a b : Agent} (h : InUse c a) (hb : (run (restore c a.snapshot) ()).result = .ok b) :
      InUse c b

lemma InUse.reachable (h : InUse c a) : Reachable c a := by
  induction h with
  | @initialized a k h _ => exact .called h (.adopt k)
  | called _ call ih => exact .called ih call
  | reloaded _ hb _ => exact .restored hb

theorem InUse.managed (h : InUse c a) : Managed c a := by
  induction h with
  | @initialized a k h hk =>
    have hlen : k.publicKey.length = 33 := by
      by_contra hne
      rw [run_adopt_of_ne c hne] at hk
      cases hk
    rw [(yields_adopt c hlen a).2]
    exact managed_adopting h.sound.depth_le k
  | called h call ih => exact ih.step h.reachable.sound (step_after c _ call)
  | reloaded h hb ih =>
    -- Being rebuilt changes nothing.
    rw [(h.reachable.yields_restore ()).1] at hb
    obtain rfl := Except.ok.inj hb
    exact ih

/-! ### For whom an agent answers -/

/-- Every operation on an address answers if the address is managed, and refuses otherwise. -/
structure Answers (a : Agent) (x : Address) : Prop where
  keyOf : Guarded (x ∈ a.addresses) x (a.keyOf x)
  layersOf : Guarded (x ∈ a.addresses) x (a.layersOf x)
  query (depth : UInt32) : Guarded (x ∈ a.addresses) x (a.query x depth)
  pending : Guarded (x ∈ a.addresses) x (a.pending x)
  pendingBalance : Guarded (x ∈ a.addresses) x (a.pendingBalance x)
  commit : Guarded (x ∈ a.addresses) x (run (commit x) a).result
  takeUpdate : Guarded (x ∈ a.addresses) x (run (takeUpdate x) a).result
  takeBalance : Guarded (x ∈ a.addresses) x (run (takeBalance x) a).result
  reconcile (raw : Snapshot) : Guarded (x ∈ a.addresses) x (run (reconcile x raw) a).result
  install (us : List Utxo) (tip : UInt32) :
    Guarded (x ∈ a.addresses) x (run (install ⟨x, us, tip⟩) a).result

lemma mem_addresses {x : Address} : x ∈ a.addresses ↔ x ∈ a.registry.keys :=
  Std.ExtTreeMap.mem_keys

lemma keyOf_eq_ok_iff {x : Address} {k : ExtendedKey} :
    a.keyOf x = .ok k ↔ a.registry.keys[x]? = some k := by
  rw [Agent.keyOf, Registry.keyOf]
  cases a.registry.keys[x]? <;> simp

lemma guarded_keyOf (x : Address) : Guarded (x ∈ a.addresses) x (a.keyOf x) := by
  refine ⟨fun hx => ?_, fun hx => ?_⟩
  · have hsome := Std.ExtTreeMap.isSome_getElem?_iff_mem.mpr (mem_addresses.mp hx)
    obtain ⟨k, hk⟩ := Option.isSome_iff_exists.mp hsome
    exact ⟨k, by rw [Agent.keyOf, Registry.keyOf, hk]⟩
  · have hnone := Std.ExtTreeMap.getElem?_eq_none fun hmem => hx (mem_addresses.mpr hmem)
    rw [Agent.keyOf, Registry.keyOf, hnone]

theorem Managed.answers (h : Managed c a) (x : Address) : Answers a x := by
  have hx : x ∈ a.tracker.layers ↔ x ∈ a.addresses := (h.tracked_iff x).trans mem_addresses.symm
  have htake : Guarded (x ∈ a.addresses) x (run (takeUpdate x) a).result :=
    Tracker.guarded_takeUpdate.congr hx
  refine ⟨guarded_keyOf x, Tracker.guarded_layersOf.congr hx, ?_, Tracker.guarded_pending.congr hx,
    (Tracker.guarded_pending.map Update.balance).congr hx, (Tracker.guarded_change _).congr hx,
    htake, ?_, fun raw => (Tracker.guarded_reconcile raw).congr hx,
    fun us _ => (Tracker.guarded_install us).congr hx⟩
  · intro depth
    rw [query_eq]
    exact (Tracker.guarded_layersOf.congr hx).map _
  · rw [result_takeBalance]
    exact htake.map _

lemma Managed.depth_le_of_layersOf (h : Managed c a) {x : Address} {l : Layers}
    (hl : a.layersOf x = .ok l) : l.depth ≤ maxDepth :=
  h.depth_le x l (Tracker.layersOf_eq_ok_iff.mp hl)

/-- Synchronising asks the oracle for a managed address only, and fails then only as the oracle
did. So it is never the depth that is refused, and an address only if it is not managed. -/
structure Syncs {ω : Type} (a : Agent) (oracle : Oracle ω) (x : Address) : Prop where
  refuses : x ∉ a.addresses → ∀ o,
    run (sync oracle x) (a, o) = ⟨.error (.notTracked x.text), (a, o), []⟩
  fails : x ∈ a.addresses → ∃ l, a.layersOf x = .ok l ∧
    ∀ o e, (run (sync oracle x) (a, o)).result = .error e ↔
      (run (oracle.snapshot a.network x l.depth) o).result = .error e
  kind : oracle.Rejects → ∀ o e, (run (sync oracle x) (a, o)).result = .error e →
    e.kind ≠ .minConfirmationsTooHigh ∧ (e.kind = .addressNotTracked ↔ x ∉ a.addresses)

lemma Managed.sync_fails_iff {ω : Type} (h : Managed c a) (oracle : Oracle ω) {x : Address}
    {l : Layers} (hl : a.layersOf x = .ok l) (o : ω) (e : Error) :
    (run (sync oracle x) (a, o)).result = .error e ↔
      (run (oracle.snapshot a.network x l.depth) o).result = .error e :=
  sync_eq_error_iff oracle o (Tracker.layersOf_eq_ok_iff.mp hl) (h.depth_le_of_layersOf hl)

theorem Managed.syncs {ω : Type} (h : Managed c a) (oracle : Oracle ω) (x : Address) :
    Syncs a oracle x := by
  have hrefuse : x ∉ a.addresses → ∀ o,
      run (sync oracle x) (a, o) = ⟨.error (.notTracked x.text), (a, o), []⟩ := by
    intro hx o
    have hnot : x ∉ a.tracker.layers := fun hmem => hx (mem_addresses.mpr ((h.tracked_iff x).mp hmem))
    exact run_sync_of_none oracle o (Std.ExtTreeMap.getElem?_eq_none hnot)
  refine ⟨hrefuse, fun hx => ?_, fun hrejects o e hfail => ?_⟩
  · obtain ⟨l, hl⟩ := (h.answers x).layersOf.answers hx
    exact ⟨l, hl, h.sync_fails_iff oracle hl⟩
  · by_cases hx : x ∈ a.addresses
    · obtain ⟨l, hl⟩ := (h.answers x).layersOf.answers hx
      have hkind := hrejects _ _ _ _ _ ((h.sync_fails_iff oracle hl o e).mp hfail)
      rcases hkind with hkind | hkind <;> simp [hkind, hx]
    · rw [hrefuse hx o] at hfail
      obtain rfl := Except.error.inj hfail
      simp [Error.kind, hx]

/-- **What holds of an agent in use**: managed and tracked addresses are one sorted list that has
the main address, each with its key from the root; and operations answer for just these. -/
theorem InUse.invariant (h : InUse c a) :
    (a.addresses.Pairwise (fun x y => compare x y = .lt) ∧
      a.addresses = a.tracker.layers.keys) ∧
    (∃ main ∈ a.addresses, a.mainAddress = .ok main) ∧
    (∀ x ∈ a.addresses, ∃ k, a.keyOf x = .ok k ∧ Derived c a.registry.rootKey a.network x k) ∧
    (∀ x l, a.layersOf x = .ok l → l.depth ≤ maxDepth) ∧
    (∀ x, Answers a x) ∧
    ∀ (ω : Type) (oracle : Oracle ω) (x : Address), Syncs a oracle x := by
  have hm := h.managed
  refine ⟨⟨Std.ExtTreeMap.ordered_keys, ?_⟩, ?_, ?_, ?_, hm.answers, fun ω => hm.syncs⟩
  · exact Entries.keys_eq_keys fun x => (hm.tracked_iff x).symm
  · obtain ⟨root, hroot, hmem⟩ := hm.exists_main
    refine ⟨root.address, mem_addresses.mpr hmem, ?_⟩
    rw [Agent.mainAddress, Registry.mainAddress, hroot]
  · intro x hx
    obtain ⟨k, hk⟩ := (guarded_keyOf x).answers hx
    refine ⟨k, hk, hm.derived x k ?_⟩
    rw [Agent.keyOf, Registry.keyOf] at hk
    cases hkey : a.registry.keys[x]? with
    | none => rw [hkey] at hk; cases hk
    | some k' =>
      rw [hkey] at hk
      rw [Except.ok.inj hk]
  · exact fun x l => hm.depth_le_of_layersOf

theorem InUse.invariant_of_removals :
    let k : ExtendedKey := ⟨Bytes.zeros 33, [], []⟩
    let a := after .standard (after .standard
      (run (adopt .standard k) ⟨.empty .regtest .p2wpkh, .empty, 6⟩).state (.addWith [] .p2pkh 0))
      (.remove (Address.ofKey .standard .regtest .p2wpkh k.publicKey))
    InUse .standard a ∧ (∃ main ∈ a.addresses, a.mainAddress = .ok main) ∧
      Fixed.oracle.Rejects ∧
      ∀ x o e, (run (sync Fixed.oracle x) (a, o)).result = .error e →
        e.kind ≠ .minConfirmationsTooHigh := by
  intro k a
  have hadopt := yields_adopt .standard (rfl : k.publicKey.length = 33)
    ⟨.empty .regtest .p2wpkh, .empty, 6⟩
  have hstart : InUse .standard
      (run (adopt .standard k) ⟨.empty .regtest .p2wpkh, .empty, 6⟩).state :=
    .initialized (.created (create_of_le (by decide))) hadopt.1
  have huse : InUse .standard a := .called (.called hstart _) _
  obtain ⟨-, hmain, -, -, -, hsync⟩ := InUse.invariant huse
  exact ⟨huse, hmain, Fixed.oracle_rejects, fun x o e hfail =>
    ((hsync Fixed Fixed.oracle x).kind Fixed.oracle_rejects o e hfail).1⟩

end Agent

end WatchWallet
