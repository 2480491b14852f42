import WatchWallet.Proofs.Agent.Managed
import WatchWallet.Proofs.Agent.StateFile

/-!
Which records are accepted, and what the agent of a record is.

Of a record the depth, the length of the root key and every address are looked at, and nothing
else. The two tables may list different addresses, the main one need not be among them, and the
depth that an address is tracked to may be any. An agent in use has none of this in its record,
but an agent that is rebuilt has exactly what its record has.
-/

namespace WatchWallet

open WatchWallet.Action

namespace AddressRef

section Reading

variable {α : Type} (d : Crypto.Digests) (n : Network)

/-- The entries by address; those that are not read as one are left out. -/
def readAll (entries : List (AddressRef × α)) : List (Address × α) :=
  entries.filterMap fun e => (e.1.resolve d n).toOption.map fun x => (x, e.2)

/-- An entry is read as the address. -/
def Lists (x : Address) (entries : List (AddressRef × α)) : Prop :=
  ∃ e ∈ entries, e.1.resolve d n = .ok x

variable {d n}

lemma readAll_cons_of_ok {r : AddressRef} {x : Address} (h : r.resolve d n = .ok x) (v : α)
    (entries : List (AddressRef × α)) :
    readAll d n ((r, v) :: entries) = (x, v) :: readAll d n entries :=
  List.filterMap_cons_some (by rw [h]; rfl)

lemma exists_mem_readAll_iff {x : Address} {entries : List (AddressRef × α)} :
    (∃ e ∈ readAll d n entries, e.1 = x) ↔ Lists d n x entries := by
  constructor
  · rintro ⟨p, hp, rfl⟩
    obtain ⟨e, he, hread⟩ := List.mem_filterMap.mp hp
    cases hr : e.1.resolve d n with
    | error err => rw [hr] at hread; cases hread
    | ok y =>
      rw [hr] at hread
      obtain rfl := Option.some.inj hread
      exact ⟨e, he, hr⟩
  · rintro ⟨e, he, hx⟩
    refine ⟨(x, e.2), List.mem_filterMap.mpr ⟨e, he, ?_⟩, rfl⟩
    rw [hx]
    rfl

/-- A loop over entries that stops at one that cannot be read. -/
lemma yields_forM_iff {τ : Type} {op : τ → Address → α → τ} {f : AddressRef × α → Action Agent Unit}
    (put : τ → Agent)
    (hok : ∀ {r x}, r.resolve d n = .ok x → ∀ v m, Yields (f (r, v)) (put m) () (put (op m x v)))
    (hfails : ∀ {r e}, r.resolve d n = .error e → ∀ v m, (run (f (r, v)) (put m)).result = .error e)
    {entries : List (AddressRef × α)} {m : τ} {b : Agent} :
    Yields (entries.forM f) (put m) () b ↔ (∀ e ∈ entries, ∃ x, e.1.resolve d n = .ok x) ∧
      b = put ((readAll d n entries).foldl (fun m e => op m e.1 e.2) m) := by
  induction entries generalizing m with
  | nil =>
    constructor
    · rintro ⟨-, rfl⟩
      exact ⟨by simp, rfl⟩
    · rintro ⟨-, rfl⟩
      exact ⟨rfl, rfl⟩
  | cons e entries ih =>
    obtain ⟨r, v⟩ := e
    rw [List.forall_mem_cons]
    cases hr : r.resolve d n with
    | error err =>
      constructor
      · intro h
        obtain ⟨u, t, hfirst, -⟩ := yields_bind_iff.mp h
        exact absurd (hfails hr v m) (hfirst.ne_error err)
      · rintro ⟨⟨⟨x, hx⟩, -⟩, -⟩
        cases hx
    | ok x =>
      rw [readAll_cons_of_ok hr, List.foldl_cons]
      constructor
      · intro h
        obtain ⟨u, t, hfirst, hrest⟩ := yields_bind_iff.mp h
        obtain rfl := (hok hr v m).2.symm.trans hfirst.2
        obtain ⟨hall, hb⟩ := ih.mp hrest
        exact ⟨⟨⟨x, rfl⟩, hall⟩, hb⟩
      · rintro ⟨⟨-, hall⟩, hb⟩
        exact yields_bind (hok hr v m) (ih.mpr ⟨hall, hb⟩)

end Reading

end AddressRef

open AddressRef

namespace AgentRecord

variable (c : Crypto.Suite) (r : AgentRecord)

/-- All that is asked of a record. -/
structure Accepted : Prop where
  depth_le : r.depth ≤ maxDepth
  root_length : r.rootKey.publicKey = [] ∨ r.rootKey.publicKey.length = 33
  reads_keys : ∀ e ∈ r.keys.toList, ∃ x, e.1.resolve c.digests r.network = .ok x
  reads_layers : ∀ e ∈ r.layers.toList, ∃ x, e.1.resolve c.digests r.network = .ok x

def mainAddress : Address := Address.ofKey c.digests r.network r.mainType r.rootKey.publicKey

def root : Option Root :=
  if r.rootKey.publicKey.isEmpty then none else some ⟨r.rootKey, r.mainAddress c⟩

/-- The agent of a record. Of several keys for one address the first counts, of several layers
the last. -/
def agent : Agent where
  registry := ⟨r.network, r.mainType, r.root c, (readAll c.digests r.network r.keys.toList).foldl
    (fun m e => m.insertIfNew e.1 e.2) ∅⟩
  tracker := ⟨(readAll c.digests r.network r.layers.toList).foldl
    (fun m e => m.insert e.1 e.2) ∅⟩
  depth := r.depth

/-- The tables list the same addresses, the main one among them, and the layers that count are of
a depth that is allowed. -/
structure Consistent : Prop where
  lists_iff : ∀ x, Lists c.digests r.network x r.layers.toList ↔
    Lists c.digests r.network x r.keys.toList
  lists_main : Lists c.digests r.network (r.mainAddress c) r.keys.toList
  depth_le : ∀ x l, (readAll c.digests r.network r.layers.toList).reverse.lookup x = some l →
    l.depth ≤ maxDepth

variable {c r}

lemma getElem?_keys_agent (x : Address) : (r.agent c).registry.keys[x]? =
    (readAll c.digests r.network r.keys.toList).lookup x := by
  rw [agent, Entries.getElem?_foldl_insertIfNew, Std.ExtTreeMap.getElem?_empty, Option.none_or]

lemma getElem?_layers_agent (x : Address) : (r.agent c).tracker.layers[x]? =
    (readAll c.digests r.network r.layers.toList).reverse.lookup x := by
  rw [agent, Entries.getElem?_foldl_insert, Std.ExtTreeMap.getElem?_empty, Option.or_none]

lemma mem_keys_agent_iff (x : Address) :
    x ∈ (r.agent c).registry.keys ↔ Lists c.digests r.network x r.keys.toList := by
  rw [← Std.ExtTreeMap.isSome_getElem?_iff_mem, getElem?_keys_agent, ← exists_mem_readAll_iff,
    List.lookup_isSome_iff]
  simp only [beq_iff_eq, eq_comm (a := x)]

lemma mem_layers_agent_iff (x : Address) :
    x ∈ (r.agent c).tracker.layers ↔ Lists c.digests r.network x r.layers.toList := by
  rw [← Std.ExtTreeMap.isSome_getElem?_iff_mem, getElem?_layers_agent, ← exists_mem_readAll_iff,
    List.lookup_isSome_iff]
  simp only [List.mem_reverse, beq_iff_eq, eq_comm (a := x)]

end AgentRecord

namespace Agent

variable {c : Crypto.Suite} {r : AgentRecord} {a b : Agent}

/-! ### Filling an agent -/

lemma yields_fillKeys_iff :
    Yields (r.keys.toList.forM fun (ref, k) => restoreKey c r.network ref k) a () b ↔
      (∀ e ∈ r.keys.toList, ∃ x, e.1.resolve c.digests r.network = .ok x) ∧
      b = { a with registry := { a.registry with
        keys := (readAll c.digests r.network r.keys.toList).foldl
          (fun m e => m.insertIfNew e.1 e.2) a.registry.keys } } :=
  AddressRef.yields_forM_iff (fun m => { a with registry := { a.registry with keys := m } })
    (fun hx k m => yields_restoreKey hx k _)
    (fun he k m => by simp [restoreKey, he, run_bind])

lemma yields_fillLayers_iff :
    Yields (r.layers.toList.forM fun (ref, l) => restoreLayers c r.network ref l) a () b ↔
      (∀ e ∈ r.layers.toList, ∃ x, e.1.resolve c.digests r.network = .ok x) ∧
      b = { a with tracker := ⟨(readAll c.digests r.network r.layers.toList).foldl
        (fun m e => m.insert e.1 e.2) a.tracker.layers⟩ } :=
  AddressRef.yields_forM_iff (fun m => { a with tracker := ⟨m⟩ })
    (fun hx l m => yields_restoreLayers hx l _)
    (fun he l m => by simp [restoreLayers, he, run_bind])

lemma yields_fillAddresses_iff :
    Yields (fillAddresses c r) a () b ↔
      (∀ e ∈ r.keys.toList, ∃ x, e.1.resolve c.digests r.network = .ok x) ∧
      (∀ e ∈ r.layers.toList, ∃ x, e.1.resolve c.digests r.network = .ok x) ∧
      b = ⟨{ a.registry with
        keys := (readAll c.digests r.network r.keys.toList).foldl
          (fun m e => m.insertIfNew e.1 e.2) a.registry.keys },
        ⟨(readAll c.digests r.network r.layers.toList).foldl
          (fun m e => m.insert e.1 e.2) a.tracker.layers⟩, a.depth⟩ := by
  rw [fillAddresses, yields_bind_iff]
  constructor
  · rintro ⟨_, t, hkeys, hrest⟩
    obtain ⟨hreads, rfl⟩ := yields_fillKeys_iff.mp hkeys
    obtain ⟨_, u, hlayers, hlog⟩ := yields_bind_iff.mp hrest
    obtain ⟨hreads', rfl⟩ := yields_fillLayers_iff.mp hlayers
    exact ⟨hreads, hreads', hlog.2.symm⟩
  · rintro ⟨hreads, hreads', rfl⟩
    exact ⟨(), _, yields_fillKeys_iff.mpr ⟨hreads, rfl⟩,
      yields_bind (yields_fillLayers_iff.mpr ⟨hreads', rfl⟩) ⟨rfl, rfl⟩⟩

/-! ### Rebuilding an agent -/

lemma yields_fill_iff :
    Yields (fill c r) ⟨.empty r.network r.mainType, .empty, r.depth⟩ () a ↔
      (r.rootKey.publicKey = [] ∨ r.rootKey.publicKey.length = 33) ∧
      (∀ e ∈ r.keys.toList, ∃ x, e.1.resolve c.digests r.network = .ok x) ∧
      (∀ e ∈ r.layers.toList, ∃ x, e.1.resolve c.digests r.network = .ok x) ∧ a = r.agent c := by
  rw [fill_eq]
  by_cases hempty : r.rootKey.publicKey = []
  · have hroot : r.root c = none := by rw [AgentRecord.root, hempty]; rfl
    rw [if_neg (by simp [hempty]), yields_fillAddresses_iff, AgentRecord.agent, hroot]
    simp only [hempty, true_or, true_and]
    rfl
  have hroot : r.root c = some ⟨r.rootKey, r.mainAddress c⟩ := if_neg (by simpa using hempty)
  rw [if_pos (by simpa using hempty), yields_bind_iff]
  by_cases hlen : r.rootKey.publicKey.length = 33
  · simp only [hlen, or_true, true_and]
    constructor
    · rintro ⟨_, t, hset, hrest⟩
      obtain rfl := (yields_setRoot hlen _).2.symm.trans hset.2
      rw [AgentRecord.agent, hroot]
      exact yields_fillAddresses_iff.mp hrest
    · intro h
      rw [AgentRecord.agent, hroot] at h
      exact ⟨(), _, yields_setRoot hlen _, yields_fillAddresses_iff.mpr h⟩
  · constructor
    · rintro ⟨_, t, hset, -⟩
      rw [Yields, run_setRoot_of_ne hlen] at hset
      cases hset.1
    · rintro ⟨h | h, -⟩
      · exact absurd h hempty
      · exact absurd h hlen

/-- **What a record gives**: it is accepted if it is right in the few ways that are looked at, and
then gives its own agent. -/
theorem result_restore_eq_ok_iff {σ : Type} {s : σ} :
    (run (restore c r) s).result = .ok a ↔ r.Accepted c ∧ a = r.agent c := by
  by_cases hdepth : r.depth ≤ maxDepth
  · have hfill : (run (restore c r) s).result = .ok a ↔
        Yields (fill c r) ⟨.empty r.network r.mainType, .empty, r.depth⟩ () a := by
      rw [restore, create_of_le hdepth]
      rcases hrun : run (fill c r) ⟨.empty r.network r.mainType, .empty, r.depth⟩ with ⟨res, t, es⟩
      cases res <;> simp [run_bind, hrun, Yields, Except.map]
    rw [hfill, yields_fill_iff]
    constructor
    · rintro ⟨hroot, hkeys, hlayers, ha⟩
      exact ⟨⟨hdepth, hroot, hkeys, hlayers⟩, ha⟩
    · rintro ⟨⟨-, hroot, hkeys, hlayers⟩, ha⟩
      exact ⟨hroot, hkeys, hlayers, ha⟩
  · constructor
    · intro h
      simp [restore, create, checkDepth, UInt32.not_le.mp hdepth, run_bind] at h
    · rintro ⟨hr, -⟩
      exact absurd hr.depth_le hdepth

lemma result_load {path text : String} {files : Files} (h : files.contents[path]? = some text)
    (hr : StateFile.read text = .ok r) :
    (run (load c path) files).result = (run (restore c r) files).result := by
  simp [load, StateFile.load, run_bind, h, hr]

lemma result_restore_congr {σ τ : Type} (s : σ) (t : τ) :
    (run (restore c r) s).result = (run (restore c r) t).result := by
  rw [restore, restore]
  cases create r.network r.mainType r.depth <;> simp [run_bind]

/-! ### What may be wrong with an agent of a record -/

/-- Managed and tracked addresses agree, the main address is one of them, and none is tracked to a
depth that is not allowed. -/
structure Coherent (a : Agent) : Prop where
  tracked_iff : ∀ x : Address, x ∈ a.tracker.layers ↔ x ∈ a.addresses
  exists_main : ∃ main ∈ a.addresses, a.mainAddress = .ok main
  depth_le : ∀ x l, a.layersOf x = .ok l → l.depth ≤ maxDepth

lemma Managed.coherent (h : Managed c a) : Coherent a := by
  obtain ⟨root, hroot, hmem⟩ := h.exists_main
  refine ⟨fun x => (h.tracked_iff x).trans mem_addresses.symm, ?_, fun x l => ?_⟩
  · exact ⟨root.address, mem_addresses.mpr hmem, by rw [mainAddress, Registry.mainAddress, hroot]⟩
  · exact h.depth_le_of_layersOf

/-- An agent has what its record has, good or bad. -/
lemma coherent_agent_iff (hroot : r.rootKey.publicKey ≠ []) :
    Coherent (r.agent c) ↔ r.Consistent c := by
  have hmain : (r.agent c).mainAddress = .ok (r.mainAddress c) := by
    have hsome : (r.agent c).registry.root = some ⟨r.rootKey, r.mainAddress c⟩ :=
      if_neg (by simpa using hroot)
    rw [mainAddress, Registry.mainAddress, hsome]
  have hmem (x : Address) : x ∈ (r.agent c).addresses ↔
      Lists c.digests r.network x r.keys.toList := mem_addresses.trans (r.mem_keys_agent_iff x)
  constructor
  · rintro ⟨htracked, ⟨main, hin, hmain'⟩, hdepth⟩
    obtain rfl : main = r.mainAddress c := Except.ok.inj (hmain'.symm.trans hmain)
    refine ⟨fun x => ?_, (hmem _).mp hin, fun x l hl => ?_⟩
    · rw [← r.mem_layers_agent_iff, htracked, hmem]
    · rw [← r.getElem?_layers_agent] at hl
      exact hdepth x l (Tracker.layersOf_of_some hl)
  · rintro ⟨hlists, hin, hdepth⟩
    refine ⟨fun x => ?_, ⟨r.mainAddress c, (hmem _).mpr hin, hmain⟩, fun x l hl => ?_⟩
    · rw [r.mem_layers_agent_iff, hlists, hmem]
    · rw [layersOf, Tracker.layersOf_eq_ok_iff, r.getElem?_layers_agent] at hl
      exact hdepth x l hl

/-- The record of an agent in use has nothing wrong with it. -/
theorem InUse.consistent_snapshot (h : InUse c a) : a.snapshot.Consistent c := by
  have hrebuilt := (h.reachable.yields_restore ()).1
  obtain ⟨-, ha⟩ := result_restore_eq_ok_iff.mp hrebuilt
  obtain ⟨root, hroot, -⟩ := h.managed.exists_main
  have hkey : a.snapshot.rootKey = root.key := by
    rw [snapshot, Registry.rootKey, hroot]
    rfl
  have hlen := (h.reachable.sound.root_eq root hroot).1
  have hcoherent := h.managed.coherent
  rw [ha] at hcoherent
  refine (coherent_agent_iff fun hnil => ?_).mp hcoherent
  rw [← hkey, hnil] at hlen
  cases hlen

/-- Synchronising is refused for its depth just where an address is tracked to one that is not
allowed. -/
lemma depth_le_iff_sync : (∀ x l, a.layersOf x = .ok l → l.depth ≤ maxDepth) ↔
    ∀ (ω : Type) (oracle : Oracle ω), oracle.Rejects → ∀ x o e,
      (run (sync oracle x) (a, o)).result = .error e → e.kind ≠ .minConfirmationsTooHigh := by
  constructor
  · intro hdepth ω oracle hrejects x o e hfail
    cases hl : a.tracker.layers[x]? with
    | none =>
      rw [run_sync_of_none oracle o hl] at hfail
      obtain rfl := Except.error.inj hfail
      simp [Error.kind]
    | some l =>
      have hmax := hdepth x l (Tracker.layersOf_of_some hl)
      rw [sync_eq_error_iff oracle o hl hmax] at hfail
      rcases hrejects _ _ _ _ _ hfail with hkind | hkind <;> simp [hkind]
  · intro hsync x l hl
    by_contra hdepth
    have hrun := run_sync_of_depth Fixed.oracle ⟨none, .empty, ⟨[], 0⟩, []⟩
      (Tracker.layersOf_eq_ok_iff.mp hl) (UInt32.not_le.mp hdepth)
    exact hsync Fixed Fixed.oracle Fixed.oracle_rejects x _ _ (congrArg Outcome.result hrun) rfl

/-- **Agents of records**: a record with a root key, from wherever it comes, gives an agent that
manages what it tracks, its main address too, and tracks to depths that are allowed, exactly if it
lists the same addresses in both tables, the main one among them, and such depths. It is not asked
for any of this. -/
theorem coherent_of_restored_iff (hroot : r.rootKey.publicKey ≠ []) :
    (∀ (σ : Type) (s : σ), (∃ a, (run (restore c r) s).result = .ok a) ↔ r.Accepted c) ∧
    (∀ (σ : Type) (s : σ) (a : Agent), (run (restore c r) s).result = .ok a →
      (Coherent a ↔ r.Consistent c) ∧
      ((∀ (ω : Type) (oracle : Oracle ω), oracle.Rejects → ∀ x o e,
          (run (sync oracle x) (a, o)).result = .error e → e.kind ≠ .minConfirmationsTooHigh) ↔
        ∀ x l, (readAll c.digests r.network r.layers.toList).reverse.lookup x = some l →
          l.depth ≤ maxDepth)) ∧
    ∀ (path text : String) (files : Files) (σ : Type) (s : σ),
      files.contents[path]? = some text → StateFile.read text = .ok r →
        (run (load c path) files).result = (run (restore c r) s).result := by
  refine ⟨fun σ s => ?_, fun σ s a ha => ?_, fun path text files σ s htext hread => ?_⟩
  · constructor
    · rintro ⟨a, ha⟩
      exact (result_restore_eq_ok_iff.mp ha).1
    · exact fun hr => ⟨r.agent c, result_restore_eq_ok_iff.mpr ⟨hr, rfl⟩⟩
  · obtain ⟨-, rfl⟩ := result_restore_eq_ok_iff.mp ha
    refine ⟨coherent_agent_iff hroot, ?_⟩
    rw [← depth_le_iff_sync]
    simp only [layersOf, Tracker.layersOf_eq_ok_iff, r.getElem?_layers_agent]
  · exact (result_load htext hread).trans (result_restore_congr files s)

/-! ### Records of one entry in each table -/

section OneEntry

open Address (Belongs)

lemma readAll_ref {α : Type} {d : Crypto.Digests} {n : Network} {x : Address} (hx : Belongs d n x)
    (v : α) : readAll d n [(x.ref, v)] = [(x, v)] :=
  readAll_cons_of_ok hx.resolve_ref v []

/-- A record with a key for one address and layers for one. -/
def recordOf (n : Network) (k : ExtendedKey) (keyed tracked : Address) (l : Layers) : AgentRecord :=
  ⟨n, .p2wpkh, (∅ : AddressRef.Table ExtendedKey).insert keyed.ref k,
    (∅ : AddressRef.Table Layers).insert tracked.ref l, 0, k⟩

variable {n : Network} {k : ExtendedKey} {x y : Address} {l : Layers}

lemma keys_recordOf : (recordOf n k x y l).keys.toList = [(x.ref, k)] := toList_insert_ref x k

lemma layers_recordOf : (recordOf n k x y l).layers.toList = [(y.ref, l)] := toList_insert_ref y l

lemma accepted_recordOf (hk : k.publicKey.length = 33) (hx : Belongs c.digests n x)
    (hy : Belongs c.digests n y) : (recordOf n k x y l).Accepted c := by
  refine ⟨by simp [recordOf], Or.inr hk, ?_, ?_⟩
  · rw [keys_recordOf]
    simpa using ⟨x, hx.resolve_ref⟩
  · rw [layers_recordOf]
    simpa using ⟨y, hy.resolve_ref⟩

lemma lists_keys_recordOf_iff (hx : Belongs c.digests n x) {z : Address} :
    Lists c.digests n z (recordOf n k x y l).keys.toList ↔ x = z := by
  rw [keys_recordOf, ← exists_mem_readAll_iff, readAll_ref hx]
  simp

lemma lookup_layers_recordOf (hy : Belongs c.digests n y) (z : Address) :
    (readAll c.digests n (recordOf n k x y l).layers.toList).reverse.lookup z =
      if z = y then some l else none := by
  rw [layers_recordOf, readAll_ref hy, List.reverse_singleton, List.lookup_cons, List.lookup_nil]
  split_ifs with hz
  · simp [hz]
  · simp [beq_false_of_ne hz]

lemma lists_layers_recordOf_iff (hy : Belongs c.digests n y) {z : Address} :
    Lists c.digests n z (recordOf n k x y l).layers.toList ↔ y = z := by
  rw [layers_recordOf, ← exists_mem_readAll_iff, readAll_ref hy]
  simp

end OneEntry

/-- A record that lists the main address in both tables. -/
theorem coherent_of_restored_iff_of_main :
    let k : ExtendedKey := ⟨Bytes.zeros 33, [], []⟩
    let main := Address.ofKey .standard .regtest .p2wpkh k.publicKey
    let r := recordOf .regtest k main main (.fresh 6)
    ∃ a, (run (restore .standard r) ()).result = .ok a ∧ Coherent a ∧
      ∀ x o e, (run (sync Fixed.oracle x) (a, o)).result = .error e →
        e.kind ≠ .minConfirmationsTooHigh := by
  intro k main r
  have hmain : Address.Belongs Crypto.Suite.standard.digests .regtest main :=
    Address.belongs_ofKey .p2wpkh k.publicKey
  have hdepth : ∀ x l, (readAll Crypto.Suite.standard.digests .regtest
      r.layers.toList).reverse.lookup x = some l → l.depth ≤ maxDepth := by
    intro x l hl
    rw [lookup_layers_recordOf hmain] at hl
    split_ifs at hl
    obtain rfl := Option.some.inj hl
    decide
  have hconsistent : r.Consistent .standard :=
    ⟨fun x => (lists_layers_recordOf_iff hmain).trans (lists_keys_recordOf_iff hmain).symm,
      (lists_keys_recordOf_iff hmain).mpr rfl, hdepth⟩
  obtain ⟨haccepted, hrestored, -⟩ :=
    coherent_of_restored_iff (c := .standard) (r := r) (List.cons_ne_nil _ _)
  obtain ⟨a, ha⟩ := (haccepted Unit ()).mpr (accepted_recordOf rfl hmain hmain)
  obtain ⟨hcoherent, hsync⟩ := hrestored Unit () a ha
  exact ⟨a, ha, hcoherent.mpr hconsistent,
    hsync.mpr hdepth Fixed Fixed.oracle Fixed.oracle_rejects⟩

/-- A record with a key for one address and layers for another, the main one, to a depth that is
not allowed. Its agent tracks what it does not manage, manages what it does not track, does not
manage its main address, and is refused its depth by every oracle. -/
theorem restored_not_coherent :
    let k : ExtendedKey := ⟨2 :: Bytes.ofNatFixed 32
      0x79be667ef9dcbbac55a06295ce870b07029bfcdb2dce28d959f2815b16f81798, [], []⟩
    let main := Address.ofKey .standard .regtest .p2wpkh k.publicKey
    let other := Address.ofKey .standard .regtest .p2pkh k.publicKey
    ∃ a, (run (restore .standard (recordOf .regtest k other main (.fresh 7))) ()).result = .ok a ∧
      a.mainAddress = .ok main ∧ (main ∈ a.tracker.layers ∧ main ∉ a.addresses) ∧
      (other ∈ a.addresses ∧ other ∉ a.tracker.layers) ∧
      ∀ (ω : Type) (oracle : Oracle ω) (o : ω),
        (run (sync oracle main) (a, o)).result = .error (.depthTooHigh 7) := by
  intro k main other
  set r := recordOf .regtest k other main (.fresh 7) with hr
  have hmain : Address.Belongs Crypto.Suite.standard.digests .regtest main :=
    Address.belongs_ofKey .p2wpkh k.publicKey
  have hother : Address.Belongs Crypto.Suite.standard.digests .regtest other :=
    Address.belongs_ofKey .p2pkh k.publicKey
  have hne : other ≠ main := fun h => nomatch congrArg Address.scriptType h
  have hlen : k.publicKey.length = 33 := by simp [k]
  have hmanaged (x : Address) : x ∈ (r.agent .standard).addresses ↔ other = x :=
    mem_addresses.trans ((r.mem_keys_agent_iff x).trans (lists_keys_recordOf_iff hother))
  have htracked (x : Address) : x ∈ (r.agent .standard).tracker.layers ↔ main = x :=
    (r.mem_layers_agent_iff x).trans (lists_layers_recordOf_iff hmain)
  have hlayers : (r.agent .standard).tracker.layers[main]? = some (.fresh 7) := by
    rw [r.getElem?_layers_agent]
    exact (lookup_layers_recordOf hmain main).trans (if_pos rfl)
  refine ⟨r.agent .standard, result_restore_eq_ok_iff.mpr
    ⟨accepted_recordOf hlen hother hmain, rfl⟩, rfl, ⟨(htracked main).mpr rfl, ?_⟩,
    ⟨(hmanaged other).mpr rfl, ?_⟩, fun ω oracle o => ?_⟩
  · exact fun h => hne ((hmanaged main).mp h)
  · exact fun h => hne ((htracked other).mp h).symm
  · have hhigh : maxDepth < (Layers.fresh 7).depth := by decide
    exact congrArg Outcome.result (run_sync_of_depth oracle o hlayers hhigh)

end Agent

end WatchWallet
