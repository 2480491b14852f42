import WatchWallet.Agent.Record
import WatchWallet.Crypto.Standard
import WatchWallet.Proofs.Address.Identity
import WatchWallet.Proofs.Agent.Step

/-!
An agent is rebuilt from its record.

Every address of an agent is a genuine one of its network, whatever was done to it and wherever it
came from. So the text of an address, with the network, stands for it, and the record of an agent
lists its entries in their order, under these.
-/

namespace WatchWallet

open WatchWallet.Action

/-! ### Addresses as they are written down -/

namespace Address

/-- A genuine address of the network. -/
structure Belongs (d : Crypto.Digests) (n : Network) (x : Address) : Prop where
  genuine : Genuine d x
  network_eq : x.network = n

variable {d : Crypto.Digests} {n : Network}

lemma belongs_ofKey (t : ScriptType) (publicKey : Bytes) :
    Belongs d n (ofKey d n t publicKey) :=
  ⟨genuine_ofKey n t publicKey, network_ofKey n t publicKey⟩

lemma Belongs.resolve_ref {x : Address} (h : Belongs d n x) : x.ref.resolve d n = .ok x := by
  have hread := h.genuine.decodeOn_text
  rw [h.network_eq] at hread
  rw [AddressRef.resolve, ref, if_pos h.network_eq, hread]

lemma belongs_of_resolve {r : AddressRef} {x : Address} (h : r.resolve d n = .ok x) :
    Belongs d n x := by
  unfold AddressRef.resolve at h
  split_ifs at h
  exact ⟨genuine_of_decodeOn h, (of_decodeOn h).1⟩

end Address

namespace Agent

open Address (Belongs)

lemma mem_of_mem_toList {α : Type} {m : Std.ExtTreeMap Address α} {e : Address × α}
    (h : e ∈ m.toList) : e.1 ∈ m := by
  rw [← Std.ExtTreeMap.mem_keys, ← Std.ExtTreeMap.map_fst_toList_eq_keys]
  exact List.mem_map_of_mem h

/-- The table of a map lists the entries of the map, in their order. -/
lemma toList_tableOf {α : Type} {d : Crypto.Digests} {n : Network}
    {m : Std.ExtTreeMap Address α} (h : ∀ x ∈ m, Belongs d n x) :
    (tableOf m.toList).toList = m.toList.map fun e => (e.1.ref, e.2) := by
  refine Entries.toList_foldl Entries.adds_insertIfNew (List.pairwise_map.mpr ?_)
  refine List.Pairwise.imp_of_mem ?_ (Entries.sorted_toList m)
  intro e f he hf hlt
  have hfirst := (h e.1 (mem_of_mem_toList he)).genuine
  have hsecond := (h f.1 (mem_of_mem_toList hf)).genuine
  exact (hfirst.compare_ref hsecond).trans hlt

lemma toList_insert_ref {α : Type} (x : Address) (v : α) :
    ((∅ : AddressRef.Table α).insert x.ref v).toList = [(x.ref, v)] :=
  Entries.toList_foldl Entries.adds_insert (List.pairwise_singleton _ (x.ref, v))

/-! ### What an agent never loses -/

/-- What holds of an agent from the start, and of one that is rebuilt from any record. -/
structure Sound (c : Crypto.Suite) (a : Agent) : Prop where
  depth_le : a.depth ≤ maxDepth
  root_eq : ∀ root, a.registry.root = some root →
    root.key.publicKey.length = 33 ∧ root = rootOf c a root.key
  keys_belong : ∀ x ∈ a.registry.keys, Belongs c.digests a.network x
  layers_belong : ∀ x ∈ a.tracker.layers, Belongs c.digests a.network x

variable {c : Crypto.Suite} {a b : Agent}

lemma create_eq_ok {n : Network} {t : ScriptType} {depth : UInt32}
    (h : create n t depth = .ok a) : a = ⟨.empty n t, .empty, depth⟩ ∧ depth ≤ maxDepth := by
  unfold create checkDepth at h
  split_ifs at h with hdepth
  · cases h
  · exact ⟨(Except.ok.inj h).symm, UInt32.not_lt.mp hdepth⟩

lemma create_of_le {n : Network} {t : ScriptType} {depth : UInt32} (h : depth ≤ maxDepth) :
    create n t depth = .ok ⟨.empty n t, .empty, depth⟩ := by
  rw [create, checkDepth, if_neg (UInt32.not_lt.mpr h)]
  rfl

lemma sound_create {n : Network} {t : ScriptType} {depth : UInt32}
    (h : create n t depth = .ok a) : Sound c a := by
  obtain ⟨rfl, hdepth⟩ := create_eq_ok h
  exact ⟨hdepth, by simp [Registry.empty], by simp [Registry.empty], by simp [Tracker.empty]⟩

/-- One call keeps what holds of any agent. -/
theorem Sound.step (ha : Sound c a) (h : Step c a b) : Sound c b := by
  cases h with
  | @adopts k hk =>
    have hmain : Belongs c.digests a.network (rootOf c a k).address := Address.belongs_ofKey _ _
    refine ⟨ha.depth_le, ?_, ?_, ?_⟩
    · intro root hroot
      obtain rfl : rootOf c a k = root := Option.some.inj hroot
      exact ⟨hk, rfl⟩
    · exact Entries.forall_mem_insert (by simp) hmain k
    · exact Entries.forall_mem_insertIfNew (by simp) hmain _
  | @manages root path t depth k hdepth hpath hroot hk hnew =>
    have hx : Belongs c.digests a.network (Address.ofKey c.digests a.network t k.publicKey) :=
      Address.belongs_ofKey t k.publicKey
    exact ⟨ha.depth_le, ha.root_eq, Entries.forall_mem_insertIfNew ha.keys_belong hx k,
      Entries.forall_mem_insertIfNew ha.layers_belong hx _⟩
  | drops hmain hx =>
    exact ⟨ha.depth_le, ha.root_eq,
      fun y hy => ha.keys_belong y (Std.ExtTreeMap.mem_of_mem_erase hy),
      fun y hy => ha.layers_belong y (Std.ExtTreeMap.mem_of_mem_erase hy)⟩
  | refreshes h =>
    obtain ⟨registry, tracker, depth⟩ := b
    obtain ⟨rfl, rfl, hsame⟩ := h
    exact ⟨ha.depth_le, ha.root_eq, ha.keys_belong,
      fun x hx => ha.layers_belong x ((hsame.mem_iff x).mp hx)⟩

/-! ### Filling an agent from a record -/

lemma run_setRoot_of_ne {k : ExtendedKey} (hk : k.publicKey.length ≠ 33) (a : Agent) :
    run (onRegistry (Registry.setRoot c k)) a = ⟨.error (.key .rootSize), a, []⟩ := by
  simp [onRegistry, Registry.setRoot, run_bind, hk]

lemma yields_setRoot {k : ExtendedKey} (hk : k.publicKey.length = 33) (a : Agent) :
    Yields (onRegistry (Registry.setRoot c k)) a ()
      { a with registry := { a.registry with root := some (rootOf c a k) } } := by
  simp [Yields, onRegistry, Registry.setRoot, hk, rootOf, network]

lemma yields_restoreKey {n : Network} {r : AddressRef} {x : Address}
    (h : r.resolve c.digests n = .ok x) (k : ExtendedKey) (a : Agent) :
    Yields (restoreKey c n r k) a ()
      { a with registry := { a.registry with keys := a.registry.keys.insertIfNew x k } } := by
  simp [Yields, restoreKey, h, onRegistry, Registry.insert, run_bind, Except.map]

lemma yields_restoreLayers {n : Network} {r : AddressRef} {x : Address}
    (h : r.resolve c.digests n = .ok x) (l : Layers) (a : Agent) :
    Yields (restoreLayers c n r l) a ()
      { a with tracker := ⟨a.tracker.layers.insert x l⟩ } := by
  simp [Yields, restoreLayers, h, onTracker, Tracker.restore, run_bind]

/-- Sound, on a network. -/
def SoundOn (c : Crypto.Suite) (n : Network) (a : Agent) : Prop := Sound c a ∧ a.network = n

lemma leads_setRoot (n : Network) (k : ExtendedKey) :
    Leads (Keeps (SoundOn c n)) (onRegistry (Registry.setRoot c k)) := by
  rintro a ⟨ha, hn⟩
  by_cases hk : k.publicKey.length = 33
  · rw [(yields_setRoot hk a).2]
    refine ⟨⟨ha.depth_le, ?_, ha.keys_belong, ha.layers_belong⟩, hn⟩
    intro root hroot
    obtain rfl : rootOf c a k = root := Option.some.inj hroot
    exact ⟨hk, rfl⟩
  · rw [run_setRoot_of_ne hk]
    exact ⟨ha, hn⟩

lemma leads_restoreKey (n : Network) (r : AddressRef) (k : ExtendedKey) :
    Leads (Keeps (SoundOn c n)) (restoreKey c n r k) := by
  rintro a ⟨ha, hn⟩
  cases hr : r.resolve c.digests n with
  | error e => simpa [restoreKey, hr, run_bind] using ⟨ha, hn⟩
  | ok x =>
    have hx : Belongs c.digests a.network x := hn ▸ Address.belongs_of_resolve hr
    rw [(yields_restoreKey hr k a).2]
    have hkeys := Entries.forall_mem_insertIfNew ha.keys_belong hx k
    exact ⟨⟨ha.depth_le, ha.root_eq, hkeys, ha.layers_belong⟩, hn⟩

lemma leads_restoreLayers (n : Network) (r : AddressRef) (l : Layers) :
    Leads (Keeps (SoundOn c n)) (restoreLayers c n r l) := by
  rintro a ⟨ha, hn⟩
  cases hr : r.resolve c.digests n with
  | error e => simpa [restoreLayers, hr, run_bind] using ⟨ha, hn⟩
  | ok x =>
    have hx : Belongs c.digests a.network x := hn ▸ Address.belongs_of_resolve hr
    rw [(yields_restoreLayers hr l a).2]
    have hlayers := Entries.forall_mem_insert ha.layers_belong hx l
    exact ⟨⟨ha.depth_le, ha.root_eq, ha.keys_belong, hlayers⟩, hn⟩

/-- Filling an agent that has its root. -/
def fillAddresses (c : Crypto.Suite) (r : AgentRecord) : Action Agent Unit := do
  r.keys.toList.forM fun (ref, k) => restoreKey c r.network ref k
  r.layers.toList.forM fun (ref, l) => restoreLayers c r.network ref l
  Action.log .info ("Restored agent with " ++ toString r.keys.size ++ " managed addresses")

lemma fill_eq (r : AgentRecord) :
    fill c r = if !r.rootKey.publicKey.isEmpty then
      onRegistry (Registry.setRoot c r.rootKey) >>= fun _ => fillAddresses c r
    else fillAddresses c r := rfl

lemma leads_fillAddresses (r : AgentRecord) :
    Leads (Keeps (SoundOn c r.network)) (fillAddresses c r) := by
  refine leads_bind ?_ fun _ => leads_bind ?_ fun _ => leads_log _ _
  · exact leads_forM fun e _ => leads_restoreKey r.network e.1 e.2
  · exact leads_forM fun e _ => leads_restoreLayers r.network e.1 e.2

lemma leads_fill (r : AgentRecord) : Leads (Keeps (SoundOn c r.network)) (fill c r) := by
  rw [fill_eq]
  split_ifs
  · exact leads_bind (leads_setRoot r.network r.rootKey) fun _ => leads_fillAddresses r
  · exact leads_fillAddresses r

/-- Any record that is accepted gives a sound agent. -/
lemma sound_restore {σ : Type} {r : AgentRecord} {s : σ}
    (h : (run (restore c r) s).result = .ok a) : Sound c a := by
  unfold restore at h
  cases hnew : create r.network r.mainType r.depth with
  | error e => simp [hnew, run_bind] at h
  | ok blank =>
    have hblank : SoundOn c r.network blank :=
      ⟨sound_create hnew, by rw [(create_eq_ok hnew).1]; rfl⟩
    have hfill := leads_fill r blank hblank
    rcases hrun : run (fill c r) blank with ⟨res, t, es⟩
    cases res with
    | error e => simp [hnew, run_bind, hrun, Except.map] at h
    | ok u =>
      obtain rfl : t = a := by simpa [hnew, run_bind, hrun, Except.map] using h
      rw [hrun] at hfill
      exact hfill.1

/-! ### The record of an agent -/

/-- What can become of an agent: it is made, or rebuilt from any record that is accepted, and
then operations are called, which may fail. -/
inductive Reachable (c : Crypto.Suite) : Agent → Prop
  | created {n : Network} {t : ScriptType} {depth : UInt32} {a : Agent}
      (h : create n t depth = .ok a) : Reachable c a
  | restored {r : AgentRecord} {a : Agent} (h : (run (restore c r) ()).result = .ok a) :
      Reachable c a
  | called {a : Agent} (h : Reachable c a) (call : Call) : Reachable c (after c a call)

theorem Reachable.sound (h : Reachable c a) : Sound c a := by
  induction h with
  | created h => exact sound_create h
  | restored h => exact sound_restore h
  | called _ call ih => exact ih.step (step_after c _ call)

/-- The entries of a record put back the map that they were taken from. -/
lemma yields_refill {α : Type} {d : Crypto.Digests} {n : Network}
    {op : Std.ExtTreeMap Address α → Address → α → Std.ExtTreeMap Address α}
    (hop : Entries.Adds op) (f : AddressRef × α → Action Agent Unit)
    (put : Std.ExtTreeMap Address α → Agent)
    (hf : ∀ x v, x.ref.resolve d n = .ok x →
      ∀ m, Yields (f (x.ref, v)) (put m) () (put (op m x v)))
    {m : Std.ExtTreeMap Address α} (hm : ∀ x ∈ m, Belongs d n x) :
    Yields ((tableOf m.toList).toList.forM f) (put ∅) () (put m) := by
  have hstep : ∀ e ∈ m.toList, ∀ m', Yields (f (e.1.ref, e.2)) (put m') () (put (op m' e.1 e.2)) :=
    fun e he => hf e.1 e.2 (hm e.1 (mem_of_mem_toList he)).resolve_ref
  have hloop := yields_forM hstep ∅
  rw [Entries.foldl_toList hop] at hloop
  rw [toList_tableOf hm, List.forM_eq_forM, List.forM_map]
  exact hloop

lemma Sound.yields_fill (h : Sound c a) :
    Yields (fill c a.snapshot) ⟨.empty a.network a.registry.mainType, .empty, a.depth⟩ () a := by
  obtain ⟨⟨n, mainType, root, keys⟩, ⟨layers⟩, depth⟩ := a
  have hkeys := yields_refill Entries.adds_insertIfNew (fun (ref, k) => restoreKey c n ref k)
    (fun m => ⟨⟨n, mainType, root, m⟩, ⟨∅⟩, depth⟩)
    (fun x k hx m => yields_restoreKey hx k _) h.keys_belong
  have hlayers := yields_refill Entries.adds_insert (fun (ref, l) => restoreLayers c n ref l)
    (fun m => ⟨⟨n, mainType, root, keys⟩, ⟨m⟩, depth⟩)
    (fun x l hx m => yields_restoreLayers hx l _) h.layers_belong
  have hrest : Yields (fillAddresses c (snapshot ⟨⟨n, mainType, root, keys⟩, ⟨layers⟩, depth⟩))
      ⟨⟨n, mainType, root, ∅⟩, ⟨∅⟩, depth⟩ () ⟨⟨n, mainType, root, keys⟩, ⟨layers⟩, depth⟩ :=
    yields_bind hkeys (yields_bind hlayers ⟨rfl, rfl⟩)
  rw [fill_eq]
  cases root with
  | none => exact hrest
  | some root =>
    obtain ⟨hlen, hroot⟩ := h.root_eq root rfl
    have hne : root.key.publicKey.isEmpty = false := by
      rw [List.isEmpty_eq_false_iff]
      intro hnil
      rw [hnil] at hlen
      cases hlen
    have hset := yields_setRoot (c := c) hlen ⟨.empty n mainType, .empty, depth⟩
    have hsame : rootOf c ⟨.empty n mainType, .empty, depth⟩ root.key = root := hroot.symm
    rw [hsame] at hset
    rw [if_pos (by simpa [snapshot, Registry.rootKey] using hne)]
    exact yields_bind hset hrest

lemma Reachable.yields_restore {σ : Type} (h : Reachable c a) (s : σ) :
    Yields (restore c a.snapshot) s a s := by
  have hnew := create_of_le (n := a.network) (t := a.registry.mainType) h.sound.depth_le
  refine yields_bind (t := s) (a := ⟨.empty a.network a.registry.mainType, .empty, a.depth⟩) ?_ ?_
  · change Yields (monadLift (create a.network a.registry.mainType a.depth)) s _ s
    rw [hnew]
    exact yields_lift _ s
  · exact yields_building h.sound.yields_fill s

/-- **Durable state**: the record of an agent is accepted and gives the agent. -/
theorem restore_snapshot {σ : Type} (h : Reachable c a) (s : σ) :
    (run (restore c a.snapshot) s).result = .ok a :=
  (h.yields_restore s).1

theorem restore_snapshot_of_two_addresses :
    let k : ExtendedKey := ⟨Bytes.zeros 33, [], []⟩
    let a := after .standard (after .standard ⟨.empty .regtest .p2wpkh, .empty, 6⟩ (.adopt k))
      (.addWith [] .p2pkh 0)
    Reachable .standard a ∧
      Address.ofKey .standard .regtest .p2wpkh k.publicKey ∈ a.registry.keys ∧
      Address.ofKey .standard .regtest .p2pkh k.publicKey ∈ a.registry.keys ∧
      (run (restore .standard a.snapshot) ()).result = .ok a := by
  intro k a
  have hreach : Reachable .standard a :=
    .called (.called (.created (create_of_le (by decide))) (.adopt k)) (.addWith [] .p2pkh 0)
  set main := Address.ofKey .standard .regtest .p2wpkh k.publicKey with hmain
  set other := Address.ofKey .standard .regtest .p2pkh k.publicKey with hother
  have hne : main ≠ other := by
    intro heq
    have htype := congrArg Address.scriptType heq
    rw [hmain, hother, Address.scriptType_ofKey, Address.scriptType_ofKey] at htype
    cases htype
  have hadopt := (yields_adopt .standard (rfl : k.publicKey.length = 33)
    ⟨.empty .regtest .p2wpkh, .empty, 6⟩).2
  have hnew : other ∉
      (adopting .standard ⟨.empty .regtest .p2wpkh, .empty, 6⟩ k).registry.keys := by
    intro hmem
    rcases Std.ExtTreeMap.mem_insert.mp hmem with h | h
    · exact hne (Std.LawfulEqOrd.compare_eq_iff_eq.mp h)
    · simp at h
  have hpath : ([] : Path).length ≤ maxPathLength := by decide
  have hdepth : (0 : UInt32) ≤ maxDepth := by decide
  have hadd := (yields_addWith_of_not_mem .standard hdepth hpath rfl hnew).2
  have ha : a = _ := (congrArg (after .standard · (.addWith [] .p2pkh 0)) hadopt).trans hadd
  refine ⟨hreach, ?_, ?_, restore_snapshot hreach ()⟩
  · rw [ha]
    exact Std.ExtTreeMap.mem_insertIfNew.mpr (Or.inr Std.ExtTreeMap.mem_insert_self)
  · rw [ha]
    exact Std.ExtTreeMap.mem_insertIfNew_self

end Agent

end WatchWallet
