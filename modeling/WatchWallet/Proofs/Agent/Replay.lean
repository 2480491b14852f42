import WatchWallet.Proofs.Agent.OwnOutputs
import WatchWallet.Proofs.Utxo.Alike

/-!
The order and the repetition of transfers do not show.

Agents that differ only in the order and the repetition of what was spent and created stay so
through every call, and answer alike. Applying the same transfers in another order, some of them
more than once, gives such agents.
-/

namespace WatchWallet

open WatchWallet.Action

namespace Layers

lemma Alike.spend {l l' : Layers} (h : Alike l l') {us vs : List Utxo}
    (hmem : ∀ u, u ∈ vs ↔ u ∈ us) : Alike (l.spend us) (l'.spend vs) := by
  refine ⟨h.seen_eq, h.unseen_eq, h.depth_eq, fun o => ?_, h.best_eq⟩
  simp only [Layers.spend, List.mem_append, h.mem_spent_iff o, List.mem_map, hmem]

lemma Alike.generate {l l' : Layers} (h : Alike l l') {us vs : List Utxo}
    (hbest : ∀ o, best (vs.filter (·.outPoint = o)) = best (us.filter (·.outPoint = o))) :
    Alike (l.generate us) (l'.generate vs) := by
  refine ⟨h.seen_eq, h.unseen_eq, h.depth_eq, h.mem_spent_iff, fun o => ?_⟩
  simp only [Layers.generate, List.filter_append, best_append, h.best_eq o, hbest o]

lemma rel_refl (o : Option Layers) : Option.Rel Alike o o := by
  cases o with
  | none => exact .none
  | some l => exact .some l.alike_refl

lemma rel_map {o o' : Option Layers} (h : Option.Rel Alike o o') {f g : Layers → Layers}
    (hfg : ∀ l l', l.Alike l' → (f l).Alike (g l')) :
    Option.Rel Alike (o.map f) (o'.map g) := by
  cases h with
  | none => exact .none
  | some h => exact .some (hfg _ _ h)

end Layers

namespace Agent

/-- Only the order and the repetition of what was spent and created for each address differ. -/
structure Alike (a b : Agent) : Prop where
  registry_eq : b.registry = a.registry
  depth_eq : b.depth = a.depth
  layers : ∀ x : Address, Option.Rel Layers.Alike a.tracker.layers[x]? b.tracker.layers[x]?

lemma alike_refl (a : Agent) : Alike a a := ⟨rfl, rfl, fun _ => Layers.rel_refl _⟩

/-- The latest view of an address. -/
def unseen (a : Agent) (x : Address) : Except Error (List Utxo) := (a.layersOf x).map Layers.unseen

section Alike

variable {a b : Agent} (h : Alike a b)
include h

lemma Alike.network_eq : b.network = a.network := congrArg Registry.network h.registry_eq

lemma Alike.layers_cases (x : Address) :
    a.tracker.layers[x]? = none ∧ b.tracker.layers[x]? = none ∨
      ∃ l l', a.tracker.layers[x]? = some l ∧ b.tracker.layers[x]? = some l' ∧ l.Alike l' := by
  have hx := h.layers x
  generalize a.tracker.layers[x]? = o at hx ⊢
  generalize b.tracker.layers[x]? = o' at hx ⊢
  cases hx with
  | none => exact Or.inl ⟨rfl, rfl⟩
  | some hl => exact Or.inr ⟨_, _, rfl, rfl, hl⟩

lemma Alike.mem_iff (x : Address) : x ∈ b.tracker.layers ↔ x ∈ a.tracker.layers := by
  rw [← Std.ExtTreeMap.isSome_getElem?_iff_mem, ← Std.ExtTreeMap.isSome_getElem?_iff_mem]
  rcases h.layers_cases x with ⟨hl, hl'⟩ | ⟨l, l', hl, hl', -⟩ <;> simp [hl, hl']

lemma Alike.pending_eq (x : Address) : b.pending x = a.pending x := by
  rcases h.layers_cases x with ⟨hl, hl'⟩ | ⟨l, l', hl, hl', hlayers⟩
  · rw [pending, pending, Tracker.pending_of_none hl, Tracker.pending_of_none hl']
  · rw [pending, pending, Tracker.pending_of_some hl, Tracker.pending_of_some hl',
      hlayers.pending_eq]

lemma Alike.unseen_eq (x : Address) : b.unseen x = a.unseen x := by
  rcases h.layers_cases x with ⟨hl, hl'⟩ | ⟨l, l', hl, hl', hlayers⟩
  · rw [unseen, unseen, layersOf, layersOf, Tracker.layersOf_of_none hl,
      Tracker.layersOf_of_none hl']
  · rw [unseen, unseen, layersOf, layersOf, Tracker.layersOf_of_some hl,
      Tracker.layersOf_of_some hl', Except.map, Except.map, hlayers.unseen_eq]

/-! ### What calls do to alike agents -/

lemma Alike.modify (x : Address) {f : Layers → Layers}
    (hf : ∀ l l', l.Alike l' → (f l).Alike (f l')) : Alike (a.modify x f) (b.modify x f) := by
  refine ⟨h.registry_eq, h.depth_eq, fun y => ?_⟩
  rw [Agent.modify, Agent.modify, Tracker.getElem?_modify, Tracker.getElem?_modify]
  refine Layers.rel_map (h.layers y) ?_
  split_ifs
  · exact hf
  · exact fun _ _ hl => hl

lemma Alike.managing (x : Address) (k : ExtendedKey) (depth : UInt32) :
    Alike (a.managing x k depth) (b.managing x k depth) := by
  refine ⟨by simp only [Agent.managing, h.registry_eq], h.depth_eq, fun y => ?_⟩
  simp only [Agent.managing, Std.ExtTreeMap.getElem?_insertIfNew, h.mem_iff x]
  split_ifs
  · exact Layers.rel_refl _
  · exact h.layers y

lemma Alike.dropping (x : Address) : Alike (a.dropping x) (b.dropping x) := by
  refine ⟨by simp only [Agent.dropping, h.registry_eq], h.depth_eq, fun y => ?_⟩
  simp only [Agent.dropping, Std.ExtTreeMap.getElem?_erase]
  split_ifs
  · exact .none
  · exact h.layers y

variable (c : Crypto.Suite)

lemma Alike.adopt (k : ExtendedKey) :
    Alike (run (adopt c k) a).state (run (adopt c k) b).state := by
  by_cases hk : k.publicKey.length = 33
  · have heq : adopting c b k = adopting c a k := by
      simp only [adopting, rootOf, network, h.registry_eq, h.depth_eq]
    rw [(yields_adopt c hk a).2, (yields_adopt c hk b).2, heq]
    exact alike_refl _
  · rw [run_adopt_of_ne c hk, run_adopt_of_ne c hk]
    exact h

lemma Alike.addWith (path : Path) (t : ScriptType) (depth : UInt32) :
    Alike (run (addWith c path t depth) a).state (run (addWith c path t depth) b).state := by
  rcases addWith_decided c path t depth a.registry with
    ⟨e, hrun⟩ | ⟨root, k, x, -, -, -, -, -, ⟨-, hyields⟩ | ⟨-, hyields⟩⟩
  · rw [hrun a rfl, hrun b h.registry_eq]
    exact h
  · rw [(hyields a rfl).2, (hyields b h.registry_eq).2]
    exact h
  · rw [(hyields a rfl).2, (hyields b h.registry_eq).2]
    exact h.managing x k depth

lemma Alike.remove (x : Address) :
    Alike (run (remove x) a).state (run (remove x) b).state := by
  rcases remove_decided x a.registry with hyields | ⟨-, -, hyields⟩
  · rw [(hyields a rfl).2, (hyields b h.registry_eq).2]
    exact h
  · rw [(hyields a rfl).2, (hyields b h.registry_eq).2]
    exact h.dropping x

lemma Alike.reconcile (x : Address) (raw : Snapshot) :
    (run (reconcile x raw) b).result = (run (reconcile x raw) a).result ∧
      Alike (run (reconcile x raw) a).state (run (reconcile x raw) b).state := by
  have hmodify := h.modify x fun _ _ (hl : Layers.Alike _ _) => hl.reconcile raw.utxos
  rw [result_reconcile, result_reconcile, state_reconcile, state_reconcile]
  exact ⟨hmodify.pending_eq x, hmodify⟩

/-- Alike agents ask the oracle the same. -/
lemma Alike.sync {ω : Type} (oracle : Oracle ω) (x : Address) (o : ω) :
    (run (sync oracle x) (b, o)).result = (run (sync oracle x) (a, o)).result ∧
      Alike (run (sync oracle x) (a, o)).state.1 (run (sync oracle x) (b, o)).state.1 := by
  rcases h.layers_cases x with ⟨hl, hl'⟩ | ⟨l, l', hl, hl', hlayers⟩
  · rw [run_sync_of_none oracle o hl, run_sync_of_none oracle o hl']
    exact ⟨rfl, h⟩
  rcases Nat.lt_or_ge maxDepth.toNat l.depth.toNat with hdepth | hdepth
  · rw [run_sync_of_depth oracle o hl hdepth,
      run_sync_of_depth oracle o hl' (hlayers.depth_eq ▸ hdepth), hlayers.depth_eq]
    exact ⟨rfl, h⟩
  have hdepth' : l'.depth ≤ maxDepth := hlayers.depth_eq ▸ hdepth
  cases hraw : (run (oracle.snapshot a.network x l.depth) o).result with
  | error e =>
    have hraw' : (run (oracle.snapshot b.network x l'.depth) o).result = .error e := by
      rw [h.network_eq, hlayers.depth_eq, hraw]
    obtain ⟨hresult, hstate⟩ := run_sync_of_refusal oracle o hl hdepth hraw
    obtain ⟨hresult', hstate'⟩ := run_sync_of_refusal oracle o hl' hdepth' hraw'
    rw [hresult, hresult', hstate, hstate']
    exact ⟨rfl, h⟩
  | ok raw =>
    have hraw' : (run (oracle.snapshot b.network x l'.depth) o).result = .ok raw := by
      rw [h.network_eq, hlayers.depth_eq, hraw]
    obtain ⟨hresult, hstate⟩ := run_sync_of_answer oracle o hl hdepth hraw
    obtain ⟨hresult', hstate'⟩ := run_sync_of_answer oracle o hl' hdepth' hraw'
    rw [hresult, hresult', hstate, hstate']
    exact h.reconcile x raw

end Alike

/-! ### Transfers -/

section Transfers

/-- A transfer is applied if all its addresses can be resolved. -/
lemma result_applyTransfer_eq_ok_iff {d : Crypto.Digests} {t : Transfer} {a : Agent} :
    (run (applyTransfer d t) a).result = .ok () ↔
      (∃ spent, resolveAll d a.network t.spent.toList = .ok spent) ∧
        ∃ generated, resolveAll d a.network t.generated.toList = .ok generated := by
  constructor
  · intro hok
    rcases applyTransfer_cases d t a with ⟨e, hrun⟩ | ⟨spent, generated, hspent, hgenerated, -⟩
    · rw [hrun] at hok
      cases hok
    · exact ⟨⟨spent, hspent⟩, generated, hgenerated⟩
  · rintro ⟨⟨spent, hspent⟩, generated, hgenerated⟩
    exact (yields_applyTransfer hspent hgenerated).1

variable (c : Crypto.Suite)

/-- The network alone decides what a transfer lists for an address. -/
lemma listed_congr {a b : Agent} (h : b.network = a.network) (x : Address) (t : Transfer) :
    spentBy c b x (.applyTransfer t) = spentBy c a x (.applyTransfer t) ∧
      generatedBy c b x (.applyTransfer t) = generatedBy c a x (.applyTransfer t) := by
  have hresult : (run (applyTransfer c.digests t) b).result = .ok () ↔
      (run (applyTransfer c.digests t) a).result = .ok () := by
    rw [result_applyTransfer_eq_ok_iff, result_applyTransfer_eq_ok_iff, h]
  exact ⟨if_congr hresult (by rw [h]) rfl, if_congr hresult (by rw [h]) rfl⟩

/-- What a transfer does to the layers of an address, whether it is refused or not. -/
lemma getElem?_applyTransfer (a : Agent) (t : Transfer) (x : Address) :
    (after c a (.applyTransfer t)).tracker.layers[x]? = (a.tracker.layers[x]?).map
      (Layers.generate (generatedBy c a x (.applyTransfer t)) ∘
        Layers.spend (spentBy c a x (.applyTransfer t))) := by
  rcases applyTransfer_cases c.digests t a with
    ⟨e, hrun⟩ | ⟨spent, generated, hspent, hgenerated, hyields⟩
  · rw [after, spentBy, generatedBy, hrun]
    simp [Layers.accumulates_generate.nil, Layers.accumulates_spend.nil]
  · rw [after, hyields.2, getElem?_recording, spentBy, generatedBy, if_pos hyields.1,
      if_pos hyields.1, outputsAt_of_resolveAll hspent, outputsAt_of_resolveAll hgenerated]

variable {c}

lemma Alike.applyTransfer {a b : Agent} (h : Alike a b) (t : Transfer) :
    Alike (after c a (.applyTransfer t)) (after c b (.applyTransfer t)) := by
  have ha := refreshes_applyTransfer c.digests t a
  have hb := refreshes_applyTransfer c.digests t b
  refine ⟨?_, ?_, fun x => ?_⟩
  · exact hb.registry_eq.trans (h.registry_eq.trans ha.registry_eq.symm)
  · exact hb.depth_eq.trans (h.depth_eq.trans ha.depth_eq.symm)
  · obtain ⟨hspent, hgenerated⟩ := listed_congr c h.network_eq x t
    rw [getElem?_applyTransfer, getElem?_applyTransfer, hspent, hgenerated]
    exact Layers.rel_map (h.layers x) fun l l' hl =>
      (hl.spend fun _ => Iff.rfl).generate fun _ => rfl

/-- **One call** keeps agents alike. -/
theorem Alike.after {a b : Agent} (h : Alike a b) (call : Call) :
    Alike (after c a call) (after c b call) := by
  have hcommit : ∀ x, Alike (a.modify x Layers.commit) (b.modify x Layers.commit) :=
    fun x => h.modify x fun _ _ hl => hl.commit
  cases call with
  | adopt k => exact h.adopt c k
  | addWith path t depth => exact h.addWith c path t depth
  | add path =>
    have hb : Agent.after c b (.add path) =
        (run (Agent.addWith c path a.registry.mainType a.depth) b).state := by
      rw [← h.registry_eq, ← h.depth_eq]
      rfl
    rw [hb]
    exact h.addWith c path a.registry.mainType a.depth
  | remove x => exact h.remove x
  | commit x =>
    rw [Agent.after, Agent.after, state_commit, state_commit]
    exact hcommit x
  | takeUpdate x =>
    rw [Agent.after, Agent.after, state_takeUpdate, state_takeUpdate]
    exact hcommit x
  | takeBalance x =>
    rw [Agent.after, Agent.after, state_takeBalance, state_takeBalance]
    exact hcommit x
  | reconcile x raw => exact (h.reconcile x raw).2
  | install v =>
    rw [Agent.after, Agent.after, state_install, state_install]
    exact h.modify v.address fun _ _ hl => hl.install v.utxos
  | sync oracle o x => exact (h.sync oracle x o).2
  | applyTransfer t => exact h.applyTransfer t

/-- **A run of calls** keeps agents alike. -/
theorem Alike.foldl {a b : Agent} (h : Alike a b) (calls : List Call) :
    Alike (calls.foldl (Agent.after c) a) (calls.foldl (Agent.after c) b) := by
  induction calls generalizing a b with
  | nil => exact h
  | cons call calls ih => exact ih (h.after call)

variable (c)

/-- The agent after transfers, applied in turn; one that is refused does nothing. -/
def applying (a : Agent) (ts : List Transfer) : Agent :=
  ts.foldl (fun a t => after c a (.applyTransfer t)) a

/-- What transfers list as spent for an address. -/
def spentIn (a : Agent) (x : Address) (ts : List Transfer) : List Utxo :=
  ts.flatMap fun t => spentBy c a x (.applyTransfer t)

/-- What transfers list as created for an address. -/
def generatedIn (a : Agent) (x : Address) (ts : List Transfer) : List Utxo :=
  ts.flatMap fun t => generatedBy c a x (.applyTransfer t)

/-- What transfers do: all that they list is recorded, and nothing else changes. -/
lemma applying_spec (a : Agent) (ts : List Transfer) :
    (applying c a ts).registry = a.registry ∧ (applying c a ts).depth = a.depth ∧
      ∀ x : Address, (applying c a ts).tracker.layers[x]? = (a.tracker.layers[x]?).map
        (Layers.generate (generatedIn c a x ts) ∘ Layers.spend (spentIn c a x ts)) := by
  induction ts generalizing a with
  | nil =>
    refine ⟨rfl, rfl, fun x => ?_⟩
    simp [applying, generatedIn, spentIn, Layers.accumulates_generate.nil,
      Layers.accumulates_spend.nil]
  | cons t ts ih =>
    obtain ⟨hregistry, hdepth, hlayers⟩ := ih (after c a (.applyTransfer t))
    have hstep := refreshes_applyTransfer c.digests t a
    have hnetwork : (after c a (.applyTransfer t)).network = a.network :=
      congrArg Registry.network hstep.registry_eq
    refine ⟨hregistry.trans hstep.registry_eq, hdepth.trans hstep.depth_eq, fun x => ?_⟩
    have hlisted := listed_congr c hnetwork x
    have hspent : spentIn c (after c a (.applyTransfer t)) x ts = spentIn c a x ts := by
      simp only [spentIn, fun t' => (hlisted t').1]
    have hgenerated : generatedIn c (after c a (.applyTransfer t)) x ts = generatedIn c a x ts := by
      simp only [generatedIn, fun t' => (hlisted t').2]
    refine (hlayers x).trans ?_
    rw [hspent, hgenerated, getElem?_applyTransfer, Option.map_map]
    congr 1
    funext l
    simp [Layers.generate, Layers.spend, spentIn, generatedIn]

/-- The same transfers in another order, some of them more than once, give alike agents. -/
theorem alike_applying (a : Agent) {ts ts' : List Transfer} (hsame : ∀ t, t ∈ ts' ↔ t ∈ ts)
    (hvalues : ∀ x, Layers.Coherent (generatedIn c a x ts)) :
    Alike (applying c a ts) (applying c a ts') := by
  obtain ⟨hregistry, hdepth, hlayers⟩ := applying_spec c a ts
  obtain ⟨hregistry', hdepth', hlayers'⟩ := applying_spec c a ts'
  refine ⟨hregistry'.trans hregistry.symm, hdepth'.trans hdepth.symm, fun x => ?_⟩
  rw [hlayers x, hlayers' x]
  have hspent : ∀ u, u ∈ spentIn c a x ts' ↔ u ∈ spentIn c a x ts := by
    intro u
    simp only [spentIn, List.mem_flatMap, hsame]
  have hgenerated : ∀ u, u ∈ generatedIn c a x ts' ↔ u ∈ generatedIn c a x ts := by
    intro u
    simp only [generatedIn, List.mem_flatMap, hsame]
  refine Layers.rel_map (Layers.rel_refl _) fun l l' hl => ?_
  exact (hl.spend hspent).generate fun o => (hvalues x).best_eq hgenerated o

/-- **Replay does not show**: the same transfers, in any order and each any number of times, and
then the same calls: every report, given at once or by an oracle, gets the same answer and leaves
the same unseen layer. -/
theorem reports_unaffected_by_replay (a : Agent) {ts ts' : List Transfer}
    (hsame : ∀ t, t ∈ ts' ↔ t ∈ ts) (hvalues : ∀ x, Layers.Coherent (generatedIn c a x ts))
    (calls : List Call) :
    let b := calls.foldl (after c) (applying c a ts)
    let b' := calls.foldl (after c) (applying c a ts')
    ∀ x, b'.pending x = b.pending x ∧ b'.unseen x = b.unseen x ∧
      (∀ raw, (run (reconcile x raw) b').result = (run (reconcile x raw) b).result ∧
        (run (reconcile x raw) b').state.unseen x = (run (reconcile x raw) b).state.unseen x) ∧
      ∀ (ω : Type) (oracle : Oracle ω) (o : ω),
        (run (sync oracle x) (b', o)).result = (run (sync oracle x) (b, o)).result ∧
        (run (sync oracle x) (b', o)).state.1.unseen x =
          (run (sync oracle x) (b, o)).state.1.unseen x := by
  intro b b' x
  have halike : Alike b b' := (alike_applying c a hsame hvalues).foldl calls
  refine ⟨halike.pending_eq x, halike.unseen_eq x, fun raw => ?_, fun ω oracle o => ?_⟩
  · obtain ⟨hresult, hstate⟩ := halike.reconcile x raw
    exact ⟨hresult, hstate.unseen_eq x⟩
  · obtain ⟨hresult, hstate⟩ := halike.sync oracle x o
    exact ⟨hresult, hstate.unseen_eq x⟩

lemma exists_of_mem_generatedIn {a : Agent} {x : Address} {ts : List Transfer} {u : Utxo}
    (h : u ∈ generatedIn c a x ts) : ∃ t ∈ ts, ∃ e ∈ t.generated.toList, u ∈ e.2 := by
  obtain ⟨t, ht, hu⟩ := List.mem_flatMap.mp h
  rw [generatedBy] at hu
  split_ifs at hu
  · obtain ⟨e, he, hu⟩ := List.mem_flatMap.mp hu
    split_ifs at hu
    · exact ⟨t, ht, e, he, hu⟩
    · cases hu
  · cases hu

/-- A change output is reported back before and after it is confirmed, the confirmed one also
twice and ahead of the other, and what is pending then is acknowledged. -/
theorem reports_unaffected_by_replay_of_change :
    let k : ExtendedKey := ⟨Bytes.zeros 33, [], []⟩
    let a := adopting .standard ⟨.empty .regtest .p2wpkh, .empty, 0⟩ k
    let main := Address.ofKey .standard .regtest .p2wpkh k.publicKey
    let old : Utxo := ⟨⟨[1], 0⟩, 5, 7⟩
    let new : Utxo := ⟨⟨[2], 1⟩, 4, 0⟩
    let first : Transfer := ⟨[2], (∅ : AddressRef.Table (List Utxo)).insert main.ref [old],
      (∅ : AddressRef.Table (List Utxo)).insert main.ref [new]⟩
    let second : Transfer := ⟨[2], (∅ : AddressRef.Table (List Utxo)).insert main.ref [],
      (∅ : AddressRef.Table (List Utxo)).insert main.ref [{ new with height := 8 }]⟩
    let calls : List Call := [.commit main]
    (run (applyTransfer Crypto.Suite.standard.digests first) a).result = .ok () ∧
      (∀ t, t ∈ [second, first, second] ↔ t ∈ [first, second]) ∧
      (∀ x, Layers.Coherent (generatedIn .standard a x [first, second])) ∧
      let b := calls.foldl (after .standard) (applying .standard a [first, second])
      let b' := calls.foldl (after .standard) (applying .standard a [second, first, second])
      (run (reconcile main ⟨[old], 9⟩) b').result = (run (reconcile main ⟨[old], 9⟩) b).result := by
  intro k a main old new first second calls
  have hmain : Address.Belongs Crypto.Suite.standard.digests a.network main :=
    Address.belongs_ofKey .p2wpkh k.publicKey
  clear_value a main
  have happlied := (applies_of_ref (c := .standard) hmain [2] [old] [new]).1
  have hsame : ∀ t, t ∈ [second, first, second] ↔ t ∈ [first, second] := by
    intro t
    simp only [List.mem_cons, List.not_mem_nil]
    tauto
  have hvalues : ∀ x, Layers.Coherent (generatedIn .standard a x [first, second]) := by
    have hvalue : ∀ x, ∀ u ∈ generatedIn .standard a x [first, second], u.value = 4 := by
      intro x u hu
      obtain ⟨t, ht, e, he, hue⟩ := exists_of_mem_generatedIn .standard hu
      rcases List.mem_pair.mp ht with rfl | rfl
      all_goals
        rw [toList_insert_ref, List.mem_singleton] at he
        subst he
        obtain rfl := List.mem_singleton.mp hue
        rfl
    intro x u hu v hv _ _
    rw [hvalue x u hu, hvalue x v hv]
  have hreplay := reports_unaffected_by_replay .standard a hsame hvalues calls main
  exact ⟨happlied, hsame, hvalues, (hreplay.2.2.1 ⟨[old], 9⟩).1⟩

end Transfers

end Agent

end WatchWallet
