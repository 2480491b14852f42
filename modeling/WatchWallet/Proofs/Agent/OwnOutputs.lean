import WatchWallet.Proofs.Agent.Restore
import WatchWallet.Proofs.Agent.Spared
import WatchWallet.Proofs.Utxo.View

/-!
Views of depth zero along the history of an agent.

What the agent's own transfers spent and created is kept for an address as long as it is tracked,
through every other operation and through being rebuilt from the record. So a view of depth zero
shows what the oracle reports and what the transfers created, but for what they spent.
-/

namespace WatchWallet

open WatchWallet.Action

/-- Layers that differ by the outputs recorded as spent and as created, and perhaps in what is
seen and unseen. -/
structure Layers.Recorded (l : Layers) (spent generated : List Utxo) (l' : Layers) : Prop where
  depth_eq : l'.depth = l.depth
  spent_eq : l'.spent = l.spent ++ spent.map Utxo.outPoint
  generated_eq : l'.generated = l.generated ++ generated

/-- Only what is seen and unseen differs. -/
def Layers.SameOwn (l l' : Layers) : Prop := l.Recorded [] [] l'

lemma Layers.sameOwn_of_eq {l l' : Layers} (hdepth : l'.depth = l.depth)
    (hspent : l'.spent = l.spent) (hgenerated : l'.generated = l.generated) : l.SameOwn l' :=
  ⟨hdepth, by simp [hspent], by simp [hgenerated]⟩

lemma Layers.sameOwn_refl (l : Layers) : l.SameOwn l := sameOwn_of_eq rfl rfl rfl

lemma Layers.sameOwn_commit (l : Layers) : l.SameOwn l.commit := sameOwn_of_eq rfl rfl rfl

lemma Layers.sameOwn_install (l : Layers) (us : List Utxo) : l.SameOwn (l.install us) :=
  sameOwn_of_eq rfl rfl rfl

lemma Layers.Recorded.trans {l l' l'' : Layers} {spent generated spent' generated' : List Utxo}
    (h : l.Recorded spent generated l') (h' : l'.Recorded spent' generated' l'') :
    l.Recorded (spent ++ spent') (generated ++ generated') l'' where
  depth_eq := h'.depth_eq.trans h.depth_eq
  spent_eq := by rw [h'.spent_eq, h.spent_eq, List.map_append, List.append_assoc]
  generated_eq := by rw [h'.generated_eq, h.generated_eq, List.append_assoc]

namespace Agent

variable (c : Crypto.Suite)

/-- The outputs that a call lists as spent for an address, if it succeeds. -/
def spentBy (a : Agent) (x : Address) : Call → List Utxo
  | .applyTransfer t =>
    if (run (applyTransfer c.digests t) a).result = .ok () then
      listed c.digests a.network x t.spent.toList
    else []
  | _ => []

/-- The outputs that a call lists as created for an address, if it succeeds. -/
def generatedBy (a : Agent) (x : Address) : Call → List Utxo
  | .applyTransfer t =>
    if (run (applyTransfer c.digests t) a).result = .ok () then
      listed c.digests a.network x t.generated.toList
    else []
  | _ => []

section OneCall

variable {c} {a : Agent} {x : Address} {l : Layers} (hl : a.tracker.layers[x]? = some l)
include hl

/-- A transfer that is applied records what it lists, and one that fails nothing. -/
lemma exists_recorded_applyTransfer (t : Transfer) :
    ∃ l', (run (applyTransfer c.digests t) a).state.tracker.layers[x]? = some l' ∧
      l.Recorded (spentBy c a x (.applyTransfer t)) (generatedBy c a x (.applyTransfer t)) l' := by
  rcases applyTransfer_cases c.digests t a with
    ⟨e, hrun⟩ | ⟨spent, generated, hspent, hgenerated, hyields⟩
  · rw [spentBy, generatedBy, hrun]
    exact ⟨l, hl, l.sameOwn_refl⟩
  · refine ⟨_, by rw [hyields.2, getElem?_recording, hl, Option.map_some], ?_⟩
    rw [spentBy, generatedBy, if_pos hyields.1, if_pos hyields.1,
      ← outputsAt_of_resolveAll hspent, ← outputsAt_of_resolveAll hgenerated]
    exact ⟨rfl, rfl, rfl⟩

/-- **One call**: a spared address stays tracked to its depth, and has recorded what the call
lists for it. -/
theorem exists_recorded_after {call : Call} (hspare : Spares c a x call) :
    ∃ l', (after c a call).tracker.layers[x]? = some l' ∧
      l.Recorded (spentBy c a x call) (generatedBy c a x call) l' := by
  have hrefl := Layers.sameOwn_refl
  have hcommit : ∀ y, y = x → ∀ l : Layers, l.SameOwn l.commit := fun _ _ => Layers.sameOwn_commit
  cases call with
  | adopt k => exact exists_related_adopt hl hrefl hspare
  | addWith path t depth => exact exists_related_addWith hl hrefl path t depth
  | add path => exact exists_related_addWith hl hrefl path a.registry.mainType a.depth
  | remove y => exact exists_related_remove hl hrefl hspare
  | commit y => exact exists_related_modify hl hrefl (state_commit a y) (hcommit y)
  | takeUpdate y => exact exists_related_modify hl hrefl (state_takeUpdate a y) (hcommit y)
  | takeBalance y => exact exists_related_modify hl hrefl (state_takeBalance a y) (hcommit y)
  | reconcile y raw =>
    exact exists_related_modify hl hrefl (state_reconcile a y raw) fun _ l => l.sameOwn_install _
  | install v =>
    exact exists_related_modify hl hrefl (state_install a v) fun _ l => l.sameOwn_install _
  | sync oracle o y => exact exists_related_sync hl hrefl oracle o Layers.sameOwn_install
  | applyTransfer t => exact exists_recorded_applyTransfer hl t

end OneCall

/-! ### Histories -/

variable {c} {a : Agent} {x : Address}

/-- What can become of an agent since an address began to be tracked to depth zero, with all that
was listed for the address since then: calls that spare the address, which may fail, and being
rebuilt from the agent's own record. -/
inductive Since (c : Crypto.Suite) (x : Address) : Agent → List Utxo → List Utxo → Prop
  | began {a : Agent} {l : Layers} (h : Reachable c a) (call : Call) (hx : Begins c a x call)
      (hl : (after c a call).layersOf x = .ok l) (hdepth : l.depth = 0) :
      Since c x (after c a call) [] []
  | called {a : Agent} {spent generated : List Utxo} (h : Since c x a spent generated)
      (call : Call) (hspare : Spares c a x call) :
      Since c x (after c a call) (spent ++ spentBy c a x call)
        (generated ++ generatedBy c a x call)
  | reloaded {a b : Agent} {spent generated : List Utxo} (h : Since c x a spent generated)
      (hb : (run (restore c a.snapshot) ()).result = .ok b) : Since c x b spent generated

variable {spent generated : List Utxo}

lemma Since.reachable (h : Since c x a spent generated) : Reachable c a := by
  induction h with
  | began h call _ _ _ => exact .called h call
  | called _ call _ ih => exact .called ih call
  | reloaded _ hb _ => exact .restored hb

/-- **A whole history**: just what was listed is recorded. -/
theorem Since.recorded (h : Since c x a spent generated) :
    ∃ l, a.tracker.layers[x]? = some l ∧ (Layers.fresh 0).Recorded spent generated l := by
  induction h with
  | @began a l h call hx hl hdepth =>
    obtain ⟨depth, hfresh⟩ := hx.fresh
    rw [layersOf, Tracker.layersOf_of_some hfresh] at hl
    obtain rfl : Layers.fresh depth = l := Except.ok.inj hl
    obtain rfl : depth = 0 := hdepth
    exact ⟨_, hfresh, Layers.sameOwn_refl _⟩
  | called _ call hspare ih =>
    obtain ⟨l, hl, hrecorded⟩ := ih
    obtain ⟨l', hl', hrecorded'⟩ := exists_recorded_after hl hspare
    exact ⟨l', hl', hrecorded.trans hrecorded'⟩
  | reloaded h hb ih =>
    -- Being rebuilt changes nothing.
    rw [(h.reachable.yields_restore ()).1] at hb
    obtain rfl := Except.ok.inj hb
    exact ih

/-- The unseen layer of an address shows the outputs of a report and those that were created, but
for those that were spent. -/
def ShowsOwn (a : Agent) (x : Address) (raw : Snapshot) (spent generated : List Utxo) : Prop :=
  ∃ l, a.layersOf x = .ok l ∧
    Layers.Shows (raw.utxos ++ generated) (spent.map Utxo.outPoint) l.unseen

lemma Since.shows_reconcile (h : Since c x a spent generated) (raw : Snapshot) :
    (∃ u, (run (reconcile x raw) a).result = .ok u) ∧
      ShowsOwn (run (reconcile x raw) a).state x raw spent generated := by
  obtain ⟨l, hl, hdepth, hspent, hgenerated⟩ := h.recorded
  have hinstalled := getElem?_modify_of_some hl (Layers.reconcile raw.utxos)
  refine ⟨⟨(l.reconcile raw.utxos).pending, ?_⟩, l.reconcile raw.utxos, ?_, ?_⟩
  · rw [result_reconcile, pending, Tracker.pending_of_some hinstalled]
  · rw [state_reconcile, layersOf, Tracker.layersOf_of_some hinstalled]
  · have hshows := Layers.shows_view hdepth raw.utxos
    rw [hspent, hgenerated] at hshows
    exact hshows

/-- **Views of depth zero**: since an address began to be tracked to depth zero, whatever calls
were made and however often the agent was rebuilt, a report that is installed, or that the oracle
gives, is shown with all outputs that were created and without any that were spent. Only the
oracle can refuse. -/
theorem Since.shows_own (h : Since c x a spent generated) :
    (∀ raw, (∃ u, (run (reconcile x raw) a).result = .ok u) ∧
      ShowsOwn (run (reconcile x raw) a).state x raw spent generated) ∧
    ∀ (ω : Type) (oracle : Oracle ω) (o : ω),
      (∀ raw, (run (oracle.snapshot a.network x 0) o).result = .ok raw →
        (∃ u, (run (sync oracle x) (a, o)).result = .ok u) ∧
          ShowsOwn (run (sync oracle x) (a, o)).state.1 x raw spent generated) ∧
      ∀ e, (run (oracle.snapshot a.network x 0) o).result = .error e →
        (run (sync oracle x) (a, o)).result = .error e ∧
          (run (sync oracle x) (a, o)).state.1 = a := by
  obtain ⟨l, hl, hdepth, -, -⟩ := h.recorded
  have hzero : l.depth = 0 := hdepth
  have hmax : l.depth ≤ maxDepth := by
    rw [hzero]
    decide
  rw [← hzero]
  refine ⟨h.shows_reconcile, fun ω oracle o => ⟨fun raw hraw => ?_, fun e he => ?_⟩⟩
  · obtain ⟨hresult, hstate⟩ := run_sync_of_answer oracle o hl hmax hraw
    rw [hresult, hstate]
    exact h.shows_reconcile raw
  · exact run_sync_of_refusal oracle o hl hmax he

/-! ### Transfers of one address -/

section OneEntry

open Address (Belongs)

lemma resolveAll_ref {d : Crypto.Digests} {n : Network} {x : Address} (hx : Belongs d n x)
    (us : List Utxo) : resolveAll d n [(x.ref, us)] = .ok [(x, us)] := by
  rw [resolveAll_cons_of_ok hx.resolve_ref]
  rfl

lemma listed_ref {d : Crypto.Digests} {n : Network} {x : Address} (hx : Belongs d n x)
    (us : List Utxo) : listed d n x [(x.ref, us)] = us := by
  rw [← outputsAt_of_resolveAll (resolveAll_ref hx us), outputsAt_cons, if_pos rfl]
  exact List.append_nil us

/-- A transfer that lists outputs of one address of the agent's network is applied. -/
lemma applies_of_ref {a : Agent} {x : Address} (hx : Belongs c.digests a.network x) (id : Bytes)
    (us vs : List Utxo) :
    let t : Transfer := ⟨id, (∅ : AddressRef.Table (List Utxo)).insert x.ref us,
      (∅ : AddressRef.Table (List Utxo)).insert x.ref vs⟩
    (run (applyTransfer c.digests t) a).result = .ok () ∧
      spentBy c a x (.applyTransfer t) = us ∧ generatedBy c a x (.applyTransfer t) = vs := by
  intro t
  have hspent : t.spent.toList = [(x.ref, us)] := toList_insert_ref x us
  have hgenerated : t.generated.toList = [(x.ref, vs)] := toList_insert_ref x vs
  have happlied := (yields_applyTransfer (t := t) (hspent ▸ resolveAll_ref hx us)
    (hgenerated ▸ resolveAll_ref hx vs)).1
  refine ⟨happlied, ?_, ?_⟩
  · rw [spentBy, if_pos happlied, hspent, listed_ref hx]
  · rw [generatedBy, if_pos happlied, hgenerated, listed_ref hx]

end OneEntry

/-- The main address spends an output and gets another one back; the agent is rebuilt, and then
the oracle still reports the output that was spent. -/
theorem Since.shows_own_of_change :
    let k : ExtendedKey := ⟨Bytes.zeros 33, [], []⟩
    let start : Agent := ⟨.empty .regtest .p2wpkh, .empty, 0⟩
    let main := Address.ofKey .standard .regtest .p2wpkh k.publicKey
    let old : Utxo := ⟨⟨[1], 0⟩, 5, 7⟩
    let new : Utxo := ⟨⟨[2], 1⟩, 4, 0⟩
    let t : Transfer := ⟨[2], (∅ : AddressRef.Table (List Utxo)).insert main.ref [old],
      (∅ : AddressRef.Table (List Utxo)).insert main.ref [new]⟩
    let a := after .standard (adopting .standard start k) (.applyTransfer t)
    (run (restore .standard a.snapshot) ()).result = .ok a ∧
      Since .standard main a [old] [new] ∧
      ShowsOwn (run (reconcile main ⟨[old], 9⟩) a).state main ⟨[old], 9⟩ [old] [new] := by
  intro k start main old new t a
  have hadopt : after .standard start (.adopt k) = adopting .standard start k :=
    (yields_adopt .standard (rfl : k.publicKey.length = 33) start).2
  obtain ⟨hbegins, htracked⟩ := begins_adopt .standard (rfl : k.publicKey.length = 33) start
  have hbegan : Since .standard main (adopting .standard start k) [] [] := by
    rw [← hadopt]
    exact .began (.created (create_of_le (by decide))) (.adopt k) hbegins
      (Tracker.layersOf_of_some htracked) rfl
  have hmain : Address.Belongs Crypto.Suite.standard.digests (adopting .standard start k).network
      main := Address.belongs_ofKey .p2wpkh k.publicKey
  obtain ⟨-, hspent, hgenerated⟩ := applies_of_ref hmain [2] [old] [new]
  have hsince : Since .standard main a [old] [new] := by
    have hcalled := hbegan.called (.applyTransfer t) trivial
    rwa [hspent, hgenerated] at hcalled
  have hreload := (hsince.reachable.yields_restore ()).1
  exact ⟨hreload, hsince, ((hsince.reloaded hreload).shows_own.1 ⟨[old], 9⟩).2⟩

end Agent

end WatchWallet
