import WatchWallet.Proofs.Agent.OwnOutputs
import WatchWallet.Proofs.Utxo.Balance

/-!
What the acknowledged balance updates of an address add up to.

Whoever keeps a balance, adding what an update adds and taking off what it removes, has that of the
seen layer modulo `2 ^ 64`. It matters neither which call acknowledged an update nor what views
were installed in between and never acknowledged.
-/

namespace WatchWallet.Agent

open WatchWallet.Action

/-- The balance update that a call acknowledges for an address, if it does: the one that was
pending, and that such a call may answer itself. -/
def acknowledged (a : Agent) (x : Address) : Call → Option BalanceUpdate
  | .commit y | .takeUpdate y => if y = x then (a.pendingBalance x).toOption else none
  | .takeBalance y => if y = x then (run (takeBalance x) a).result.toOption else none
  | _ => none

variable {c : Crypto.Suite} {a : Agent} {x : Address}

section OneCall

variable {l : Layers} (hl : a.tracker.layers[x]? = some l)
include hl

lemma pendingBalance_of_some : a.pendingBalance x = .ok l.pending.balance := by
  rw [pendingBalance, pending, Tracker.pending_of_some hl]
  rfl

lemma result_takeBalance_of_some : (run (takeBalance x) a).result = .ok l.pending.balance := by
  rw [result_takeBalance, takeUpdate, onTracker, run_within, Tracker.result_takeUpdate,
    Tracker.pending_of_some hl]
  rfl

lemma exists_seen_of_commit {call : Call} {y : Address}
    (hack : acknowledged a x call = if y = x then some l.pending.balance else none)
    (hafter : after c a call = a.modify y Layers.commit) :
    ∃ l', (after c a call).tracker.layers[x]? = some l' ∧
      (acknowledged a x call = some l.pending.balance ∧ l'.seen = l.unseen ∨
        acknowledged a x call = none ∧ l'.seen = l.seen) := by
  refine ⟨(if y = x then Layers.commit else id) l, ?_, ?_⟩
  · rw [hafter, modify, Tracker.getElem?_modify, hl, Option.map_some]
  · rw [hack]
    split_ifs with hy
    · exact Or.inl ⟨rfl, rfl⟩
    · exact Or.inr ⟨rfl, rfl⟩

/-- **One call**: what is pending is acknowledged and the unseen layer becomes the seen one, or
nothing is acknowledged and the seen layer stays. -/
theorem exists_seen_after {call : Call} (hspare : Spares c a x call) :
    ∃ l', (after c a call).tracker.layers[x]? = some l' ∧
      (acknowledged a x call = some l.pending.balance ∧ l'.seen = l.unseen ∨
        acknowledged a x call = none ∧ l'.seen = l.seen) := by
  let R : Layers → Layers → Prop := fun l l' => l'.seen = l.seen
  have hrefl : ∀ l, R l l := fun _ => rfl
  have hinstall : ∀ (l : Layers) us, R l (l.install us) := Layers.seen_install
  have hkept (hnone : acknowledged a x call = none)
      (h : ∃ l', (after c a call).tracker.layers[x]? = some l' ∧ R l l') :
      ∃ l', (after c a call).tracker.layers[x]? = some l' ∧
        (acknowledged a x call = some l.pending.balance ∧ l'.seen = l.unseen ∨
          acknowledged a x call = none ∧ l'.seen = l.seen) :=
    h.imp fun _ h => ⟨h.1, Or.inr ⟨hnone, h.2⟩⟩
  have hpending := pendingBalance_of_some hl
  cases call with
  | commit y =>
    exact exists_seen_of_commit hl (by rw [acknowledged, hpending, Except.toOption])
      (state_commit a y)
  | takeUpdate y =>
    exact exists_seen_of_commit hl (by rw [acknowledged, hpending, Except.toOption])
      (state_takeUpdate a y)
  | takeBalance y =>
    exact exists_seen_of_commit hl
      (by rw [acknowledged, result_takeBalance_of_some hl, Except.toOption]) (state_takeBalance a y)
  | adopt k => exact hkept rfl (exists_related_adopt hl hrefl hspare)
  | addWith path t depth => exact hkept rfl (exists_related_addWith hl hrefl path t depth)
  | add path =>
    exact hkept rfl (exists_related_addWith hl hrefl path a.registry.mainType a.depth)
  | remove y => exact hkept rfl (exists_related_remove hl hrefl hspare)
  | reconcile y raw =>
    exact hkept rfl
      (exists_related_modify hl hrefl (state_reconcile a y raw) fun _ l => hinstall l _)
  | install v =>
    exact hkept rfl (exists_related_modify hl hrefl (state_install a v) fun _ l => hinstall l _)
  | sync oracle o y => exact hkept rfl (exists_related_sync hl hrefl oracle o hinstall)
  | applyTransfer t =>
    refine hkept rfl ?_
    rcases applyTransfer_cases c.digests t a with ⟨e, hrun⟩ | ⟨spent, generated, -, -, hyields⟩
    · exact exists_related_of_eq hl hrefl (by rw [after, hrun])
    · refine ⟨_, by rw [after, hyields.2, getElem?_recording, hl, Option.map_some], ?_⟩
      rfl

end OneCall

/-! ### Histories -/

variable {value : OutPoint → UInt64}

/-- What can become of an agent since an address began to be tracked, with the balance updates
that were acknowledged for the address since then, where no view of it names an outpoint twice and
an output has one value. -/
inductive Watched (c : Crypto.Suite) (value : OutPoint → UInt64) (x : Address) :
    Agent → List BalanceUpdate → Prop
  | began {a : Agent} (call : Call) (hx : Begins c a x call) :
      Watched c value x (after c a call) []
  | called {a : Agent} {reports : List BalanceUpdate} (h : Watched c value x a reports)
      (call : Call) (hspare : Spares c a x call)
      (hpriced : ∀ l, (after c a call).layersOf x = .ok l → Priced value l.unseen) :
      Watched c value x (after c a call) (reports ++ (acknowledged a x call).toList)
  | reloaded {a b : Agent} {reports : List BalanceUpdate} (h : Watched c value x a reports)
      (hreachable : Reachable c a) (hb : (run (restore c a.snapshot) ()).result = .ok b) :
      Watched c value x b reports

/-- The seen layer is priced, and its balance is what the updates add up to. -/
structure Accounted (value : OutPoint → UInt64) (x : Address) (a : Agent)
    (reports : List BalanceUpdate) (l : Layers) : Prop where
  layers_eq : a.tracker.layers[x]? = some l
  seen : Priced value l.seen
  unseen : Priced value l.unseen
  net_eq : net reports = Utxo.balance l.seen

lemma accounted_fresh {depth : UInt32} (h : a.tracker.layers[x]? = some (.fresh depth)) :
    Accounted value x a [] (.fresh depth) :=
  ⟨h, priced_nil, priced_nil, rfl⟩

lemma Accounted.net_append_pending {reports : List BalanceUpdate} {l : Layers}
    (h : Accounted value x a reports l) :
    net (reports ++ [l.pending.balance]) = Utxo.balance l.unseen := by
  rw [net_append_singleton, h.net_eq]
  exact Update.balance_between h.seen h.unseen

/-- One call keeps the account. -/
lemma Accounted.called {reports : List BalanceUpdate} {l : Layers}
    (h : Accounted value x a reports l) {call : Call} (hspare : Spares c a x call)
    (hpriced : ∀ l, (after c a call).layersOf x = .ok l → Priced value l.unseen) :
    ∃ l', Accounted value x (after c a call) (reports ++ (acknowledged a x call).toList) l' := by
  obtain ⟨l', hl', ⟨hack, hseen⟩ | ⟨hack, hseen⟩⟩ := exists_seen_after h.layers_eq hspare
  all_goals
    rw [hack]
    refine ⟨l', hl', ?_, hpriced l' (Tracker.layersOf_of_some hl'), ?_⟩ <;> rw [hseen]
  · exact h.unseen
  · exact h.net_append_pending
  · exact h.seen
  · rw [Option.toList_none, List.append_nil, h.net_eq]

theorem Watched.accounted {reports : List BalanceUpdate} (h : Watched c value x a reports) :
    ∃ l, Accounted value x a reports l := by
  induction h with
  | began call hx =>
    obtain ⟨depth, hfresh⟩ := hx.fresh
    exact ⟨.fresh depth, accounted_fresh hfresh⟩
  | called _ call hspare hpriced ih =>
    obtain ⟨l, hl⟩ := ih
    exact hl.called hspare hpriced
  | reloaded _ hreachable hb ih =>
    rw [(hreachable.yields_restore ()).1] at hb
    obtain rfl := Except.ok.inj hb
    exact ih

/-- **Balances are conserved**: the acknowledged balance updates of an address add up to the
balance of its seen layer, and the pending one leads on to that of the unseen layer. Both are
asked for without a failure, and the pending one is what the next acknowledgement answers. -/
theorem Watched.conserves {reports : List BalanceUpdate} (h : Watched c value x a reports) :
    ∃ l p, a.layersOf x = .ok l ∧ net reports = Utxo.balance l.seen ∧
      a.pendingBalance x = .ok p ∧ (run (takeBalance x) a).result = .ok p ∧
      Utxo.balance l.seen + p.added - p.removed = Utxo.balance l.unseen := by
  obtain ⟨l, hl⟩ := h.accounted
  exact ⟨l, l.pending.balance, Tracker.layersOf_of_some hl.layers_eq, hl.net_eq,
    pendingBalance_of_some hl.layers_eq, result_takeBalance_of_some hl.layers_eq,
    Update.balance_between hl.seen hl.unseen⟩

lemma priced_of_layers {l : Layers} (hl : a.tracker.layers[x]? = some l)
    (h : Priced value l.unseen) (l' : Layers) (hl' : a.layersOf x = .ok l') :
    Priced value l'.unseen := by
  rw [layersOf, Tracker.layersOf_of_some hl] at hl'
  obtain rfl := Except.ok.inj hl'
  exact h

/-- Two outputs are reported, whose values add up to more than `2 ^ 64`; then the greater one is
gone. -/
theorem Watched.conserves_of_overflow :
    let k : ExtendedKey := ⟨Bytes.zeros 33, [], []⟩
    let start : Agent := ⟨.empty .regtest .p2wpkh, .empty, 0⟩
    let main := Address.ofKey .standard .regtest .p2wpkh k.publicKey
    let great : Utxo := ⟨⟨[1], 0⟩, 18446744073709551615, 7⟩
    let small : Utxo := ⟨⟨[2], 0⟩, 2, 7⟩
    let value : OutPoint → UInt64 := fun o =>
      if o = great.outPoint then great.value else small.value
    let begun := after .standard start (.adopt k)
    let reported := after .standard begun (.reconcile main ⟨[small, great, small], 9⟩)
    let taken := after .standard reported (.takeBalance main)
    let a := after .standard taken (.install ⟨main, [small], 10⟩)
    Watched .standard value main a [⟨1, 0⟩] ∧
      ∃ l p, a.layersOf main = .ok l ∧ net [⟨1, 0⟩] = Utxo.balance l.seen ∧
        a.pendingBalance main = .ok p ∧ (run (takeBalance main) a).result = .ok p ∧
        Utxo.balance l.seen + p.added - p.removed = Utxo.balance l.unseen := by
  intro k start main great small value begun reported taken a
  obtain ⟨hbegins, hbegun⟩ := begins_adopt .standard (rfl : k.publicKey.length = 33) start
  have hwatched : Watched .standard value main begun [] := .began (.adopt k) hbegins
  replace hbegun : begun.tracker.layers[main]? = some (.fresh 0) := hbegun
  clear_value begun main
  let raw : Snapshot := ⟨[small, great, small], 9⟩
  have hreported : reported.tracker.layers[main]? = some ((Layers.fresh 0).reconcile raw.utxos) :=
    (congrArg (·.tracker.layers[main]?) (state_reconcile begun main raw)).trans
      (getElem?_modify_of_some hbegun _)
  have htaken : taken.tracker.layers[main]? =
      some ((Layers.fresh 0).reconcile raw.utxos).commit :=
    (congrArg (·.tracker.layers[main]?) (state_takeBalance reported main)).trans
      (getElem?_modify_of_some hreported _)
  have hinstalled : a.tracker.layers[main]? =
      some (((Layers.fresh 0).reconcile raw.utxos).commit.install [small]) :=
    (congrArg (·.tracker.layers[main]?) (state_install taken ⟨main, [small], 10⟩)).trans
      (getElem?_modify_of_some htaken _)
  have hbalance : ((Layers.fresh 0).reconcile raw.utxos).pending.balance = ⟨1, 0⟩ := by
    decide +kernel
  have hview : Priced value ((Layers.fresh 0).view raw.utxos) :=
    priced_view rfl (by decide)
  replace hwatched : Watched .standard value main reported [] :=
    hwatched.called _ trivial (priced_of_layers hreported hview)
  replace hwatched : Watched .standard value main taken [⟨1, 0⟩] := by
    have h := hwatched.called (.takeBalance main) trivial (priced_of_layers htaken hview)
    rwa [acknowledged, if_pos rfl, result_takeBalance_of_some hreported, hbalance] at h
  replace hwatched : Watched .standard value main a [⟨1, 0⟩] :=
    hwatched.called _ trivial (priced_of_layers hinstalled ⟨by decide, by decide⟩)
  exact ⟨hwatched, hwatched.conserves⟩

end WatchWallet.Agent
