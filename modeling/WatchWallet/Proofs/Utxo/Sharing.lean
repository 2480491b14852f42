import Mathlib.Logic.Relation
import WatchWallet.Proofs.Lock
import WatchWallet.Proofs.Utxo.Reports

/-!
Tasks that share an address by its lock.

A task learns the pending update of an address and acknowledges it in two steps, and others run in
between. What it was told is still pending when it commits, as long as every task looks and commits
only under a guard that owns the address, whatever is done to other addresses meanwhile.
-/

namespace WatchWallet

open WatchWallet.Action
open Function (update)

namespace Tracker

/-- A way to learn the pending update of an address. -/
inductive Look
  | peek
  | install (us : List Utxo)
  | reconcile (raw : Snapshot)

namespace Look

variable (x : Address)

def operation : Look → Action Tracker Update
  | .peek => do (← get).pending x
  | .install us => Tracker.install x us
  | .reconcile raw => Tracker.reconcile x raw

/-- What a look does to the layers of the address. -/
def effect : Look → Layers → Layers
  | .peek => id
  | .install us => (·.install us)
  | .reconcile raw => Layers.reconcile raw.utxos

lemma seen_effect (how : Look) (l : Layers) : (how.effect l).seen = l.seen := by
  cases how <;> rfl

lemma state_operation (how : Look) (t : Tracker) :
    (run (how.operation x) t).state = t.modify x how.effect := by
  cases how with
  | peek => simp [operation, effect, run_bind]
  | install us => exact state_install t x us
  | reconcile raw => exact state_reconcile t x raw

/-- A look answers what is pending in the state that it leaves. -/
lemma result_operation (how : Look) (t : Tracker) :
    (run (how.operation x) t).result = (t.modify x how.effect).pending x := by
  cases how with
  | peek => simp [operation, effect, run_bind]
  | install us => exact result_install t x us
  | reconcile raw => exact result_reconcile t x raw

end Look

/-- The call leaves the seen and the unseen layer of the address alone. -/
def Call.Bystands (x : Address) : Call → Prop
  | .restore y _ | .untrack y | .commit y | .takeUpdate y | .install y _ | .reconcile y _ => y ≠ x
  | .track .. | .pending _ | .addSpent .. | .addGenerated .. => True

lemma Call.Bystands.spares {x : Address} {call : Call} (h : call.Bystands x) : call.Spares x := by
  cases call <;> first | exact h | trivial

lemma Call.Bystands.effect_eq {x : Address} {call : Call} (h : call.Bystands x) (l : Layers) :
    (call.effect x l).seen = l.seen ∧ (call.effect x l).pending = l.pending := by
  cases call with
  | commit y => simp [effect, show y ≠ x from h]
  | takeUpdate y => simp [effect, show y ≠ x from h]
  | install y us => simp [effect, show y ≠ x from h]
  | reconcile y raw => simp [effect, show y ≠ x from h]
  | addSpent y o => by_cases hy : y = x <;> simp [effect, hy, Layers.addSpent, Layers.pending]
  | addGenerated y u =>
    by_cases hy : y = x <;> simp [effect, hy, Layers.addGenerated, Layers.pending]
  | _ => exact ⟨rfl, rfl⟩

end Tracker

open Tracker LockSet

/-- What the tasks of a host work on, the guard of each task, what each was told and has not
acknowledged since, and what has been acknowledged so far. -/
structure Host (ι : Type) where
  locks : LockSet
  tracker : Tracker
  guards : ι → Option Guard
  told : ι → Option Update
  reports : List Update

namespace Host

variable {ι : Type} [DecidableEq ι] {x : Address} {t : Tracker} {l₀ : Layers} {s s' : Host ι}

def start (t : Tracker) : Host ι := ⟨.empty, t, fun _ => none, fun _ => none, []⟩

/-- One step of one task on the address, or of anyone elsewhere. A task whose guard does not own
the address can only leave. -/
inductive Step (x : Address) : Host ι → Host ι → Prop
  | enter {s : Host ι} (i : ι) (y : Address) (hi : s.guards i = none) :
      Step x s { s with
        locks := (s.locks.guard y).2
        guards := update s.guards i (some (s.locks.guard y).1) }
  | look {s : Host ι} (i : ι) (how : Look) (u : Update) (hi : Owns s.guards i x)
      (hu : (run (how.operation x) s.tracker).result = .ok u) :
      Step x s { s with
        tracker := (run (how.operation x) s.tracker).state
        told := update s.told i (some u) }
  | commit {s : Host ι} (i : ι) (u : Update) (hi : Owns s.guards i x) (hu : s.told i = some u) :
      Step x s { s with
        tracker := (run (Tracker.commit x) s.tracker).state
        told := update s.told i none
        reports := s.reports ++ [u] }
  | leave {s : Host ι} (i : ι) (g : Guard) (hi : s.guards i = some g) :
      Step x s { s with
        locks := s.locks.drop g
        guards := update s.guards i none
        told := update s.told i none }
  | elsewhere {s : Host ι} (call : Call) (hcall : call.Bystands x) :
      Step x s { s with tracker := after s.tracker call }

/-- Guards exclude each other, what a task was told is pending, and the seen layer of the address
is what the acknowledged updates make of the one at the start. -/
structure Ordered (x : Address) (l₀ : Layers) (s : Host ι) : Prop where
  exclusive : Exclusive s.locks s.guards
  told : ∀ i u, s.told i = some u → Owns s.guards i x ∧ s.tracker.pending x = .ok u
  seen : ∃ l, s.tracker.layers[x]? = some l ∧
    s.reports.foldl Update.applyTo (outPoints l₀.seen) = outPoints l.seen

omit [DecidableEq ι] in
lemma ordered_start (hl₀ : t.layers[x]? = some l₀) : Ordered x l₀ (start t : Host ι) where
  exclusive := exclusive_empty
  told _ _ h := nomatch h
  seen := ⟨l₀, hl₀, rfl⟩

omit [DecidableEq ι] in
/-- Only the task that holds the address was told of it. -/
lemma Ordered.eq_of_told (h : Ordered x l₀ s) {i j : ι} {u : Update} (hi : Owns s.guards i x)
    (hj : s.told j = some u) : j = i :=
  h.exclusive.unique x j i (h.told j u hj).1 hi

lemma update_eq_some_iff {α : Type} {f : ι → Option α} {i j : ι} {v : Option α} {a : α} :
    update f i v j = some a ↔ j = i ∧ v = some a ∨ j ≠ i ∧ f j = some a := by
  rw [Function.update_apply]
  split_ifs with hji <;> simp [hji]

/-- One step keeps the order. -/
theorem Ordered.step (h : Ordered x l₀ s) (hs : Step x s s') : Ordered x l₀ s' := by
  obtain ⟨l, hl, hseen⟩ := h.seen
  cases hs with
  | enter i y hi =>
    refine ⟨h.exclusive.guard hi y, fun j u hj => ?_, l, hl, hseen⟩
    exact ⟨(owns_update_guard hi).mpr (Or.inr (h.told j u hj).1), (h.told j u hj).2⟩
  | look i how u hi hu =>
    rw [how.state_operation]
    rw [how.result_operation] at hu
    refine ⟨h.exclusive, fun j v hj => ?_, how.effect l, ?_, ?_⟩
    · rcases update_eq_some_iff.mp hj with ⟨rfl, hv⟩ | ⟨hji, hj⟩
      · exact ⟨hi, hu.trans (congrArg _ (Option.some.inj hv))⟩
      · exact absurd (h.eq_of_told hi hj) hji
    · exact getElem?_modify_self hl how.effect
    · rw [how.seen_effect, hseen]
  | commit i u hi hu =>
    have hpending : l.pending = u := by
      simpa [pending_of_some hl] using (h.told i u hu).2
    refine ⟨h.exclusive, fun j v hj => ?_, l.commit, ?_, ?_⟩
    · rcases update_eq_some_iff.mp hj with ⟨-, hv⟩ | ⟨hji, hj⟩
      · cases hv
      · exact absurd (h.eq_of_told hi hj) hji
    · rw [Tracker.commit, state_change, getElem?_modify_self hl]
    · rw [List.foldl_append, hseen, ← hpending]
      exact Update.applyTo_between l.seen l.unseen
  | leave i g hi =>
    refine ⟨h.exclusive.drop hi, fun j u hj => ?_, l, hl, hseen⟩
    rcases update_eq_some_iff.mp hj with ⟨-, hv⟩ | ⟨hji, hj⟩
    · cases hv
    · exact ⟨owns_update_none.mpr ⟨hji, (h.told j u hj).1⟩, (h.told j u hj).2⟩
  | elsewhere call hcall =>
    have hafter := layers_after hl hcall.spares
    obtain ⟨hsame, hkept⟩ := hcall.effect_eq l
    refine ⟨h.exclusive, fun j u hj => ⟨(h.told j u hj).1, ?_⟩, _, hafter, by rw [hseen, hsame]⟩
    rw [pending_of_some hafter, hkept, ← pending_of_some hl]
    exact (h.told j u hj).2

/-- Every run keeps the order. -/
lemma ordered_of_run (hl₀ : t.layers[x]? = some l₀)
    (h : Relation.ReflTransGen (Step x) (start t) s) : Ordered x l₀ s := by
  induction h with
  | refl => exact ordered_start hl₀
  | tail _ hs ih => exact ih.step hs

/-- **No update is lost**: however the steps of the tasks interleave, a task that holds the address
always gets an answer when it looks, and what it was told last is pending until it commits. So its
commit moves the seen layer by just that update, and the acknowledged updates add up to the seen
layer. -/
theorem commits_what_was_told (hl₀ : t.layers[x]? = some l₀)
    (h : Relation.ReflTransGen (Step x) (start t) s) :
    (∀ i u, s.told i = some u →
      s.tracker.pending x = .ok u ∧ (run (Tracker.commit x) s.tracker).result = .ok () ∧
      ∃ l l', s.tracker.layersOf x = .ok l ∧
        (run (Tracker.commit x) s.tracker).state.layersOf x = .ok l' ∧
        u = .between l.seen l'.seen) ∧
    (∀ how : Look, ∃ u, (run (how.operation x) s.tracker).result = .ok u) ∧
    (∀ i j, Owns s.guards i x → Owns s.guards j x → i = j) ∧
    ∃ l, s.tracker.layersOf x = .ok l ∧
      s.reports.foldl Update.applyTo (outPoints l₀.seen) = outPoints l.seen := by
  have hordered := ordered_of_run hl₀ h
  obtain ⟨l, hl, hseen⟩ := hordered.seen
  have hcommit := run_change_of_some hl Layers.commit
  refine ⟨fun i u hu => ?_, fun how => ?_, hordered.exclusive.unique x, l, layersOf_of_some hl,
    hseen⟩
  · have hpending := (hordered.told i u hu).2
    refine ⟨hpending, by rw [Tracker.commit, hcommit], l, l.commit, layersOf_of_some hl, ?_, ?_⟩
    · rw [Tracker.commit, hcommit]
      exact layersOf_of_some (by simp)
    · exact (Except.ok.inj ((pending_of_some hl).symm.trans hpending)).symm
  · rw [how.result_operation]
    exact (guarded_pending_modify how.effect).answers
      (Std.ExtTreeMap.isSome_getElem?_iff_mem.mp (by simp [hl]))

theorem commits_what_was_told_of_refused :
    let x : Address := default
    let u : Utxo := ⟨⟨[1], 0⟩, 5, 7⟩
    let t := (run (track x 0) empty).state
    t.layers[x]? = some (.fresh 0) ∧
      ∃ s : Host Bool, Relation.ReflTransGen (Step x) (start t) s ∧
        s.guards true = some ⟨x, false⟩ ∧ s.told false = some ⟨[u], []⟩ ∧
        s.tracker.pending x = .ok ⟨[u], []⟩ := by
  intro x u t
  have hl₀ : t.layers[x]? = some (.fresh 0) := by decide +kernel
  have hfirst := (Relation.ReflTransGen.refl (r := Step x) (a := (start t : Host Bool))).tail
    (.enter false x rfl)
  have hboth := hfirst.tail (.enter true x rfl)
  have hlook := hboth.tail (.look false (.reconcile ⟨[u], 7⟩) ⟨[u], []⟩
    ⟨⟨x, true⟩, by decide +kernel, rfl, rfl⟩ (by decide +kernel))
  refine ⟨hl₀, _, hlook, by decide +kernel, rfl, ?_⟩
  exact ((commits_what_was_told hl₀ hlook).1 false ⟨[u], []⟩ rfl).1

end Host

end WatchWallet
