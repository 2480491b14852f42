import Mathlib.Data.Finset.Basic
import Mathlib.Data.Finset.Dedup
import WatchWallet.Proofs.Utxo.Run

/-!
What the acknowledged updates of an address add up to.

The ledger of a list of updates is what remains when the outpoints of each are taken out and put
in, in turn. Along any run the ledger of the acknowledged updates is the seen layer. So an
outpoint is not reported as new while it is in the ledger, nor as gone while it is not.
-/

namespace WatchWallet

open WatchWallet.Action

def outPoints (us : List Utxo) : Finset OutPoint := (us.map Utxo.outPoint).toFinset

lemma mem_outPoints {us : List Utxo} {o : OutPoint} :
    o ∈ outPoints us ↔ o ∈ us.map Utxo.outPoint := List.mem_toFinset

/-- An element of a list with one more at the end is the last one or stands before it. -/
lemma append_singleton_eq_append_cons_iff {α : Type} {l before since : List α} {a b : α} :
    l ++ [b] = before ++ a :: since ↔
      (since = [] ∧ l = before ∧ a = b) ∨
        ∃ since', since = since' ++ [b] ∧ l = before ++ a :: since' := by
  rcases List.eq_nil_or_concat since with rfl | ⟨since', c, rfl⟩
  · simp [eq_comm (a := a)]
  · rw [List.concat_eq_append, ← List.cons_append, ← List.append_assoc, List.append_singleton_inj]
    constructor
    · rintro ⟨rfl, rfl⟩
      exact Or.inr ⟨since', rfl, rfl⟩
    · rintro (⟨hnil, -⟩ | ⟨since'', heq, rfl⟩)
      · simp at hnil
      · obtain ⟨rfl, rfl⟩ := List.append_singleton_inj.mp heq
        exact ⟨rfl, rfl⟩

namespace Update

def gained (u : Update) : Finset OutPoint := outPoints u.added

def lost (u : Update) : Finset OutPoint := outPoints u.removed

lemma mem_gained_between {seen unseen : List Utxo} {o : OutPoint} :
    o ∈ (between seen unseen).gained ↔ o ∈ outPoints unseen ∧ o ∉ outPoints seen := by
  simp only [gained, between, mem_outPoints, List.mem_map, List.mem_filter, decide_eq_true_eq]
  grind

lemma mem_lost_between {seen unseen : List Utxo} {o : OutPoint} :
    o ∈ (between seen unseen).lost ↔ o ∈ outPoints seen ∧ o ∉ outPoints unseen := by
  simp only [lost, between, mem_outPoints, List.mem_map, List.mem_filter, decide_eq_true_eq]
  grind

@[simp] lemma between_self (us : List Utxo) : between us us = ⟨[], []⟩ := by
  have hnone : us.filter (·.outPoint ∉ us.map Utxo.outPoint) = [] := by
    rw [List.filter_eq_nil_iff]
    intro u hu
    simpa using ⟨u, hu, rfl⟩
  rw [between, hnone]

/-- What remains of some outpoints after an update. -/
def applyTo (c : Finset OutPoint) (u : Update) : Finset OutPoint := c \ u.lost ∪ u.gained

/-- An update brings the outpoints of one list to those of the other. -/
lemma applyTo_between (seen unseen : List Utxo) :
    applyTo (outPoints seen) (between seen unseen) = outPoints unseen := by
  ext o
  rw [applyTo, Finset.mem_union, Finset.mem_sdiff, mem_lost_between, mem_gained_between]
  tauto

/-- The outpoints that acknowledged updates leave, from none. -/
def ledger (reports : List Update) : Finset OutPoint := reports.foldl applyTo ∅

@[simp] lemma ledger_nil : ledger [] = ∅ := rfl

lemma ledger_append_singleton (reports : List Update) (u : Update) :
    ledger (reports ++ [u]) = applyTo (ledger reports) u := by
  rw [ledger, List.foldl_append, List.foldl_cons, List.foldl_nil, ledger]

/-- An outpoint is in the ledger if it was reported as new and not as gone since. -/
theorem mem_ledger_iff {reports : List Update} {o : OutPoint} :
    o ∈ ledger reports ↔ ∃ before u since, reports = before ++ u :: since ∧ o ∈ u.gained ∧
      ∀ v ∈ since, o ∉ v.lost := by
  induction reports using List.reverseRecOn with
  | nil => simp
  | append_singleton reports w ih =>
    rw [ledger_append_singleton, applyTo, Finset.mem_union, Finset.mem_sdiff, ih]
    constructor
    · rintro (⟨⟨before, u, since, rfl, hu, hsince⟩, hw⟩ | hw)
      · refine ⟨before, u, since ++ [w], by simp, hu, ?_⟩
        simpa [or_imp, forall_and] using ⟨hsince, hw⟩
      · exact ⟨reports, w, [], rfl, hw, by simp⟩
    · rintro ⟨before, u, since, heq, hu, hsince⟩
      rcases append_singleton_eq_append_cons_iff.mp heq with ⟨-, -, rfl⟩ | ⟨since', rfl, hreports⟩
      · exact Or.inr hu
      · refine Or.inl ⟨⟨before, u, since', hreports, hu, fun x hx => ?_⟩, ?_⟩
        · exact hsince x (by simp [hx])
        · exact hsince w (by simp)

/-- An update that can follow a ledger: what it reports as new is not there, and what it reports
as gone is. -/
structure Fits (c : Finset OutPoint) (u : Update) : Prop where
  gained_disjoint : Disjoint u.gained c
  lost_subset : u.lost ⊆ c

lemma fits_between (seen unseen : List Utxo) :
    Fits (outPoints seen) (between seen unseen) where
  gained_disjoint := Finset.disjoint_left.mpr fun _ h => (mem_gained_between.mp h).2
  lost_subset _ h := (mem_lost_between.mp h).1

/-- Each update fits what those before it leave. -/
def Consistent (reports : List Update) : Prop :=
  ∀ before u since, reports = before ++ u :: since → Fits (ledger before) u

lemma consistent_nil : Consistent [] := by
  intro before u since h
  simp at h

lemma Consistent.append_singleton {reports : List Update} (h : Consistent reports) {w : Update}
    (hw : Fits (ledger reports) w) : Consistent (reports ++ [w]) := by
  intro before u since heq
  rcases append_singleton_eq_append_cons_iff.mp heq with ⟨-, rfl, rfl⟩ | ⟨since', -, hreports⟩
  · exact hw
  · exact h before u since' hreports

section Consistent

variable {reports : List Update} (h : Consistent reports) {o : OutPoint}
include h

/-- Between two reports of an outpoint as new there is one of it as gone. -/
lemma Consistent.exists_lost_between {before mid after : List Update} {u v : Update}
    (heq : reports = before ++ u :: mid ++ v :: after) (hu : o ∈ u.gained) (hv : o ∈ v.gained) :
    ∃ w ∈ mid, o ∈ w.lost := by
  by_contra hnone
  push Not at hnone
  have hin : o ∈ ledger (before ++ u :: mid) := mem_ledger_iff.mpr ⟨before, u, mid, rfl, hu, hnone⟩
  exact Finset.disjoint_left.mp (h _ v after heq).gained_disjoint hv hin

/-- What is reported as gone was reported as new, and not as gone since. -/
lemma Consistent.exists_gained_before {before after : List Update} {v : Update}
    (heq : reports = before ++ v :: after) (hv : o ∈ v.lost) :
    ∃ first u mid, before = first ++ u :: mid ∧ o ∈ u.gained ∧ ∀ w ∈ mid, o ∉ w.lost :=
  mem_ledger_iff.mp ((h before v after heq).lost_subset hv)

end Consistent

end Update

namespace Tracker

open Update

/-- The update that a call on the address acknowledges, if it does. -/
def acknowledged (x : Address) (t : Tracker) : Call → Option Update
  | .commit y => if y = x then (t.pending x).toOption else none
  | .takeUpdate y => if y = x then (run (takeUpdate x) t).result.toOption else none
  | _ => none

/-- The tracker after a run of calls, and the updates of an address acknowledged on the way. -/
def history (x : Address) (t : Tracker) (calls : List Call) : Tracker × List Update :=
  calls.foldl (fun h call => (after h.1 call, h.2 ++ (acknowledged x h.1 call).toList)) (t, [])

@[simp] lemma history_nil (x : Address) (t : Tracker) : history x t [] = (t, []) := rfl

lemma history_append_singleton (x : Address) (t : Tracker) (calls : List Call) (call : Call) :
    history x t (calls ++ [call]) =
      (after (history x t calls).1 call,
        (history x t calls).2 ++ (acknowledged x (history x t calls).1 call).toList) := by
  rw [history, List.foldl_append, List.foldl_cons, List.foldl_nil, history]

/-- The address is tracked, and its seen layer is what the acknowledged updates leave. -/
structure Accounted (x : Address) (t : Tracker) (reports : List Update) : Prop where
  seen : ∃ l, t.layers[x]? = some l ∧ ledger reports = outPoints l.seen
  consistent : Consistent reports

lemma accounted_track {t : Tracker} {x : Address} (hx : x ∉ t.layers) (depth : UInt32) :
    Accounted x (run (track x depth) t).state [] := by
  refine ⟨⟨.fresh depth, ?_, rfl⟩, consistent_nil⟩
  rw [track, run_modify, Std.ExtTreeMap.getElem?_insertIfNew,
    if_pos ⟨Std.ReflOrd.compare_self, hx⟩]

/-- What acknowledging the pending update makes of the ledger. -/
lemma Accounted.acknowledge {t : Tracker} {x : Address} {reports : List Update} {l : Layers}
    (h : Accounted x t reports) (hl : t.layers[x]? = some l) :
    Fits (ledger reports) l.pending ∧ ledger (reports ++ [l.pending]) = outPoints l.unseen := by
  obtain ⟨l', hl', hseen⟩ := h.seen
  obtain rfl : l = l' := Option.some.inj (hl.symm.trans hl')
  rw [ledger_append_singleton, hseen]
  exact ⟨fits_between l.seen l.unseen, applyTo_between l.seen l.unseen⟩

/-- One call keeps the account. -/
theorem Accounted.step {t : Tracker} {x : Address} {reports : List Update}
    (h : Accounted x t reports) {call : Call} (hcall : call.Spares x) :
    Accounted x (after t call) (reports ++ (acknowledged x t call).toList) := by
  obtain ⟨l, hl, hseen⟩ := h.seen
  obtain ⟨hfits, hledger⟩ := h.acknowledge hl
  have hafter := layers_after hl hcall
  have hkept : acknowledged x t call = none → (call.effect x l).seen = l.seen →
      Accounted x (after t call) (reports ++ (acknowledged x t call).toList) := by
    intro hnone hsame
    rw [hnone, Option.toList_none, List.append_nil]
    exact ⟨⟨_, hafter, by rw [hseen, hsame]⟩, h.consistent⟩
  have htaken : acknowledged x t call = some l.pending → call.effect x l = l.commit →
      Accounted x (after t call) (reports ++ (acknowledged x t call).toList) := by
    intro hsome hcommit
    rw [hsome, Option.toList_some]
    rw [hcommit] at hafter
    exact ⟨⟨_, hafter, hledger⟩, h.consistent.append_singleton hfits⟩
  cases call with
  | commit y =>
    by_cases hy : y = x
    · refine htaken ?_ (by simp [Call.effect, hy])
      simp [acknowledged, hy, pending_of_some hl, Except.toOption]
    · exact hkept (by simp [acknowledged, hy]) (by simp [Call.effect, hy])
  | takeUpdate y =>
    by_cases hy : y = x
    · refine htaken ?_ (by simp [Call.effect, hy])
      simp [acknowledged, hy, result_takeUpdate, pending_of_some hl, Except.toOption]
    · exact hkept (by simp [acknowledged, hy]) (by simp [Call.effect, hy])
  | install y us => exact hkept rfl (by by_cases hy : y = x <;> simp [Call.effect, hy])
  | reconcile y raw =>
    exact hkept rfl (by by_cases hy : y = x <;> simp [Call.effect, hy, Layers.reconcile])
  | addSpent y o =>
    exact hkept rfl (by by_cases hy : y = x <;> simp [Call.effect, hy, Layers.addSpent])
  | addGenerated y u =>
    exact hkept rfl (by by_cases hy : y = x <;> simp [Call.effect, hy, Layers.addGenerated])
  | _ => exact hkept rfl rfl

/-- A whole run keeps the account. -/
theorem accounted_history {t : Tracker} {x : Address} (h : Accounted x t []) {calls : List Call}
    (hcalls : ∀ call ∈ calls, call.Spares x) :
    Accounted x (history x t calls).1 (history x t calls).2 := by
  induction calls using List.reverseRecOn with
  | nil => exact h
  | append_singleton calls call ih =>
    rw [history_append_singleton]
    exact (ih fun c hc => hcalls c (by simp [hc])).step (hcalls call (by simp))

/-- Once acknowledged, nothing is pending. -/
lemma pending_after_of_commit {t : Tracker} {x : Address} {l : Layers} (hl : t.layers[x]? = some l)
    {call : Call} (hcall : call.Spares x) (heffect : call.effect x l = l.commit) :
    (after t call).pending x = .ok ⟨[], []⟩ := by
  have hafter := layers_after hl hcall
  rw [heffect] at hafter
  rw [pending_of_some hafter, Layers.pending, Layers.seen_commit, Layers.unseen_commit,
    between_self]

/-- **Exactly once**: along any run, the acknowledged updates of an address add up to its seen
layer and the pending one leads on to the unseen layer. So what is new is reported once until it
is reported as gone, what is gone was reported before, and nothing is left out. -/
theorem reports_exactly_once {t : Tracker} {x : Address} (hx : x ∉ t.layers) (depth : UInt32)
    {calls : List Call} (hcalls : ∀ call ∈ calls, call.Spares x) :
    let start := (run (track x depth) t).state
    let now := (history x start calls).1
    let reports := (history x start calls).2
    (∃ l, now.layersOf x = .ok l ∧ ledger reports = outPoints l.seen ∧
      (now.pending x = .ok l.pending ∧ Fits (ledger reports) l.pending ∧
        ledger (reports ++ [l.pending]) = outPoints l.unseen) ∧
      ((run (commit x) now).result = .ok () ∧ (run (takeUpdate x) now).result = .ok l.pending) ∧
      ∀ call, call = .commit x ∨ call = .takeUpdate x →
        acknowledged x now call = some l.pending ∧ (after now call).pending x = .ok ⟨[], []⟩) ∧
    Consistent reports ∧
    (∀ o before u mid v since, reports = before ++ u :: mid ++ v :: since →
      o ∈ u.gained → o ∈ v.gained → ∃ w ∈ mid, o ∈ w.lost) ∧
    ∀ o before v since, reports = before ++ v :: since → o ∈ v.lost →
      ∃ first u mid, before = first ++ u :: mid ∧ o ∈ u.gained ∧ ∀ w ∈ mid, o ∉ w.lost := by
  intro start now reports
  have haccount : Accounted x now reports := accounted_history (accounted_track hx depth) hcalls
  obtain ⟨l, hl, hseen⟩ := haccount.seen
  have hpending := pending_of_some hl
  have hcommit : (run (commit x) now).result = .ok () := by rw [commit, run_change_of_some hl]
  have htake : (run (takeUpdate x) now).result = .ok l.pending := by
    rw [result_takeUpdate, hpending]
  refine ⟨⟨l, layersOf_of_some hl, hseen, ⟨hpending, haccount.acknowledge hl⟩, ⟨hcommit, htake⟩, ?_⟩,
    haccount.consistent, ?_, ?_⟩
  · rintro call (rfl | rfl)
    · refine ⟨?_, pending_after_of_commit hl trivial (by simp [Call.effect])⟩
      rw [acknowledged, if_pos rfl, hpending, Except.toOption]
    · refine ⟨?_, pending_after_of_commit hl trivial (by simp [Call.effect])⟩
      rw [acknowledged, if_pos rfl, htake, Except.toOption]
  · intro o before u mid v since heq
    exact haccount.consistent.exists_lost_between heq
  · intro o before v since heq
    exact haccount.consistent.exists_gained_before heq

theorem reports_exactly_once_of_return :
    let x : Address := default
    let u : Utxo := ⟨⟨[1], 0⟩, 5, 7⟩
    let calls : List Call := [.reconcile x ⟨[u, u], 7⟩, .takeUpdate x, .install x [],
      .pending x, .commit x, .reconcile x ⟨[u], 8⟩, .track x 0, .takeUpdate x]
    let reports := (history x (run (track x 1) empty).state calls).2
    x ∉ empty.layers ∧ (∀ call ∈ calls, call.Spares x) ∧
      reports = [⟨[u, u], []⟩, ⟨[], [u, u]⟩, ⟨[u], []⟩] ∧ Consistent reports := by
  intro x u calls reports
  have hx : x ∉ empty.layers := by simp [empty]
  have hcalls : ∀ call ∈ calls, call.Spares x := by simp [calls, Call.Spares]
  refine ⟨hx, hcalls, ?_, (reports_exactly_once hx 1 hcalls).2.1⟩
  decide +kernel

end Tracker

end WatchWallet
