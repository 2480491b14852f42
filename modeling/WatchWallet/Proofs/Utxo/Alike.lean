import WatchWallet.Proofs.Utxo.Tracker
import WatchWallet.Proofs.Utxo.View

/-!
Layers that differ only in the order and the repetition of what the wallet itself spent and
created.

Which record of an outpoint is kept does not depend on the order of the records, as long as those
of one height are the same. So alike layers give the same view of every raw report, and whatever
is done to both leaves them alike.
-/

namespace WatchWallet.Layers

/-! ### The record that is kept of several -/

lemma higher_higher (u v : Utxo) (kept : Option Utxo) :
    higher u (some (higher v kept)) = higher (higher u (some v)) kept := by
  cases kept with
  | none => rfl
  | some w =>
    simp only [higher, UInt32.lt_iff_toNat_lt]
    split_ifs <;> first | rfl | omega

/-- Of two lists, what is kept of the second competes with what is kept of the first. -/
lemma best_append (us vs : List Utxo) :
    best (us ++ vs) = (best vs).elim (best us) fun v => some (higher v (best us)) := by
  induction vs using List.reverseRecOn with
  | nil => simp
  | append_singleton vs w ih =>
    calc best (us ++ (vs ++ [w]))
        = some (higher w (best (us ++ vs))) := by
          rw [← List.append_assoc, best_append_singleton]
      _ = (best (vs ++ [w])).elim (best us) fun v => some (higher v (best us)) := by
          rw [ih, best_append_singleton]
          cases best vs with
          | none => rfl
          | some v => exact congrArg some (higher_higher w v (best us))

/-- Records of one outpoint at one height are the same. -/
def Coherent (us : List Utxo) : Prop :=
  ∀ u ∈ us, ∀ v ∈ us, u.outPoint = v.outPoint → u.height = v.height → u.value = v.value

lemma Coherent.eq_of_height_eq {us : List Utxo} (h : Coherent us) {u v : Utxo} (hu : u ∈ us)
    (hv : v ∈ us) (hpoint : u.outPoint = v.outPoint) (hheight : u.height = v.height) : u = v := by
  have hvalue := h u hu v hv hpoint hheight
  cases u
  cases v
  simp_all

/-- The records of coherent lists with the same members have the same best one. -/
theorem Coherent.best_eq {us vs : List Utxo} (h : Coherent us) (hmem : ∀ u, u ∈ vs ↔ u ∈ us)
    (o : OutPoint) :
    best (vs.filter (·.outPoint = o)) = best (us.filter (·.outPoint = o)) := by
  have hfilter : ∀ u, u ∈ vs.filter (·.outPoint = o) ↔ u ∈ us.filter (·.outPoint = o) := by
    intro u
    rw [List.mem_filter, List.mem_filter, hmem u]
  cases hu : best (us.filter (·.outPoint = o)) with
  | none =>
    rw [best_eq_none_iff, List.eq_nil_iff_forall_not_mem] at hu ⊢
    exact fun u hu' => hu u ((hfilter u).mp hu')
  | some u =>
    have hfirst := firstHighest_of_best hu
    cases hv : best (vs.filter (·.outPoint = o)) with
    | none =>
      have hin := (hfilter u).mpr hfirst.mem
      rw [best_eq_none_iff.mp hv] at hin
      cases hin
    | some v =>
      have hfirst' := firstHighest_of_best hv
      have hin := (hfilter v).mp hfirst'.mem
      have hle := hfirst.height_le hin
      have hge := hfirst'.height_le ((hfilter u).mpr hfirst.mem)
      obtain ⟨hu', ho⟩ := List.mem_filter.mp hfirst.mem
      obtain ⟨hv', ho'⟩ := List.mem_filter.mp hin
      have hpoint : v.outPoint = u.outPoint :=
        (of_decide_eq_true ho').trans (of_decide_eq_true ho).symm
      exact congrArg some (h.eq_of_height_eq hv' hu' hpoint (UInt32.le_antisymm hle hge))

/-! ### Alike layers -/

/-- Only the order and the repetition of what was spent and created differ. -/
structure Alike (l l' : Layers) : Prop where
  seen_eq : l'.seen = l.seen
  unseen_eq : l'.unseen = l.unseen
  depth_eq : l'.depth = l.depth
  mem_spent_iff : ∀ o, o ∈ l'.spent ↔ o ∈ l.spent
  best_eq : ∀ o, best (l'.generated.filter (·.outPoint = o)) =
    best (l.generated.filter (·.outPoint = o))

lemma alike_refl (l : Layers) : Alike l l := ⟨rfl, rfl, rfl, fun _ => Iff.rfl, fun _ => rfl⟩

lemma filter_filter_outPoint (us : List Utxo) (spent : List OutPoint) (o : OutPoint) :
    (us.filter (·.outPoint ∉ spent)).filter (·.outPoint = o) =
      if o ∈ spent then [] else us.filter (·.outPoint = o) := by
  rw [List.filter_filter]
  split_ifs with ho
  · rw [List.filter_eq_nil_iff]
    rintro u - hu
    simp only [Bool.and_eq_true, decide_eq_true_eq] at hu
    exact hu.2 (hu.1 ▸ ho)
  · apply List.filter_congr
    intro u _
    by_cases hu : u.outPoint = o <;> simp [hu, ho]

namespace Alike

variable {l l' : Layers} (h : Alike l l')
include h

lemma pending_eq : l'.pending = l.pending := by
  rw [pending, pending, h.seen_eq, h.unseen_eq]

/-- **The same view** of every raw report. -/
theorem view_eq (raw : List Utxo) : l'.view raw = l.view raw := by
  rw [view, view, h.depth_eq]
  split_ifs with hdepth
  · rfl
  rw [distinct, distinct]
  congr 2
  apply Std.ExtTreeMap.ext_getElem?
  intro o
  rw [getElem?_foldl_record, getElem?_foldl_record, filter_filter_outPoint,
    filter_filter_outPoint]
  simp only [h.mem_spent_iff o, List.filter_append, best_append, h.best_eq o, apply_ite best]

lemma commit : Alike l.commit l'.commit := ⟨h.unseen_eq, h.unseen_eq, h.depth_eq, h.mem_spent_iff, h.best_eq⟩

lemma install (us : List Utxo) : Alike (l.install us) (l'.install us) :=
  ⟨h.seen_eq, rfl, h.depth_eq, h.mem_spent_iff, h.best_eq⟩

lemma reconcile (raw : List Utxo) : Alike (l.reconcile raw) (l'.reconcile raw) := by
  rw [Layers.reconcile, Layers.reconcile, h.view_eq]
  exact h.install _

end Alike

end WatchWallet.Layers
