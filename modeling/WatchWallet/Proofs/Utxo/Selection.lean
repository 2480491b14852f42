import Mathlib.Data.List.Sort
import WatchWallet.Proofs.Utxo.Alike

/-!
Which records a view has, and in which order.

A record stands in a view of depth zero if its outpoint was not spent and it is the first of the
greatest height among all records of its outpoint, where those that are reported come before those
that the wallet created. The records stand in the order of their outpoints, so that no other list
has them. A view of a view is the same again: what was kept meets only created records once more,
and none of these is higher.
-/

namespace WatchWallet

/-- By the bytes of the transaction, as in a dictionary, and then by the index. -/
def OutPoint.Precedes (o o' : OutPoint) : Prop :=
  o.txid < o'.txid ∨ o.txid = o'.txid ∧ o.vout < o'.vout

lemma Bytes.compare_eq_lt_iff (bs bs' : Bytes) : compare bs bs' = .lt ↔ bs < bs' := by
  induction bs generalizing bs' with
  | nil => cases bs' <;> simp
  | cons b bs ih =>
    cases bs' with
    | nil => simp
    | cons b' bs' =>
      rw [List.compare_cons_cons, Ordering.then_eq_lt, ih, List.cons_lt_cons_iff,
        Std.compare_eq_lt, Std.LawfulEqOrd.compare_eq_iff_eq]

lemma OutPoint.compare_eq_lt_iff (o o' : OutPoint) : compare o o' = .lt ↔ o.Precedes o' := by
  have hthen : compare o o' = (compare o.txid o'.txid).then (compare o.vout o'.vout) := rfl
  rw [hthen, Ordering.then_eq_lt, Bytes.compare_eq_lt_iff, Std.LawfulEqOrd.compare_eq_iff_eq,
    Std.compare_eq_lt, Precedes]

namespace Layers

/-! ### The record that is kept -/

lemma best_cons_of_le {u : Utxo} {since : List Utxo} (h : ∀ v ∈ since, v.height ≤ u.height) :
    best (u :: since) = some u := by
  have hsplit := best_append [u] since
  rw [List.singleton_append] at hsplit
  rw [hsplit]
  cases hbest : best since with
  | none => rfl
  | some v =>
    have hle := h v (firstHighest_of_best hbest).mem
    exact congrArg some (if_neg (UInt32.not_lt.mpr hle))

theorem best_eq_some_iff {us : List Utxo} {u : Utxo} : best us = some u ↔ FirstHighest us u := by
  refine ⟨firstHighest_of_best, ?_⟩
  rintro ⟨before, since, rfl, hbefore, hsince⟩
  rw [best_append, best_cons_of_le hsince]
  change some (higher u (best before)) = some u
  cases hbest : best before with
  | none => rfl
  | some v =>
    have hlt := hbefore v (firstHighest_of_best hbest).mem
    exact congrArg some (if_pos hlt)

/-- Records that have been taken into account already do not count again. -/
lemma best_append_again (us vs : List Utxo) :
    ((best vs).elim (best (us ++ vs)) fun v => some (higher v (best (us ++ vs)))) =
      best (us ++ vs) := by
  rw [best_append]
  cases best vs with
  | none => rfl
  | some v =>
    have hself : higher v (some v) = v := ite_self _
    calc some (higher v (some (higher v (best us))))
        = some (higher (higher v (some v)) (best us)) := by rw [higher_higher]
      _ = some (higher v (best us)) := by rw [hself]

lemma mem_distinct_iff {us : List Utxo} {u : Utxo} :
    u ∈ distinct us ↔ best (us.filter (·.outPoint = u.outPoint)) = some u := by
  refine ⟨best_of_mem_distinct, fun h => ?_⟩
  rw [← getElem?_foldl_record, ← Std.ExtTreeMap.mem_toList_iff_getElem?_eq_some] at h
  exact List.mem_map.mpr ⟨(u.outPoint, u), h, rfl⟩

lemma best_filter_distinct (us : List Utxo) (o : OutPoint) :
    best ((distinct us).filter (·.outPoint = o)) = best (us.filter (·.outPoint = o)) := by
  cases hbest : best ((distinct us).filter (·.outPoint = o)) with
  | none =>
    have hnone : o ∉ us.map Utxo.outPoint := by
      rw [best_eq_none_iff, List.filter_eq_nil_iff] at hbest
      rw [← mem_map_outPoint_distinct, List.mem_map]
      rintro ⟨u, hu, rfl⟩
      exact hbest u hu (by simp)
    symm
    rw [best_eq_none_iff, List.filter_eq_nil_iff]
    intro u hu ho
    exact hnone (List.mem_map.mpr ⟨u, hu, by simpa using ho⟩)
  | some u =>
    obtain ⟨hu, ho⟩ := List.mem_filter.mp (firstHighest_of_best hbest).mem
    obtain rfl : u.outPoint = o := by simpa using ho
    exact (best_of_mem_distinct hu).symm

/-! ### The view -/

section View

variable {l : Layers} (h : l.depth = 0)
include h

lemma view_of_zero (raw : List Utxo) :
    l.view raw = distinct ((raw ++ l.generated).filter fun u => u.outPoint ∉ l.spent) := by
  rw [view, if_neg (by simp [h])]

/-- What is kept of an outpoint that was not spent. -/
lemma best_filter_view (raw : List Utxo) {o : OutPoint} (ho : o ∉ l.spent) :
    best ((l.view raw).filter (·.outPoint = o)) =
      best ((raw ++ l.generated).filter (·.outPoint = o)) := by
  rw [view_of_zero h, best_filter_distinct, filter_filter_outPoint, if_neg ho]

lemma mem_view_iff_best (raw : List Utxo) (u : Utxo) :
    u ∈ l.view raw ↔ u.outPoint ∉ l.spent ∧
      best ((raw ++ l.generated).filter (·.outPoint = u.outPoint)) = some u := by
  rw [view_of_zero h, mem_distinct_iff, filter_filter_outPoint]
  split_ifs with hspent <;> simp [hspent]

theorem pairwise_view (raw : List Utxo) :
    (l.view raw).Pairwise fun u v => u.outPoint.Precedes v.outPoint := by
  rw [view_of_zero h]
  refine (List.pairwise_map.mp (pairwise_distinct _)).imp ?_
  intro u v huv
  exact (OutPoint.compare_eq_lt_iff _ _).mp huv

end View

/-- Lists in the order of their outpoints that have the same members are the same. -/
lemma eq_of_pairwise {us vs : List Utxo}
    (hus : us.Pairwise fun u v => u.outPoint.Precedes v.outPoint)
    (hvs : vs.Pairwise fun u v => u.outPoint.Precedes v.outPoint)
    (hmem : ∀ u, u ∈ us ↔ u ∈ vs) : us = vs := by
  simp only [← OutPoint.compare_eq_lt_iff] at hus hvs
  have : Std.Irrefl fun u v : Utxo => compare u.outPoint v.outPoint = .lt :=
    ⟨fun u hu => Entries.ne_of_compare_eq_lt hu rfl⟩
  have : Std.Antisymm fun u v : Utxo => compare u.outPoint v.outPoint = .lt :=
    ⟨fun u v huv hvu => absurd hvu (Entries.not_compare_eq_lt huv)⟩
  exact hus.eq_of_mem_iff hvs hmem

/-- Records are selected to a list in the order of their outpoints: for each outpoint that has a
record and was not spent, the first record of the greatest height. -/
structure Selects (records : List Utxo) (spent : List OutPoint) (us : List Utxo) : Prop where
  increasing : us.Pairwise fun u v => u.outPoint.Precedes v.outPoint
  mem_iff : ∀ o, o ∈ us.map Utxo.outPoint ↔ o ∈ records.map Utxo.outPoint ∧ o ∉ spent
  first : ∀ u ∈ us, FirstHighest (records.filter (·.outPoint = u.outPoint)) u

lemma Selects.mem_iff_best {records us : List Utxo} {spent : List OutPoint}
    (h : Selects records spent us) (u : Utxo) :
    u ∈ us ↔ u.outPoint ∉ spent ∧
      best (records.filter (·.outPoint = u.outPoint)) = some u := by
  constructor
  · intro hu
    exact ⟨((h.mem_iff _).mp (List.mem_map_of_mem hu)).2, best_eq_some_iff.mpr (h.first u hu)⟩
  · rintro ⟨hspent, hbest⟩
    have hrecord := (List.mem_filter.mp (firstHighest_of_best hbest).mem).1
    obtain ⟨v, hv, hvu⟩ := List.mem_map.mp
      ((h.mem_iff _).mpr ⟨List.mem_map_of_mem hrecord, hspent⟩)
    -- There is one best record of an outpoint.
    have hbest' := best_eq_some_iff.mpr (h.first v hv)
    rw [hvu, hbest] at hbest'
    obtain rfl := Option.some.inj hbest'
    exact hv

lemma selects_view {l : Layers} (h : l.depth = 0) (raw : List Utxo) :
    Selects (raw ++ l.generated) l.spent (l.view raw) :=
  ⟨pairwise_view h raw, (shows_view h raw).mem_iff,
    fun u hu => best_eq_some_iff.mp ((mem_view_iff_best h raw u).mp hu).2⟩

lemma view_view {l : Layers} (h : l.depth = 0) (raw : List Utxo) :
    l.view (l.view raw) = l.view raw := by
  refine eq_of_pairwise (pairwise_view h _) (pairwise_view h _) fun u => ?_
  rw [mem_view_iff_best h, mem_view_iff_best h, and_congr_right_iff]
  intro hspent
  have hsame : best ((l.view raw ++ l.generated).filter (·.outPoint = u.outPoint)) =
      best ((raw ++ l.generated).filter (·.outPoint = u.outPoint)) := by
    rw [List.filter_append, best_append, best_filter_view h raw hspent, List.filter_append]
    exact best_append_again _ _
  rw [hsame]

/-- **What a view is**: at depth zero the one list to which the records that are reported or were
created are selected, which is its own view again; at any other depth what is reported, as it
is. -/
theorem view_exact (l : Layers) (raw : List Utxo) :
    (l.depth = 0 →
      (∀ us, l.view raw = us ↔ Selects (raw ++ l.generated) l.spent us) ∧
        l.view (l.view raw) = l.view raw) ∧
      (l.depth ≠ 0 → l.view raw = raw) := by
  refine ⟨fun h => ⟨fun us => ⟨?_, fun hus => ?_⟩, view_view h raw⟩, fun h => if_pos h⟩
  · rintro rfl
    exact selects_view h raw
  · refine eq_of_pairwise (pairwise_view h raw) hus.increasing fun u => ?_
    rw [mem_view_iff_best h, hus.mem_iff_best]

/-- An output is reported twice at one height with different values, and was created too; another
one was created and spent; two transactions of different lengths stand out of order. -/
theorem view_exact_of_ties :
    let first : Utxo := ⟨⟨[2], 1⟩, 4, 8⟩
    let second : Utxo := ⟨⟨[2], 1⟩, 5, 8⟩
    let gone : Utxo := ⟨⟨[1], 0⟩, 9, 0⟩
    let short : Utxo := ⟨⟨[1, 255], 0⟩, 7, 3⟩
    let l : Layers := { Layers.fresh 0 with
      spent := [gone.outPoint], generated := [gone, { first with height := 0 }] }
    let raw := [first, second, short]
    l.depth = 0 ∧ Selects (raw ++ l.generated) l.spent [short, first] ∧
      l.view (l.view raw) = l.view raw ∧
      { l with depth := 2 }.depth ≠ 0 ∧ { l with depth := 2 }.view raw = raw := by
  intro first second gone short l raw
  have hview : l.view raw = [short, first] := by decide +kernel
  obtain ⟨hselects, hagain⟩ := (view_exact l raw).1 rfl
  have hdeep : { l with depth := 2 }.depth ≠ 0 := by decide
  exact ⟨rfl, (hselects _).mp hview, hagain, hdeep, (view_exact _ raw).2 hdeep⟩

end Layers

end WatchWallet
