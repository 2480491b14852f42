import Mathlib.Data.List.Induction
import Mathlib.Tactic.Common
import WatchWallet.Proofs.Entries
import WatchWallet.Utxo.Layers

/-!
The view that a raw report gives at depth zero.

Of the records of one outpoint the first of the greatest height is kept. The view has these
records in the order of their outpoints, for every outpoint that is reported or was generated and
was not spent.
-/

namespace WatchWallet.Layers

/-- The record that is kept of several: the first of the greatest height. -/
def best (us : List Utxo) : Option Utxo := us.foldl (fun kept u => some (higher u kept)) none

@[simp] lemma best_nil : best [] = none := rfl

lemma best_append_singleton (us : List Utxo) (u : Utxo) :
    best (us ++ [u]) = some (higher u (best us)) := by
  rw [best, List.foldl_append, List.foldl_cons, List.foldl_nil, best]

lemma best_eq_none_iff {us : List Utxo} : best us = none ↔ us = [] := by
  induction us using List.reverseRecOn with
  | nil => simp
  | append_singleton us u _ => simp [best_append_singleton]

/-- Greater than all before it, and not less than any after it. -/
def FirstHighest (us : List Utxo) (u : Utxo) : Prop :=
  ∃ before since, us = before ++ u :: since ∧ (∀ v ∈ before, v.height < u.height) ∧
    ∀ v ∈ since, v.height ≤ u.height

lemma FirstHighest.mem {us : List Utxo} {u : Utxo} (h : FirstHighest us u) : u ∈ us := by
  obtain ⟨before, since, rfl, -, -⟩ := h
  simp

lemma FirstHighest.height_le {us : List Utxo} {u v : Utxo} (h : FirstHighest us u)
    (hv : v ∈ us) : v.height ≤ u.height := by
  obtain ⟨before, since, rfl, hbefore, hsince⟩ := h
  rcases List.mem_append.mp hv with hv | hv
  · exact UInt32.le_of_lt (hbefore v hv)
  · rcases List.mem_cons.mp hv with rfl | hv
    · exact UInt32.le_refl _
    · exact hsince v hv

theorem firstHighest_of_best {us : List Utxo} {u : Utxo} (h : best us = some u) :
    FirstHighest us u := by
  induction us using List.reverseRecOn generalizing u with
  | nil => cases h
  | append_singleton us w ih =>
    rw [best_append_singleton] at h
    cases hbest : best us with
    | none =>
      obtain rfl := best_eq_none_iff.mp hbest
      obtain rfl : w = u := Option.some.inj h
      exact ⟨[], [], rfl, by simp, by simp⟩
    | some v =>
      have hv := ih hbest
      rw [hbest, higher] at h
      split_ifs at h with hlt
      · obtain rfl : w = u := Option.some.inj h
        exact ⟨us, [], rfl, fun x hx => UInt32.lt_of_le_of_lt (hv.height_le hx) hlt, by simp⟩
      · obtain rfl : v = u := Option.some.inj h
        obtain ⟨before, since, rfl, hbefore, hsince⟩ := hv
        refine ⟨before, since ++ [w], by simp, hbefore, ?_⟩
        intro x hx
        rcases List.mem_append.mp hx with hx | hx
        · exact hsince x hx
        · obtain rfl := List.mem_singleton.mp hx
          exact UInt32.not_lt.mp hlt

/-! ### One record for each outpoint -/

lemma getElem?_foldl_record (us : List Utxo) (o : OutPoint) :
    (us.foldl record (∅ : Records))[o]? = best (us.filter (·.outPoint = o)) := by
  induction us using List.reverseRecOn with
  | nil => simp
  | append_singleton us u ih =>
    rw [List.foldl_append, List.foldl_cons, List.foldl_nil, List.filter_append, record,
      Std.ExtTreeMap.getElem?_alter]
    by_cases hu : u.outPoint = o
    · subst hu
      simp [ih, best_append_singleton]
    · simp [hu, ih]

lemma outPoint_of_getElem? {us : List Utxo} {o : OutPoint} {u : Utxo}
    (h : (us.foldl record (∅ : Records))[o]? = some u) : u.outPoint = o := by
  rw [getElem?_foldl_record] at h
  simpa using (List.mem_filter.mp (firstHighest_of_best h).mem).2

lemma mem_foldl_record_iff {us : List Utxo} {o : OutPoint} :
    o ∈ us.foldl record (∅ : Records) ↔ o ∈ us.map Utxo.outPoint := by
  rw [← Std.ExtTreeMap.isSome_getElem?_iff_mem, getElem?_foldl_record, Option.isSome_iff_ne_none,
    Ne, best_eq_none_iff, List.filter_eq_nil_iff]
  simp

/-- Each record stands under its outpoint. -/
lemma map_outPoint_distinct (us : List Utxo) :
    (distinct us).map Utxo.outPoint = (us.foldl record (∅ : Records)).keys := by
  rw [distinct, List.map_map, ← Std.ExtTreeMap.map_fst_toList_eq_keys]
  refine List.map_congr_left fun e he => ?_
  exact outPoint_of_getElem? (Std.ExtTreeMap.mem_toList_iff_getElem?_eq_some.mp he)

theorem pairwise_distinct (us : List Utxo) :
    ((distinct us).map Utxo.outPoint).Pairwise fun o o' => compare o o' = .lt := by
  rw [map_outPoint_distinct]
  exact Std.ExtTreeMap.ordered_keys

theorem mem_map_outPoint_distinct {us : List Utxo} {o : OutPoint} :
    o ∈ (distinct us).map Utxo.outPoint ↔ o ∈ us.map Utxo.outPoint := by
  rw [map_outPoint_distinct, Std.ExtTreeMap.mem_keys, mem_foldl_record_iff]

theorem best_of_mem_distinct {us : List Utxo} {u : Utxo} (h : u ∈ distinct us) :
    best (us.filter (·.outPoint = u.outPoint)) = some u := by
  obtain ⟨⟨o, u⟩, he, rfl⟩ := List.mem_map.mp h
  have hget := Std.ExtTreeMap.mem_toList_iff_getElem?_eq_some.mp he
  obtain rfl := outPoint_of_getElem? hget
  rwa [getElem?_foldl_record] at hget

/-! ### The view at depth zero -/

/-- What a view of the outputs should be, where the wallet's own ones are spent or not: every
outpoint once, if there is a record of it and it was not spent, with the highest record. -/
structure Shows (records : List Utxo) (spent : List OutPoint) (us : List Utxo) : Prop where
  nodup : (us.map Utxo.outPoint).Nodup
  mem_iff : ∀ o, o ∈ us.map Utxo.outPoint ↔ o ∈ records.map Utxo.outPoint ∧ o ∉ spent
  highest : ∀ u ∈ us, u ∈ records ∧
    ∀ v ∈ records, v.outPoint = u.outPoint → v.height ≤ u.height

lemma mem_map_outPoint_filter {us : List Utxo} {spent : List OutPoint} {o : OutPoint} :
    o ∈ (us.filter (·.outPoint ∉ spent)).map Utxo.outPoint ↔
      o ∈ us.map Utxo.outPoint ∧ o ∉ spent := by
  simp only [List.mem_map, List.mem_filter, decide_eq_true_eq]
  constructor
  · rintro ⟨u, ⟨hu, hspent⟩, rfl⟩
    exact ⟨⟨u, hu, rfl⟩, hspent⟩
  · rintro ⟨⟨u, hu, rfl⟩, hspent⟩
    exact ⟨u, ⟨hu, hspent⟩, rfl⟩

theorem shows_view {l : Layers} (h : l.depth = 0) (raw : List Utxo) :
    Shows (raw ++ l.generated) l.spent (l.view raw) := by
  rw [view, if_neg (by simp [h])]
  set kept := (raw ++ l.generated).filter (·.outPoint ∉ l.spent) with hkept
  refine ⟨?_, fun o => ?_, fun u hu => ?_⟩
  · exact (pairwise_distinct kept).imp fun hlt => Entries.ne_of_compare_eq_lt hlt
  · rw [mem_map_outPoint_distinct, hkept, mem_map_outPoint_filter]
  · have hbest := firstHighest_of_best (best_of_mem_distinct hu)
    obtain ⟨hmem, -⟩ := List.mem_filter.mp hbest.mem
    obtain ⟨hrecord, hspent⟩ := List.mem_filter.mp hmem
    refine ⟨hrecord, fun v hv hvu => hbest.height_le (List.mem_filter.mpr ⟨?_, by simpa using hvu⟩)⟩
    -- A record of the same outpoint is not left out either.
    refine List.mem_filter.mpr ⟨hv, ?_⟩
    rw [hvu]
    exact hspent

end WatchWallet.Layers
