import Mathlib.Data.List.Pairwise
import Mathlib.Tactic.SplitIfs
import Std.Data.ExtTreeMap

/-!
A map is the list of its entries: filled with sorted entries it lists these again, and filled
with its own entries it is itself. It does not matter for this whether an entry for a key that
is there already would be kept or replaced.
-/

namespace WatchWallet.Entries

variable {κ α : Type} [Ord κ] [Std.TransOrd κ]

/-- In strictly increasing order of the keys. -/
def Sorted (l : List (κ × α)) : Prop := l.Pairwise fun e f => compare e.1 f.1 = .lt

lemma sorted_toList (m : Std.ExtTreeMap κ α) : Sorted m.toList :=
  Std.ExtTreeMap.ordered_keys_toList

lemma ne_of_compare_eq_lt {k k' : κ} (h : compare k k' = .lt) : k ≠ k' := by
  rintro rfl
  rw [Std.ReflOrd.compare_self] at h
  cases h

lemma not_compare_eq_lt {k k' : κ} (h : compare k k' = .lt) : compare k' k ≠ .lt := by
  intro h'
  rw [Std.OrientedOrd.eq_swap, h'] at h
  cases h

lemma Sorted.nodup {l : List (κ × α)} (h : Sorted l) : l.Nodup :=
  h.imp fun hlt he => ne_of_compare_eq_lt hlt (congrArg Prod.fst he)

lemma Sorted.eq_of_perm {l l' : List (κ × α)} (h : Sorted l) (h' : Sorted l') (hp : l.Perm l') :
    l = l' :=
  List.Perm.eq_of_pairwise (fun _ _ _ _ hlt hgt => absurd hgt (not_compare_eq_lt hlt)) h h' hp

/-- An operation that puts a value under a key that has none. -/
def Adds (op : Std.ExtTreeMap κ α → κ → α → Std.ExtTreeMap κ α) : Prop :=
  ∀ m k v, k ∉ m → op m k v = m.insert k v

lemma adds_insert : Adds fun (m : Std.ExtTreeMap κ α) k v => m.insert k v :=
  fun _ _ _ _ => rfl

section Fill

variable [Std.LawfulEqOrd κ] {op : Std.ExtTreeMap κ α → κ → α → Std.ExtTreeMap κ α}

lemma adds_insertIfNew : Adds fun (m : Std.ExtTreeMap κ α) k v => m.insertIfNew k v := by
  intro m k v hk
  refine Std.ExtTreeMap.ext_getElem? fun k' => ?_
  simp only [Std.ExtTreeMap.getElem?_insertIfNew, Std.ExtTreeMap.getElem?_insert]
  by_cases h : k = k'
  · simp [← h, hk]
  · simp [h]

lemma getElem?_foldl (hop : Adds op) {l : List (κ × α)} (hl : l.Pairwise fun e f => e.1 ≠ f.1)
    {m : Std.ExtTreeMap κ α} (hm : ∀ e ∈ l, e.1 ∉ m) (k : κ) (v : α) :
    (l.foldl (fun m e => op m e.1 e.2) m)[k]? = some v ↔ m[k]? = some v ∨ (k, v) ∈ l := by
  induction l generalizing m with
  | nil => simp
  | cons e l ih =>
    obtain ⟨hhead, hl⟩ := List.pairwise_cons.mp hl
    have hnew : e.1 ∉ m := hm e (by simp)
    have hm' : ∀ f ∈ l, f.1 ∉ op m e.1 e.2 := by
      intro f hf
      have hfm : f.1 ∉ m := hm f (by simp [hf])
      simp [hop m e.1 e.2 hnew, Std.ExtTreeMap.mem_insert, hhead f hf, hfm]
    rw [List.foldl_cons, ih hl hm', hop m e.1 e.2 hnew, Std.ExtTreeMap.getElem?_insert]
    by_cases hk : e.1 = k
    · have hnone : m[k]? = none := by rw [← hk]; exact Std.ExtTreeMap.getElem?_eq_none hnew
      have hnot : (k, v) ∉ l := fun hv => hhead _ hv hk
      simp [hk, hnone, hnot, Prod.ext_iff, eq_comm]
    · have hne : (k, v) ≠ e := fun h => hk (by rw [← h])
      simp [hk, hne]

/-- Filled with sorted entries, an empty map lists them. -/
theorem toList_foldl (hop : Adds op) {l : List (κ × α)} (hl : Sorted l) :
    (l.foldl (fun m e => op m e.1 e.2) ∅).toList = l := by
  have hdistinct : l.Pairwise fun e f => e.1 ≠ f.1 := hl.imp fun hlt => ne_of_compare_eq_lt hlt
  refine (sorted_toList _).eq_of_perm hl ?_
  rw [List.perm_ext_iff_of_nodup (sorted_toList _).nodup hl.nodup]
  rintro ⟨k, v⟩
  rw [Std.ExtTreeMap.mem_toList_iff_getElem?_eq_some, getElem?_foldl hop hdistinct (by simp)]
  simp

/-- Filled with the entries of a map, an empty map becomes that map. -/
theorem foldl_toList (hop : Adds op) (m : Std.ExtTreeMap κ α) :
    m.toList.foldl (fun m e => op m e.1 e.2) ∅ = m :=
  Std.ExtTreeMap.toList_inj.mp (toList_foldl hop (sorted_toList m))

end Fill

/-! ### Filled with any entries -/

section Lookup

variable [Std.LawfulEqOrd κ] [DecidableEq κ]

/-- Of several entries for a key the first counts, if they do not replace one another. -/
lemma getElem?_foldl_insertIfNew (l : List (κ × α)) (m : Std.ExtTreeMap κ α) (k : κ) :
    (l.foldl (fun m e => m.insertIfNew e.1 e.2) m)[k]? = (m[k]?).or (l.lookup k) := by
  induction l generalizing m with
  | nil => simp
  | cons e l ih =>
    rw [List.foldl_cons, ih, Std.ExtTreeMap.getElem?_insertIfNew, List.lookup_cons]
    by_cases hk : k = e.1
    · subst hk
      by_cases hm : e.1 ∈ m <;> simp [hm]
    · have hbeq : (k == e.1) = false := beq_false_of_ne hk
      simp [hbeq, Ne.symm hk]

/-- Of several entries for a key the last counts, if they replace one another. -/
lemma getElem?_foldl_insert (l : List (κ × α)) (m : Std.ExtTreeMap κ α) (k : κ) :
    (l.foldl (fun m e => m.insert e.1 e.2) m)[k]? = (l.reverse.lookup k).or m[k]? := by
  induction l generalizing m with
  | nil => simp
  | cons e l ih =>
    rw [List.foldl_cons, ih, Std.ExtTreeMap.getElem?_insert, List.reverse_cons,
      List.lookup_append, Option.or_assoc, List.lookup_cons]
    by_cases hk : k = e.1
    · simp [hk]
    · have hbeq : (k == e.1) = false := beq_false_of_ne hk
      simp [hbeq, Ne.symm hk]

end Lookup

section Keys

variable [Std.LawfulEqOrd κ] {P : κ → Prop} {m m' : Std.ExtTreeMap κ α} {k : κ}

/-- What holds of the keys of a map and of one more holds of any map that has no others. -/
lemma forall_mem_of_mem (hm : ∀ k ∈ m, P k) (hk : P k)
    (h : ∀ k' ∈ m', compare k k' = .eq ∨ k' ∈ m) : ∀ k' ∈ m', P k' := by
  intro k' hk'
  rcases h k' hk' with heq | hmem
  · rwa [← Std.LawfulEqOrd.compare_eq_iff_eq.mp heq]
  · exact hm k' hmem

lemma forall_mem_insert (hm : ∀ k ∈ m, P k) (hk : P k) (v : α) : ∀ k' ∈ m.insert k v, P k' :=
  forall_mem_of_mem hm hk fun _ => Std.ExtTreeMap.mem_insert.mp

lemma forall_mem_insertIfNew (hm : ∀ k ∈ m, P k) (hk : P k) (v : α) :
    ∀ k' ∈ m.insertIfNew k v, P k' :=
  forall_mem_of_mem hm hk fun _ => Std.ExtTreeMap.mem_insertIfNew.mp

end Keys

lemma insertIfNew_of_mem [Std.LawfulEqOrd κ] {m : Std.ExtTreeMap κ α} {k : κ} (h : k ∈ m)
    (v : α) : m.insertIfNew k v = m := by
  refine Std.ExtTreeMap.ext_getElem? fun k' => ?_
  rw [Std.ExtTreeMap.getElem?_insertIfNew, if_neg fun hk => hk.2 h]

lemma erase_of_not_mem [Std.LawfulEqOrd κ] {m : Std.ExtTreeMap κ α} {k : κ} (h : k ∉ m) :
    m.erase k = m := by
  refine Std.ExtTreeMap.ext_getElem? fun k' => ?_
  rw [Std.ExtTreeMap.getElem?_erase]
  split_ifs with hk
  · rw [← Std.LawfulEqOrd.compare_eq_iff_eq.mp hk, Std.ExtTreeMap.getElem?_eq_none h]
  · rfl

/-- Maps of the same keys list them alike. -/
lemma keys_eq_keys [Std.LawfulEqOrd κ] {β : Type} {m : Std.ExtTreeMap κ α}
    {m' : Std.ExtTreeMap κ β} (h : ∀ k, k ∈ m ↔ k ∈ m') : m.keys = m'.keys := by
  have hp : m.keys.Perm m'.keys := by
    rw [List.perm_ext_iff_of_nodup m.nodup_keys m'.nodup_keys]
    intro k
    rw [Std.ExtTreeMap.mem_keys, Std.ExtTreeMap.mem_keys, h k]
  exact List.Perm.eq_of_pairwise (fun _ _ _ _ hlt hgt => absurd hgt (not_compare_eq_lt hlt))
    m.ordered_keys m'.ordered_keys hp

end WatchWallet.Entries
