import Mathlib.Order.RelClasses
import WatchWallet.Proofs.Action
import WatchWallet.Utxo.Tracker

/-!
What the operations on tracked addresses answer and leave, and for which addresses they answer.

All but starting and ending to track change the layers of one address by a function of them, and
answer by what these are then: for the addresses that are tracked and for no other.
-/

namespace WatchWallet

open WatchWallet.Action

/-- The layers with the view of a raw report as the unseen one. -/
def Layers.reconcile (raw : List Utxo) (l : Layers) : Layers := l.install (l.view raw)

namespace Tracker

lemma layersOf_of_some {t : Tracker} {x : Address} {l : Layers} (h : t.layers[x]? = some l) :
    t.layersOf x = .ok l := by
  rw [layersOf, h]

lemma layersOf_of_none {t : Tracker} {x : Address} (h : t.layers[x]? = none) :
    t.layersOf x = .error (.notTracked x.text) := by
  rw [layersOf, h]

lemma layersOf_eq_ok_iff {t : Tracker} {x : Address} {l : Layers} :
    t.layersOf x = .ok l ↔ t.layers[x]? = some l := by
  cases h : t.layers[x]? with
  | none => simp [layersOf_of_none h]
  | some l' => simp [layersOf_of_some h]

lemma pending_of_some {t : Tracker} {x : Address} {l : Layers} (h : t.layers[x]? = some l) :
    t.pending x = .ok l.pending := by
  rw [pending, layersOf_of_some h]
  rfl

lemma pending_of_none {t : Tracker} {x : Address} (h : t.layers[x]? = none) :
    t.pending x = .error (.notTracked x.text) := by
  rw [pending, layersOf_of_none h]
  rfl

lemma run_change_of_some {t : Tracker} {x : Address} {l : Layers} (h : t.layers[x]? = some l)
    (f : Layers → Layers) : run (change x f) t = ⟨.ok (), ⟨t.layers.insert x (f l)⟩, []⟩ := by
  simp [change, run_bind, layersOf_of_some h]

lemma run_change_of_none {t : Tracker} {x : Address} (h : t.layers[x]? = none)
    (f : Layers → Layers) : run (change x f) t = ⟨.error (.notTracked x.text), t, []⟩ := by
  simp [change, run_bind, layersOf_of_none h]

/-! ### Changing the layers of one address -/

lemma ext_getElem? {t u : Tracker} (h : ∀ x : Address, t.layers[x]? = u.layers[x]?) : t = u :=
  congrArg mk (Std.ExtTreeMap.ext_getElem? h)

/-- The tracker with the layers of one address changed, if that is tracked. -/
def modify (t : Tracker) (x : Address) (f : Layers → Layers) : Tracker := ⟨t.layers.modify x f⟩

lemma getElem?_modify (t : Tracker) (x y : Address) (f : Layers → Layers) :
    (t.modify y f).layers[x]? = (t.layers[x]?).map (if y = x then f else id) := by
  simp only [modify, Std.ExtTreeMap.getElem?_modify, Std.LawfulEqOrd.compare_eq_iff_eq]
  split_ifs with h
  · rw [h]
  · rw [Option.map_id_fun, id]

lemma getElem?_modify_self {t : Tracker} {x : Address} {l : Layers} (h : t.layers[x]? = some l)
    (f : Layers → Layers) : (t.modify x f).layers[x]? = some (f l) := by
  rw [getElem?_modify, h, if_pos rfl, Option.map_some]

lemma modify_of_some {t : Tracker} {x : Address} {l : Layers} (h : t.layers[x]? = some l)
    (f : Layers → Layers) : t.modify x f = ⟨t.layers.insert x (f l)⟩ := by
  refine ext_getElem? fun y => ?_
  simp only [getElem?_modify, Std.ExtTreeMap.getElem?_insert, Std.LawfulEqOrd.compare_eq_iff_eq]
  split_ifs with hy
  · rw [← hy, h, Option.map_some]
  · rw [Option.map_id_fun, id]

lemma modify_of_none {t : Tracker} {x : Address} (h : t.layers[x]? = none)
    (f : Layers → Layers) : t.modify x f = t := by
  refine ext_getElem? fun y => ?_
  rw [getElem?_modify]
  split_ifs with hy
  · rw [← hy, h, Option.map_none]
  · rw [Option.map_id_fun, id]

@[simp] lemma modify_id (t : Tracker) (x : Address) : t.modify x id = t := by
  refine ext_getElem? fun y => ?_
  rw [getElem?_modify, ite_self, Option.map_id_fun, id]

lemma modify_modify (t : Tracker) (x : Address) (f g : Layers → Layers) :
    (t.modify x f).modify x g = t.modify x (g ∘ f) := by
  refine ext_getElem? fun y => ?_
  simp only [getElem?_modify]
  split_ifs <;> simp

lemma mem_modify {t : Tracker} {x y : Address} {f : Layers → Layers} :
    y ∈ (t.modify x f).layers ↔ y ∈ t.layers := Std.ExtTreeMap.mem_modify

/-! ### What an operation answers and leaves -/

section Spec

variable (t : Tracker) (x : Address)

lemma state_change (f : Layers → Layers) : (run (change x f) t).state = t.modify x f := by
  cases h : t.layers[x]? with
  | none => rw [run_change_of_none h, modify_of_none h]
  | some l => rw [run_change_of_some h, modify_of_some h]

lemma result_takeUpdate : (run (takeUpdate x) t).result = t.pending x := by
  cases h : t.layers[x]? with
  | none => simp [takeUpdate, run_bind, pending_of_none h]
  | some l =>
    simp [takeUpdate, run_bind, pending_of_some h, commit, run_change_of_some h, Except.map]

lemma state_takeUpdate : (run (takeUpdate x) t).state = t.modify x Layers.commit := by
  cases h : t.layers[x]? with
  | none => simp [takeUpdate, run_bind, pending_of_none h, modify_of_none h]
  | some l =>
    simp [takeUpdate, run_bind, pending_of_some h, commit, run_change_of_some h, modify_of_some h]

lemma result_install (us : List Utxo) :
    (run (install x us) t).result = (t.modify x (·.install us)).pending x := by
  cases h : t.layers[x]? with
  | none => simp [install, run_bind, run_change_of_none h, modify_of_none h, pending_of_none h]
  | some l => simp [install, run_bind, run_change_of_some h, modify_of_some h]

lemma state_install (us : List Utxo) :
    (run (install x us) t).state = t.modify x (·.install us) := by
  cases h : t.layers[x]? with
  | none => simp [install, run_bind, run_change_of_none h, modify_of_none h]
  | some l => simp [install, run_bind, run_change_of_some h, modify_of_some h]

lemma modify_install_of_some {t : Tracker} {x : Address} {l : Layers} (h : t.layers[x]? = some l)
    (raw : List Utxo) : t.modify x (·.install (l.view raw)) = t.modify x (Layers.reconcile raw) := by
  rw [modify_of_some h, modify_of_some h, Layers.reconcile]

lemma result_reconcile (raw : Snapshot) :
    (run (reconcile x raw) t).result = (t.modify x (Layers.reconcile raw.utxos)).pending x := by
  cases h : t.layers[x]? with
  | none => simp [reconcile, run_bind, layersOf_of_none h, modify_of_none h, pending_of_none h]
  | some l =>
    rw [← modify_install_of_some h, ← result_install]
    simp [reconcile, run_bind, layersOf_of_some h]

lemma state_reconcile (raw : Snapshot) :
    (run (reconcile x raw) t).state = t.modify x (Layers.reconcile raw.utxos) := by
  cases h : t.layers[x]? with
  | none => simp [reconcile, run_bind, layersOf_of_none h, modify_of_none h]
  | some l =>
    rw [← modify_install_of_some h, ← state_install]
    simp [reconcile, run_bind, layersOf_of_some h]

end Spec

/-! ### Depths -/

/-- The same addresses are tracked, each to the same depth. -/
def SameDepths (t u : Tracker) : Prop :=
  ∀ x : Address, (u.layers[x]?).map Layers.depth = (t.layers[x]?).map Layers.depth

instance : IsPreorder Tracker SameDepths where
  refl _ _ := rfl
  trans _ _ _ h h' x := (h' x).trans (h x)

lemma SameDepths.mem_iff {t u : Tracker} (h : SameDepths t u) (x : Address) :
    x ∈ u.layers ↔ x ∈ t.layers := by
  have hx := congrArg Option.isSome (h x)
  rw [Option.isSome_map, Option.isSome_map] at hx
  rw [← Std.ExtTreeMap.isSome_getElem?_iff_mem, ← Std.ExtTreeMap.isSome_getElem?_iff_mem, hx]

lemma SameDepths.exists_depth {t u : Tracker} (h : SameDepths t u) {x : Address} {l : Layers}
    (hl : u.layers[x]? = some l) : ∃ l', t.layers[x]? = some l' ∧ l'.depth = l.depth := by
  have hx := h x
  rw [hl] at hx
  exact Option.map_eq_some_iff.mp hx.symm

lemma sameDepths_modify (t : Tracker) (x : Address) {f : Layers → Layers}
    (hf : ∀ l, (f l).depth = l.depth) : SameDepths t (t.modify x f) := by
  intro y
  rw [getElem?_modify, Option.map_map]
  congr 1
  split_ifs
  · exact funext hf
  · rfl

end Tracker

/-! ### For whom they answer -/

/-- An answer for a tracked address, and a refusal that names the address for any other. -/
structure Guarded (tracked : Prop) (x : Address) {α : Type} (r : Except Error α) : Prop where
  answers : tracked → ∃ v, r = .ok v
  refuses : ¬tracked → r = .error (.notTracked x.text)

lemma Guarded.congr {p q : Prop} {x : Address} {α : Type} {r : Except Error α}
    (h : Guarded p x r) (hpq : p ↔ q) : Guarded q x r :=
  ⟨fun hq => h.answers (hpq.mpr hq), fun hq => h.refuses fun hp => hq (hpq.mp hp)⟩

lemma Guarded.map {p : Prop} {x : Address} {α β : Type} {r : Except Error α}
    (h : Guarded p x r) (f : α → β) : Guarded p x (r.map f) := by
  refine ⟨fun hp => ?_, fun hp => ?_⟩
  · obtain ⟨v, hv⟩ := h.answers hp
    exact ⟨f v, by rw [hv]; rfl⟩
  · rw [h.refuses hp]
    rfl

namespace Tracker

variable {t : Tracker} {x : Address}

lemma guarded_of {α : Type} {r : Except Error α}
    (hsome : ∀ l, t.layers[x]? = some l → ∃ v, r = .ok v)
    (hnone : t.layers[x]? = none → r = .error (.notTracked x.text)) :
    Guarded (x ∈ t.layers) x r := by
  refine ⟨fun hx => ?_, fun hx => hnone (Std.ExtTreeMap.getElem?_eq_none hx)⟩
  obtain ⟨l, hl⟩ := Option.isSome_iff_exists.mp (Std.ExtTreeMap.isSome_getElem?_iff_mem.mpr hx)
  exact hsome l hl

lemma guarded_layersOf : Guarded (x ∈ t.layers) x (t.layersOf x) :=
  guarded_of (fun l hl => ⟨l, layersOf_of_some hl⟩) layersOf_of_none

lemma guarded_pending : Guarded (x ∈ t.layers) x (t.pending x) :=
  guarded_layersOf.map Layers.pending

lemma guarded_change (f : Layers → Layers) :
    Guarded (x ∈ t.layers) x (run (change x f) t).result :=
  guarded_of (fun l hl => ⟨(), by rw [run_change_of_some hl]⟩)
    (fun hl => by rw [run_change_of_none hl])

lemma guarded_takeUpdate : Guarded (x ∈ t.layers) x (run (takeUpdate x) t).result := by
  rw [result_takeUpdate]
  exact guarded_pending

/-- What answers by the pending update after a change of the layers. -/
lemma guarded_pending_modify (f : Layers → Layers) :
    Guarded (x ∈ t.layers) x ((t.modify x f).pending x) :=
  guarded_pending.congr mem_modify

lemma guarded_install (us : List Utxo) :
    Guarded (x ∈ t.layers) x (run (install x us) t).result := by
  rw [result_install]
  exact guarded_pending_modify _

lemma guarded_reconcile (raw : Snapshot) :
    Guarded (x ∈ t.layers) x (run (reconcile x raw) t).result := by
  rw [result_reconcile]
  exact guarded_pending_modify _

end Tracker

end WatchWallet
