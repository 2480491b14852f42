import Mathlib.Data.Set.BooleanAlgebra
import Mathlib.Order.CompletePartialOrder
import WatchWallet.Proofs.Agent.Failure

/-!
What an agent holds, address by address.

Beside what it holds for addresses an agent has a setting: network, main script type, root and
depth. For an address it holds a cell: the key that it is managed with and the layers that it is
tracked with. An operation is local to some addresses if its answer, and what it does to the cells
of these, follow from the setting and from these cells, and if it changes nothing else. Operations
that are local to disjoint sets of addresses can be taken in either order.
-/

namespace WatchWallet.Agent

open WatchWallet.Action

structure Setting where
  network : Network
  mainType : ScriptType
  root : Option Root
  depth : UInt32

/-- What is held for an address; nothing, if it is neither managed nor tracked. -/
structure Cell where
  key : Option ExtendedKey
  layers : Option Layers

/-- The cell with its layers changed, if there are any. -/
def Cell.modify (f : Layers → Layers) (s : Cell) : Cell := { s with layers := s.layers.map f }

lemma Cell.modify_id : Cell.modify id = id := by
  funext s
  rw [Cell.modify, Option.map_id_fun, id, id]

/-- The cell with a key and fresh layers, where there were none. -/
def Cell.start (k : ExtendedKey) (depth : UInt32) (s : Cell) : Cell :=
  ⟨s.key.or (some k), s.layers.or (some (.fresh depth))⟩

def setting (a : Agent) : Setting :=
  ⟨a.network, a.registry.mainType, a.registry.root, a.depth⟩

def cell (a : Agent) (x : Address) : Cell := ⟨a.registry.keys[x]?, a.tracker.layers[x]?⟩

/-- Nothing is held but the setting and the cells. -/
lemma ext_cell {a b : Agent} (hsetting : b.setting = a.setting)
    (hcell : ∀ x, b.cell x = a.cell x) : b = a := by
  obtain ⟨⟨n, t, root, keys⟩, ⟨layers⟩, depth⟩ := a
  obtain ⟨⟨n', t', root', keys'⟩, ⟨layers'⟩, depth'⟩ := b
  obtain ⟨rfl, rfl, rfl, rfl⟩ := Setting.mk.inj hsetting
  obtain rfl : keys' = keys :=
    Std.ExtTreeMap.ext_getElem? fun x => (Cell.mk.inj (hcell x)).1
  obtain rfl : layers' = layers :=
    Std.ExtTreeMap.ext_getElem? fun x => (Cell.mk.inj (hcell x)).2
  rfl

/-! ### Changes of cells -/

/-- A change of cells, of each by itself, that leaves the setting. -/
structure Alters (F : Address → Cell → Cell) (a b : Agent) : Prop where
  setting_eq : b.setting = a.setting
  cell_eq : ∀ x, b.cell x = F x (a.cell x)

/-- A change of the cell of one address. -/
def only (x : Address) (f : Cell → Cell) : Address → Cell → Cell :=
  fun y => if y = x then f else id

lemma only_of_ne {x y : Address} (h : y ≠ x) (f : Cell → Cell) : only x f y = id := if_neg h

lemma alters_refl (a : Agent) : Alters (fun _ => id) a a := ⟨rfl, fun _ => rfl⟩

lemma alters_modify (a : Agent) (x : Address) (f : Layers → Layers) :
    Alters (only x (Cell.modify f)) a (a.modify x f) := by
  refine ⟨rfl, fun y => ?_⟩
  simp only [cell, modify, Tracker.getElem?_modify, only, eq_comm (a := y)]
  split_ifs
  · rfl
  · rw [Option.map_id_fun, id, id]

lemma alters_managing (a : Agent) (x : Address) (k : ExtendedKey) (depth : UInt32) :
    Alters (only x (Cell.start k depth)) a (a.managing x k depth) := by
  refine ⟨rfl, fun y => ?_⟩
  simp only [cell, managing, only, Std.ExtTreeMap.getElem?_insertIfNew,
    Std.LawfulEqOrd.compare_eq_iff_eq]
  by_cases h : y = x
  · subst h
    simp only [Cell.start, true_and, if_true, Cell.mk.injEq]
    refine ⟨?_, ?_⟩
    · split_ifs with hk
      · rw [Option.or_of_isSome (Std.ExtTreeMap.isSome_getElem?_iff_mem.mpr hk)]
      · rw [Std.ExtTreeMap.getElem?_eq_none hk, Option.none_or]
    · split_ifs with hl
      · rw [Option.or_of_isSome (Std.ExtTreeMap.isSome_getElem?_iff_mem.mpr hl)]
      · rw [Std.ExtTreeMap.getElem?_eq_none hl, Option.none_or]
  · simp [h, Ne.symm h]

lemma alters_dropping (a : Agent) (x : Address) :
    Alters (only x fun _ => ⟨none, none⟩) a (a.dropping x) := by
  refine ⟨rfl, fun y => ?_⟩
  simp only [cell, dropping, only, Std.ExtTreeMap.getElem?_erase,
    Std.LawfulEqOrd.compare_eq_iff_eq, eq_comm (a := y)]
  split_ifs <;> rfl

lemma alters_recording (a : Agent) (spent generated : List (Address × List Utxo)) :
    Alters (fun x => Cell.modify
      (Layers.generate (outputsAt x generated) ∘ Layers.spend (outputsAt x spent)))
      a (a.recording spent generated) := by
  have h : (a.recording spent generated).registry = a.registry ∧
      (a.recording spent generated).depth = a.depth :=
    ⟨(refreshes_recording a spent generated).registry_eq,
      (refreshes_recording a spent generated).depth_eq⟩
  refine ⟨by simp only [setting, network, h], fun x => ?_⟩
  rw [cell, getElem?_recording, h.1]
  rfl

/-! ### Local operations -/

/-- The same setting, and the same cells for some addresses. -/
structure AgreesOn (N : Set Address) (a b : Agent) : Prop where
  setting_eq : b.setting = a.setting
  cell_eq : ∀ x ∈ N, b.cell x = a.cell x

section AgreesOn

variable {N : Set Address} {a b : Agent} (h : AgreesOn N a b)
include h

lemma AgreesOn.network_eq : b.network = a.network := congrArg Setting.network h.setting_eq

lemma AgreesOn.mainType_eq : b.registry.mainType = a.registry.mainType :=
  congrArg Setting.mainType h.setting_eq

lemma AgreesOn.root_eq : b.registry.root = a.registry.root := congrArg Setting.root h.setting_eq

lemma AgreesOn.depth_eq : b.depth = a.depth := congrArg Setting.depth h.setting_eq

lemma AgreesOn.key_eq {x : Address} (hx : x ∈ N) : b.registry.keys[x]? = a.registry.keys[x]? :=
  congrArg Cell.key (h.cell_eq x hx)

lemma AgreesOn.layers_eq {x : Address} (hx : x ∈ N) :
    b.tracker.layers[x]? = a.tracker.layers[x]? :=
  congrArg Cell.layers (h.cell_eq x hx)

lemma AgreesOn.mem_keys_iff {x : Address} (hx : x ∈ N) :
    x ∈ b.registry.keys ↔ x ∈ a.registry.keys := by
  rw [← Std.ExtTreeMap.isSome_getElem?_iff_mem, ← Std.ExtTreeMap.isSome_getElem?_iff_mem,
    h.key_eq hx]

end AgreesOn

/-- Of any agent that agrees on the addresses, the operation makes the same answer and the same
change of cells, and the cells of other addresses stay. -/
def Local {α : Type} (N : Set Address) (f : Agent → Outcome Agent α) (a : Agent) : Prop :=
  ∃ (r : Except Error α) (F : Address → Cell → Cell), (∀ x ∉ N, F x = id) ∧
    ∀ b, AgreesOn N a b → (f b).result = r ∧ Alters F b (f b).state

section Local

variable {α β : Type} {N M : Set Address} {a : Agent}

lemma Local.setting_eq {f : Agent → Outcome Agent α} (h : Local N f a) :
    (f a).state.setting = a.setting := by
  obtain ⟨r, F, -, hf⟩ := h
  exact (hf a ⟨rfl, fun _ _ => rfl⟩).2.setting_eq

/-- **Frame**: the cell of an address that the operation is not local to stays. -/
theorem Local.cell_eq {f : Agent → Outcome Agent α} (h : Local N f a) {x : Address} (hx : x ∉ N) :
    (f a).state.cell x = a.cell x := by
  obtain ⟨r, F, hF, hf⟩ := h
  rw [(hf a ⟨rfl, fun _ _ => rfl⟩).2.cell_eq x, hF x hx, id]

lemma Local.agreesOn {f : Agent → Outcome Agent α} (h : Local N f a) (hNM : Disjoint N M) :
    AgreesOn M a (f a).state :=
  ⟨h.setting_eq, fun _ hx => h.cell_eq (Set.disjoint_right.mp hNM hx)⟩

/-- **Either order**: operations that are local to disjoint sets of addresses answer and leave the
same whichever is taken first. -/
theorem Local.commutes {f : Agent → Outcome Agent α} {g : Agent → Outcome Agent β}
    (hf : Local N f a) (hg : Local M g a) (hNM : Disjoint N M) :
    (g (f a).state).result = (g a).result ∧ (f (g a).state).result = (f a).result ∧
      (g (f a).state).state = (f (g a).state).state := by
  have hfirst := hf.agreesOn hNM
  have hsecond := hg.agreesOn hNM.symm
  obtain ⟨r, F, hF, hf⟩ := hf
  obtain ⟨s, G, hG, hg⟩ := hg
  have hself : ∀ K : Set Address, AgreesOn K a a := fun K => ⟨rfl, fun _ _ => rfl⟩
  obtain ⟨hrf, hsf⟩ := hf a (hself N)
  obtain ⟨hrg, hsg⟩ := hg a (hself M)
  obtain ⟨hrfg, hsfg⟩ := hf _ hsecond
  obtain ⟨hrgf, hsgf⟩ := hg _ hfirst
  refine ⟨hrgf.trans hrg.symm, hrfg.trans hrf.symm, ext_cell ?_ fun x => ?_⟩
  · rw [hsgf.setting_eq, hsf.setting_eq, hsfg.setting_eq, hsg.setting_eq]
  · rw [hsgf.cell_eq, hsf.cell_eq, hsfg.cell_eq, hsg.cell_eq]
    -- One of the two leaves the cell.
    by_cases hx : x ∈ N
    · rw [hG x (Set.disjoint_left.mp hNM hx), id, id]
    · rw [hF x hx, id, id]

lemma Local.congr {f g : Agent → Outcome Agent α} (h : Local N f a)
    (hg : ∀ b, AgreesOn N a b → (g b).result = (f b).result ∧ (g b).state = (f b).state) :
    Local N g a := by
  obtain ⟨r, F, hF, hf⟩ := h
  refine ⟨r, F, hF, fun b hb => ?_⟩
  obtain ⟨hresult, hstate⟩ := hg b hb
  rw [hresult, hstate]
  exact hf b hb

/-- An operation that leaves every agent that agrees as it was. -/
lemma local_of_unchanged {f : Agent → Outcome Agent α} (r : Except Error α)
    (h : ∀ b, AgreesOn N a b → (f b).result = r ∧ (f b).state = b) : Local N f a := by
  refine ⟨r, fun _ => id, fun _ _ => rfl, fun b hb => ?_⟩
  obtain ⟨hresult, hstate⟩ := h b hb
  rw [hresult, hstate]
  exact ⟨rfl, alters_refl b⟩

lemma local_of_alters {x : Address} {f : Agent → Outcome Agent α} (r : Except Error α)
    (g : Cell → Cell) (hx : x ∈ N)
    (h : ∀ b, AgreesOn N a b → (f b).result = r ∧ Alters (only x g) b (f b).state) :
    Local N f a :=
  ⟨r, only x g, fun y hy => only_of_ne (by rintro rfl; exact hy hx) g, h⟩

/-- An operation that changes the layers of one address, and answers by what these were. -/
lemma local_of_modify {x : Address} {f : Agent → Outcome Agent α} {g : Layers → Layers}
    (hresult : ∀ b, b.tracker.layers[x]? = a.tracker.layers[x]? → (f b).result = (f a).result)
    (hstate : ∀ b, (f b).state = b.modify x g) : Local {x} f a := by
  refine local_of_alters (f a).result (Cell.modify g) rfl fun b hb => ⟨?_, ?_⟩
  · exact hresult b (hb.layers_eq rfl)
  · rw [hstate]
    exact alters_modify b x g

end Local

end WatchWallet.Agent
