import Mathlib.Logic.Function.Basic
import Mathlib.Tactic.Common
import WatchWallet.Crypto.Standard
import WatchWallet.Lock

/-!
Guards exclude each other.

The guards that are alive are kept under the names of their holders. An address is locked exactly
as long as some guard owns it, and never by two. So a new guard owns its address if no other does,
and one that owns nothing changes nothing when it is dropped.
-/

namespace WatchWallet

namespace LockSet

variable {l : LockSet} {x y : Address}

@[simp] lemma isLocked_empty (x : Address) : empty.isLocked x = false := by
  simp [isLocked, empty]

@[simp] lemma address_guard : (l.guard x).1.address = x := rfl

@[simp] lemma owns_guard : (l.guard x).1.owns = !l.isLocked x := rfl

lemma isLocked_guard : (l.guard x).2.isLocked y = true ↔ x = y ∨ l.isLocked y = true := by
  simp [guard, acquire, isLocked]

lemma isLocked_drop {g : Guard} :
    (l.drop g).isLocked y = true ↔ l.isLocked y = true ∧ ¬(g.owns = true ∧ g.address = y) := by
  unfold drop
  split_ifs with howns
  · simp [release, isLocked, howns, and_comm]
  · simp [howns]

/-! ### Guards that are alive -/

open Function (update)

variable {ι : Type} {guards : ι → Option Guard}

/-- The guard of a holder, if it has one, owns the address. -/
def Owns (guards : ι → Option Guard) (i : ι) (x : Address) : Prop :=
  ∃ g, guards i = some g ∧ g.owns = true ∧ g.address = x

/-- An address is locked exactly if some guard owns it, and no two guards own it. -/
structure Exclusive (l : LockSet) (guards : ι → Option Guard) : Prop where
  locked_iff : ∀ x, l.isLocked x = true ↔ ∃ i, Owns guards i x
  unique : ∀ x i j, Owns guards i x → Owns guards j x → i = j

lemma exclusive_empty : Exclusive .empty fun _ : ι => none :=
  ⟨by simp [Owns], by simp [Owns]⟩

variable [DecidableEq ι] {i : ι}

lemma owns_update_guard (hi : guards i = none) {j : ι} {y : Address} :
    Owns (update guards i (some (l.guard x).1)) j y ↔
      j = i ∧ l.isLocked x = false ∧ x = y ∨ Owns guards j y := by
  unfold Owns
  rw [Function.update_apply]
  split_ifs with hj
  · simp [hj, hi]
  · simp [hj]

lemma owns_update_none {j : ι} {y : Address} :
    Owns (update guards i none) j y ↔ j ≠ i ∧ Owns guards j y := by
  unfold Owns
  rw [Function.update_apply]
  split_ifs with hj <;> simp [hj]

/-- A new guard owns its address if no other guard does. -/
theorem Exclusive.guard (h : Exclusive l guards) (hi : guards i = none) (x : Address) :
    Exclusive (l.guard x).2 (update guards i (some (l.guard x).1)) := by
  have hfree : l.isLocked x = false → ∀ j, ¬Owns guards j x := by
    intro hfree j hj
    rw [(h.locked_iff x).mpr ⟨j, hj⟩] at hfree
    cases hfree
  refine ⟨fun y => ?_, fun y j k hj hk => ?_⟩
  · rw [isLocked_guard, h.locked_iff y]
    simp only [owns_update_guard hi]
    constructor
    · rintro (rfl | ⟨j, hj⟩)
      · cases hx : l.isLocked x with
        | false => exact ⟨i, Or.inl ⟨rfl, rfl, rfl⟩⟩
        | true =>
          obtain ⟨j, hj⟩ := (h.locked_iff x).mp hx
          exact ⟨j, Or.inr hj⟩
      · exact ⟨j, Or.inr hj⟩
    · rintro ⟨j, ⟨-, -, rfl⟩ | hj⟩
      · exact Or.inl rfl
      · exact Or.inr ⟨j, hj⟩
  · rcases (owns_update_guard hi).mp hj with ⟨hji, hx, rfl⟩ | hj'
    · rcases (owns_update_guard hi).mp hk with ⟨hki, -, -⟩ | hk'
      · rw [hji, hki]
      · exact absurd hk' (hfree hx k)
    · rcases (owns_update_guard hi).mp hk with ⟨-, hx, rfl⟩ | hk'
      · exact absurd hj' (hfree hx j)
      · exact h.unique y j k hj' hk'

/-- A guard that is dropped gives back what it owned, and nothing else. -/
theorem Exclusive.drop (h : Exclusive l guards) {g : Guard} (hi : guards i = some g) :
    Exclusive (l.drop g) (update guards i none) := by
  have howner : ∀ y, Owns guards i y ↔ g.owns = true ∧ g.address = y := by simp [Owns, hi]
  refine ⟨fun y => ?_, fun y j k hj hk => ?_⟩
  · rw [isLocked_drop, h.locked_iff y, ← howner y]
    simp only [owns_update_none]
    constructor
    · rintro ⟨⟨j, hj⟩, hnot⟩
      exact ⟨j, fun hji => hnot (hji ▸ hj), hj⟩
    · rintro ⟨j, hji, hj⟩
      exact ⟨⟨j, hj⟩, fun hy => hji (h.unique y j i hj hy)⟩
  · exact h.unique y j k (owns_update_none.mp hj).2 (owns_update_none.mp hk).2

/-! ### Runs of guards -/

/-- What can become of locks that nobody but guards changes: at any time a guard is made for a
holder that has none, on an address that may be locked, or the guard of any holder is dropped. -/
inductive Reached : LockSet → (ι → Option Guard) → Prop
  | start : Reached .empty fun _ => none
  | guarded {l : LockSet} {guards : ι → Option Guard} (h : Reached l guards) {i : ι}
      (hi : guards i = none) (x : Address) :
      Reached (l.guard x).2 (update guards i (some (l.guard x).1))
  | dropped {l : LockSet} {guards : ι → Option Guard} (h : Reached l guards) {i : ι} {g : Guard}
      (hi : guards i = some g) : Reached (l.drop g) (update guards i none)

theorem Reached.exclusive (h : Reached l guards) : Exclusive l guards := by
  induction h with
  | start => exact exclusive_empty
  | guarded _ hi x ih => exact ih.guard hi x
  | dropped _ hi ih => exact ih.drop hi

/-- **Mutual exclusion**: in whatever order guards are made and dropped, at most one that is alive
owns an address, and the address is locked as long as there is one. So a new guard owns its address
if nobody does; dropping a guard leaves locked what the others own, and everything if the guard
owned nothing. -/
theorem Reached.excludes (h : Reached l guards) :
    (∀ x i j, Owns guards i x → Owns guards j x → i = j) ∧
    (∀ x, l.isLocked x = true ↔ ∃ i, Owns guards i x) ∧
    (∀ x, (l.guard x).1.owns = true ↔ ¬∃ i, Owns guards i x) ∧
    ∀ i g, guards i = some g →
      (∀ x, (l.drop g).isLocked x = true ↔ ∃ j, j ≠ i ∧ Owns guards j x) ∧
      (g.owns = false → ∀ x, (l.drop g).isLocked x = l.isLocked x) := by
  have hex := h.exclusive
  refine ⟨hex.unique, hex.locked_iff, fun x => ?_, fun i g hi => ⟨fun x => ?_, fun hg x => ?_⟩⟩
  · rw [owns_guard, ← hex.locked_iff x, Bool.not_eq_true', Bool.not_eq_true]
  · rw [(hex.drop hi).locked_iff x]
    simp only [owns_update_none]
  · have hkept : (l.drop g).isLocked x = true ↔ l.isLocked x = true := by
      rw [isLocked_drop, hg]
      simp
    exact Bool.eq_iff_iff.mpr hkept

/-- The owner of an address is dropped before a guard that was made after it and owns nothing, and
before that one is dropped too, there is another owner. -/
theorem Reached.excludes_of_overlap :
    let x := Address.ofPayload .standard .mainnet .p2sh (List.replicate 20 1)
    let y := Address.ofPayload .standard .mainnet .p2sh (List.replicate 20 2)
    ∃ (l : LockSet) (guards : ℕ → Option Guard), Reached l guards ∧
      guards 1 = some ⟨x, false⟩ ∧ guards 2 = some ⟨y, true⟩ ∧ guards 3 = some ⟨x, true⟩ ∧
      (∀ j, Owns guards j x → j = 3) ∧ l.isLocked x = true ∧
      (l.drop ⟨x, false⟩).isLocked x = true ∧ (l.drop ⟨x, true⟩).isLocked x = false := by
  intro x y
  have hne : y ≠ x := fun h => nomatch congrArg Address.payload h
  clear_value x y
  obtain ⟨l, guards, h, h₁, h₂, h₃⟩ : ∃ (l : LockSet) (guards : ℕ → Option Guard),
      Reached l guards ∧ guards 1 = some ⟨x, false⟩ ∧ guards 2 = some ⟨y, true⟩ ∧
        guards 3 = some ⟨x, true⟩ := by
    have hfirst := (start (ι := ℕ)).guarded (i := 0) rfl x
    have hsecond := hfirst.guarded (i := 1) rfl x
    have hother := hsecond.guarded (i := 2) rfl y
    have hdropped := hother.dropped (i := 0) rfl
    refine ⟨_, _, hdropped.guarded (i := 3) rfl x, ?_, ?_, ?_⟩
    · simp [guard, acquire, isLocked]
    · simp [guard, acquire, isLocked, empty, hne.symm]
    · simp [guard, acquire, drop, release, isLocked, empty]
  have howner : Owns guards 3 x := ⟨_, h₃, rfl, rfl⟩
  obtain ⟨hunique, hlocked, -, hdrop⟩ := h.excludes
  refine ⟨l, guards, h, h₁, h₂, h₃, fun j hj => hunique x j 3 hj howner,
    (hlocked x).mpr ⟨3, howner⟩, ?_, ?_⟩
  · exact ((hdrop 1 _ h₁).1 x).mpr ⟨3, by decide, howner⟩
  · rw [Bool.eq_false_iff, Ne, (hdrop 3 _ h₃).1 x]
    rintro ⟨j, hj, hx⟩
    exact hj (hunique x j 3 hx howner)

end LockSet

end WatchWallet
