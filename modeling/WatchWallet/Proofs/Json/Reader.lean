import Mathlib.Data.List.Forall2
import Mathlib.Tactic.Common
import WatchWallet.Json.Reader

/-!
What a reader accepts.

Each reader gives a value just for what stands for that value. A list is read all or nothing: its
items are read one by one, and one that is not read takes the others with it.
-/

namespace WatchWallet

lemma bind_eq_ok_iff {ε α β : Type} {x : Except ε α} {f : α → Except ε β} {b : β} :
    x >>= f = .ok b ↔ ∃ a, x = .ok a ∧ f a = .ok b := by
  cases x <;> simp [bind, Except.bind]

namespace Json

variable {α : Type} {j : Json}

@[simp] lemma orShape_eq_ok_iff {o : Option α} {a : α} : orShape o = .ok a ↔ o = some a := by
  cases o <;> simp [orShape]

lemma field_eq_ok_iff {key : String} {read : Reader α} {a : α} :
    field key read j = .ok a ↔ ∃ v, j.member? key = some v ∧ read v = .ok a := by
  simp [field, bind_eq_ok_iff]

lemma boolean_eq_ok_iff {b : Bool} : boolean j = .ok b ↔ j = .bool b := by
  cases j <;> simp [boolean, bool?]

lemma text_eq_ok_iff {t : String} : text j = .ok t ↔ j = .string t := by
  cases j <;> simp [text, string?]

lemma bytes_eq_ok_iff {bs : Bytes} :
    bytes j = .ok bs ↔ ∃ t, j = .string t ∧ Hex.decode t = .ok bs := by
  simp only [bytes, bind_eq_ok_iff, text_eq_ok_iff]
  refine exists_congr fun t => and_congr_right fun _ => ?_
  cases Hex.decode t <;> simp

lemma natBelow?_eq_some_iff {bound n : ℕ} :
    j.natBelow? bound = some n ↔ j = ofNat n ∧ n < bound := by
  constructor
  · intro h
    unfold natBelow? at h
    split at h
    · split_ifs at h with hlt
      obtain rfl := Option.some.inj h
      exact ⟨rfl, hlt⟩
    · cases h
  · rintro ⟨rfl, hlt⟩
    exact natBelow?_ofNat hlt

lemma uint32_eq_ok_iff {n : UInt32} : uint32 j = .ok n ↔ j = ofUInt32 n := by
  have hmap : uint32 j = .ok n ↔ ∃ m, j.natBelow? UInt32.size = some m ∧ UInt32.ofNat m = n := by
    rw [uint32]
    cases j.natBelow? UInt32.size <;> simp [orShape]
  rw [hmap]
  constructor
  · rintro ⟨m, hm, rfl⟩
    obtain ⟨rfl, hlt⟩ := natBelow?_eq_some_iff.mp hm
    rw [ofUInt32, UInt32.toNat_ofNat', Nat.mod_eq_of_lt hlt]
  · rintro rfl
    exact ⟨n.toNat, natBelow?_ofNat n.toNat_lt_size, UInt32.ofNat_toNat⟩

/-- All or nothing, one to one and in order. -/
lemma mapM_eq_ok_iff {ε β : Type} {read : α → Except ε β} {as : List α} {bs : List β} :
    as.mapM read = .ok bs ↔ List.Forall₂ (fun a b => read a = .ok b) as bs := by
  induction as generalizing bs with
  | nil => simp [pure, Except.pure, eq_comm]
  | cons a as ih =>
    simp only [List.mapM_cons, bind_eq_ok_iff, ih, List.forall₂_cons_left_iff, pure, Except.pure,
      Except.ok.injEq]
    constructor
    · rintro ⟨b, hb, bs', hbs, rfl⟩
      exact ⟨b, bs', hb, hbs, rfl⟩
    · rintro ⟨b, bs', hb, hbs, rfl⟩
      exact ⟨b, hb, bs', hbs, rfl⟩

lemma exists_forall₂_iff {β : Type} {R : α → β → Prop} {as : List α} :
    (∃ bs, List.Forall₂ R as bs) ↔ ∀ a ∈ as, ∃ b, R a b := by
  induction as with
  | nil => simp
  | cons a as ih =>
    rw [List.forall_mem_cons, ← ih]
    constructor
    · rintro ⟨_, _ | ⟨hb, hbs⟩⟩
      exact ⟨⟨_, hb⟩, ⟨_, hbs⟩⟩
    · rintro ⟨⟨b, hb⟩, ⟨bs, hbs⟩⟩
      exact ⟨b :: bs, .cons hb hbs⟩

lemma listOf_eq_ok_iff {read : Reader α} {as : List α} :
    listOf read j = .ok as ↔
      ∃ items, j = .array items ∧ List.Forall₂ (fun v a => read v = .ok a) items as := by
  cases j <;> simp [listOf, items?, orShape, bind, Except.bind, mapM_eq_ok_iff]

end Json

end WatchWallet
