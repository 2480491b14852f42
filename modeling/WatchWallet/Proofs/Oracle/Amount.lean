import Mathlib.Algebra.Order.Round
import Mathlib.Data.Rat.Floor
import Mathlib.Tactic.FieldSimp
import Mathlib.Tactic.Linarith
import Mathlib.Tactic.Ring
import WatchWallet.Oracle.Amount

/-!
What an amount is worth.

A double stands for a rational number. The bits that are kept of it are those of the whole number
nearest to it, wherever that is in range.
-/

namespace WatchWallet.Amount

open Float.Model.UnpackedFloat (Sign)

/-! ### Rounding -/

/-- The whole number nearest to `q`, or of two such numbers the one farther from zero. -/
def rounded (q : ℚ) : ℤ := if 0 ≤ q then round q else -round (-q)

/-- A half between two numbers, as a quotient of whole ones. -/
lemma floor_add_half (m e : ℕ) :
    ⌊(m : ℚ) * 2 ^ (-((e : ℤ) + 1)) + 1 / 2⌋ = ((m + 2 ^ e) / 2 ^ (e + 1) : ℕ) := by
  have hquotient : (m : ℚ) * 2 ^ (-((e : ℤ) + 1)) + 1 / 2 =
      ((m + 2 ^ e : ℕ) : ℚ) / (2 ^ (e + 1) : ℕ) := by
    rw [zpow_neg, zpow_add_one₀ two_ne_zero, zpow_natCast]
    push_cast
    field_simp
    ring
  rw [hquotient, ← Int.cast_natCast (m + 2 ^ e), Rat.floor_intCast_div_natCast]
  norm_cast

lemma round_eq_nearest (m : ℕ) (e : ℤ) : round ((m : ℚ) * 2 ^ e) = nearest m e := by
  cases e with
  | ofNat e =>
    have hwhole : (m : ℚ) * 2 ^ (Int.ofNat e) = ((m * 2 ^ e : ℤ) : ℚ) := by push_cast; rfl
    rw [hwhole, round_intCast, nearest]
    push_cast
    rfl
  | negSucc e =>
    rw [nearest, round_eq, Int.negSucc_eq, floor_add_half]
    rfl

lemma rounded_neg (q : ℚ) : rounded (-q) = -rounded q := by
  rcases lt_trichotomy q 0 with h | rfl | h
  · rw [rounded, if_pos (by linarith), rounded, if_neg (by linarith), neg_neg]
  · simp [rounded]
  · rw [rounded, if_neg (by linarith), rounded, if_pos h.le, neg_neg]

lemma rounded_apply (sign : Sign) (m : ℕ) (e : ℤ) :
    rounded (sign.apply m * 2 ^ e) = sign.apply (nearest m e) := by
  have hpositive : rounded (m * 2 ^ e) = nearest m e := by
    have h : (0 : ℚ) ≤ m * 2 ^ e := mul_nonneg m.cast_nonneg (zpow_nonneg zero_le_two e)
    rw [rounded, if_pos h, round_eq_nearest]
  cases sign with
  | positive => exact hpositive
  | negative =>
    simp only [Sign.apply, Int.cast_neg, Int.cast_natCast, neg_mul, rounded_neg, hpositive]

/-! ### Doubles -/

/-- The number that a double stands for, if it stands for one. -/
def rational? (x : Float) : Option ℚ :=
  match x.toModel.unpack with
  | .finite sign m e _ => some (sign.apply m * 2 ^ e)
  | .zero _ => some 0
  | _ => none

lemma whole?_eq (x : Float) : whole? x = (rational? x).map rounded := by
  unfold whole? rational?
  cases x.toModel.unpack with
  | finite sign m e h => simp only [Option.map_some, rounded_apply]
  | zero => simp [rounded]
  | _ => rfl

/-- The 64 bits that are kept of a double: those of the whole number that it is rounded to, and where
that has no place among the numbers of 64 bits with a sign, those of the least of these. -/
inductive Keeps (x : Float) : UInt64 → Prop
  | whole {q : ℚ} (hx : rational? x = some q) (hrange : -2 ^ 63 ≤ rounded q ∧ rounded q < 2 ^ 63) :
      Keeps x (.ofInt (rounded q))
  | least (h : ∀ q, rational? x = some q → ¬(-2 ^ 63 ≤ rounded q ∧ rounded q < 2 ^ 63)) :
      Keeps x 0x8000000000000000

lemma toUInt64_ofInt (n : ℤ) : (Int64.ofInt n).toUInt64 = UInt64.ofInt n := by
  have hlt : (n % 2 ^ 64).toNat < 2 ^ 64 := by omega
  rw [← UInt64.toNat_inj, UInt64.ofInt, UInt64.toNat_ofNat', Nat.mod_eq_of_lt hlt]
  exact BitVec.toNat_ofInt ..

lemma inRange_iff {n : ℤ} :
    Int64.minValue.toInt ≤ n ∧ n ≤ Int64.maxValue.toInt ↔ -2 ^ 63 ≤ n ∧ n < 2 ^ 63 := by
  rw [Int64.toInt_minValue, Int64.toInt_maxValue]
  omega

lemma toInt64_of_whole {x : Float} {q : ℚ} (hx : rational? x = some q)
    (hrange : -2 ^ 63 ≤ rounded q ∧ rounded q < 2 ^ 63) :
    (toInt64 x).toUInt64 = .ofInt (rounded q) := by
  rw [toInt64, whole?_eq, hx, Option.map_some]
  simp only [if_pos (inRange_iff.mpr hrange), toUInt64_ofInt]

lemma toInt64_of_least {x : Float}
    (h : ∀ q, rational? x = some q → ¬(-2 ^ 63 ≤ rounded q ∧ rounded q < 2 ^ 63)) :
    (toInt64 x).toUInt64 = 0x8000000000000000 := by
  rw [toInt64, whole?_eq]
  cases hx : rational? x with
  | none => rfl
  | some q =>
    simp only [Option.map_some, if_neg (mt inRange_iff.mp (h q hx))]
    rfl

/-- **The bits of a double** are the ones that are kept of it, and no others. -/
theorem keeps_iff {x : Float} {bits : UInt64} : Keeps x bits ↔ bits = (toInt64 x).toUInt64 := by
  constructor
  · rintro (⟨hx, hrange⟩ | h)
    · exact (toInt64_of_whole hx hrange).symm
    · exact (toInt64_of_least h).symm
  · rintro rfl
    by_cases h : ∃ q, rational? x = some q ∧ -2 ^ 63 ≤ rounded q ∧ rounded q < 2 ^ 63
    · obtain ⟨q, hx, hrange⟩ := h
      rw [toInt64_of_whole hx hrange]
      exact .whole hx hrange
    · have hleast : ∀ q, rational? x = some q → ¬(-2 ^ 63 ≤ rounded q ∧ rounded q < 2 ^ 63) :=
        fun q hx hrange => h ⟨q, hx, hrange⟩
      rw [toInt64_of_least hleast]
      exact .least hleast

-- as a double the product of `15e-9` and `10 ^ 8` is below the half
example : satoshis ⟨false, 15, -9⟩ = 1 := by decide +kernel

end WatchWallet.Amount
