import Mathlib.Data.Nat.Digits.Lemmas
import WatchWallet.Radix

/-!
A list of digits is its leading zeros and the digits of its number.

The lists here have the most significant digit first, as texts do. `written b z n` writes `n`
behind `z` zeros; both can be read off it, and every list of digits is written so.
-/

namespace WatchWallet.Radix

lemma value_eq_ofDigits (b : ℕ) (ds : List ℕ) : value b ds = Nat.ofDigits b ds := by
  induction ds with
  | nil => rfl
  | cons d ds ih => rw [value_cons, Nat.ofDigits_cons, ih]

lemma digits_eq_digits {b : ℕ} (hb : 2 ≤ b) (n : ℕ) : digits b n = Nat.digits b n := by
  induction n using Nat.strongRecOn with
  | _ n ih =>
    rcases Nat.eq_zero_or_pos n with rfl | hn
    · simp
    · rw [digits_of_pos hb (by omega), Nat.digits_of_two_le_of_pos hb hn,
        ih _ (Nat.div_lt_self hn (by omega))]

lemma value_lt {b : ℕ} (hb : 2 ≤ b) {ds : List ℕ} (h : ∀ d ∈ ds, d < b) :
    value b ds < b ^ ds.length := by
  rw [value_eq_ofDigits]
  exact Nat.ofDigits_lt_base_pow_length hb h

/-- How many zeros a list starts with. -/
def leading (ds : List ℕ) : ℕ := (ds.takeWhile (· = 0)).length

@[simp] lemma leading_nil : leading [] = 0 := rfl
@[simp] lemma leading_zero_cons (ds : List ℕ) : leading (0 :: ds) = leading ds + 1 := by
  simp [leading]
lemma leading_cons_of_ne {d : ℕ} (h : d ≠ 0) (ds : List ℕ) : leading (d :: ds) = 0 := by
  simp [leading, h]

/-- The list that writes `n` behind `z` zeros. -/
def written (b z n : ℕ) : List ℕ := List.replicate z 0 ++ (digits b n).reverse

@[simp] lemma written_succ (b z n : ℕ) : written b (z + 1) n = 0 :: written b z n := by
  simp [written, List.replicate_succ]

lemma lt_of_mem_written {b : ℕ} (hb : 2 ≤ b) {z n d : ℕ} (h : d ∈ written b z n) : d < b := by
  rcases List.mem_append.mp h with h | h
  · rw [List.eq_of_mem_replicate h]; omega
  · exact lt_of_mem_digits hb (List.mem_reverse.mp h)

lemma value_written {b : ℕ} (hb : 2 ≤ b) (z n : ℕ) : value b (written b z n).reverse = n := by
  rw [written, List.reverse_append, List.reverse_reverse, List.reverse_replicate,
    value_eq_ofDigits, Nat.ofDigits_append_replicate_zero, ← value_eq_ofDigits,
    value_digits hb]

lemma leading_digits {b : ℕ} (hb : 2 ≤ b) (n : ℕ) : leading (digits b n).reverse = 0 := by
  rw [digits_eq_digits hb]
  rcases Nat.eq_zero_or_pos n with rfl | hn
  · simp
  · have hne : Nat.digits b n ≠ [] := Nat.digits_ne_nil_iff_ne_zero.mpr (by omega)
    have hlast := Nat.getLast_digit_ne_zero b (m := n) (by omega)
    rw [← List.dropLast_append_getLast hne, List.reverse_append]
    exact leading_cons_of_ne hlast _

lemma leading_written {b : ℕ} (hb : 2 ≤ b) (z n : ℕ) : leading (written b z n) = z := by
  induction z with
  | zero => simpa [written] using leading_digits hb n
  | succ z ih => rw [written_succ, leading_zero_cons, ih]

/-- Every list of digits is written by its leading zeros and its number. -/
theorem written_leading_value {b : ℕ} (hb : 2 ≤ b) {ds : List ℕ} (h : ∀ d ∈ ds, d < b) :
    written b (leading ds) (value b ds.reverse) = ds := by
  induction ds with
  | nil => simp [written]
  | cons d ds ih =>
    rcases Nat.eq_zero_or_pos d with rfl | hd
    · have hv : value b (0 :: ds).reverse = value b ds.reverse := by
        simp [value_eq_ofDigits, Nat.ofDigits_append]
      rw [leading_zero_cons, written_succ, hv, ih fun e he => h e (by simp [he])]
    · have hlt : ∀ e ∈ (d :: ds).reverse, e < b := fun e he => h e (List.mem_reverse.mp he)
      rw [leading_cons_of_ne (by omega), written, digits_eq_digits hb, value_eq_ofDigits,
        Nat.digits_ofDigits b hb _ hlt fun _ => by simpa using (by omega : d ≠ 0)]
      simp

/-- The quotient by a power of the base, where it is a digit, is the first digit. -/
lemma digits_eq_append {b k n : ℕ} (hb : 2 ≤ b) (h0 : n / b ^ k ≠ 0) (h1 : n / b ^ k < b) :
    ∃ low, digits b n = low ++ [n / b ^ k] := by
  induction k generalizing n with
  | zero =>
    rw [pow_zero, Nat.div_one] at *
    exact ⟨[], by rw [digits_of_pos hb h0, Nat.mod_eq_of_lt h1, Nat.div_eq_of_lt h1]; simp⟩
  | succ k ih =>
    rw [pow_succ', ← Nat.div_div_eq_div_mul] at *
    obtain ⟨low, hlow⟩ := ih h0 h1
    have hn : n ≠ 0 := by rintro rfl; simp at h0
    exact ⟨n % b :: low, by rw [digits_of_pos hb hn, hlow]; rfl⟩

end WatchWallet.Radix
