/-!
Numbers as digit lists, least significant digit first.
-/

namespace WatchWallet.Radix

/-- The digits of `n` in base `b`, least significant first and without leading zeros. -/
def digits (b n : Nat) : List Nat :=
  if _h : 2 ≤ b ∧ n ≠ 0 then n % b :: digits b (n / b) else []
termination_by n
decreasing_by exact Nat.div_lt_self (by omega) (by omega)

def value (b : Nat) : List Nat → Nat
  | [] => 0
  | d :: ds => d + b * value b ds

@[simp] theorem digits_zero (b : Nat) : digits b 0 = [] := by rw [digits]; simp
@[simp] theorem value_nil (b : Nat) : value b [] = 0 := rfl
@[simp] theorem value_cons (b d : Nat) (ds : List Nat) :
    value b (d :: ds) = d + b * value b ds := rfl

theorem digits_of_pos {b n : Nat} (hb : 2 ≤ b) (hn : n ≠ 0) :
    digits b n = n % b :: digits b (n / b) := by
  rw [digits]
  simp [hb, hn]

theorem value_digits {b : Nat} (hb : 2 ≤ b) (n : Nat) : value b (digits b n) = n := by
  induction n using Nat.strongRecOn with
  | _ n ih =>
    by_cases hn : n = 0
    · simp [hn]
    · rw [digits_of_pos hb hn, value_cons, ih _ (Nat.div_lt_self (by omega) (by omega))]
      exact Nat.mod_add_div n b

theorem lt_of_mem_digits {b : Nat} (hb : 2 ≤ b) {n d : Nat} (h : d ∈ digits b n) : d < b := by
  induction n using Nat.strongRecOn with
  | _ n ih =>
    by_cases hn : n = 0
    · simp [hn] at h
    · rw [digits_of_pos hb hn, List.mem_cons] at h
      rcases h with rfl | h
      · exact Nat.mod_lt _ (by omega)
      · exact ih _ (Nat.div_lt_self (by omega) (by omega)) h

end WatchWallet.Radix
