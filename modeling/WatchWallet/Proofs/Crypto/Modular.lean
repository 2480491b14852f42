import Mathlib.FieldTheory.Finite.Basic
import WatchWallet.Crypto.Modular

/-!
Powers and inverses modulo a number, as powers and inverses of residues.
-/

namespace WatchWallet.Crypto.Modular

lemma pow_eq (m b e : ℕ) : pow m b e = b ^ e % m := by
  induction e using pow.induct m b with
  | case1 => rw [pow, if_pos rfl, pow_zero]
  | case2 e he hodd ih =>
    have hexp : b ^ e = b ^ (e / 2) * b ^ (e / 2) * b := by
      rw [← pow_add, ← pow_succ]
      congr 1
      omega
    rw [pow, if_neg he, if_pos hodd, ih, ← Nat.mul_mod, Nat.mod_mul_mod, hexp]
  | case3 e he heven ih =>
    have hexp : b ^ e = b ^ (e / 2) * b ^ (e / 2) := by
      rw [← pow_add]
      congr 1
      omega
    rw [pow, if_neg he, if_neg heven, ih, ← Nat.mul_mod, hexp]

lemma natCast_pow (m b e : ℕ) : (pow m b e : ZMod m) = (b : ZMod m) ^ e := by
  rw [pow_eq, ZMod.natCast_mod, Nat.cast_pow]

lemma natCast_inverse {p : ℕ} [Fact p.Prime] {a : ℕ} (ha : (a : ZMod p) ≠ 0) :
    (inverse p a : ZMod p) = (a : ZMod p)⁻¹ := by
  have hp : 2 ≤ p := (Fact.out : p.Prime).two_le
  refine eq_inv_of_mul_eq_one_left ?_
  rw [inverse, natCast_pow, ← pow_succ, ← ZMod.pow_card_sub_one_eq_one ha]
  congr 1
  omega

end WatchWallet.Crypto.Modular
