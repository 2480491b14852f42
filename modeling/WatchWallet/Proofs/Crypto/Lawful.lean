import WatchWallet.Crypto.Standard
import WatchWallet.Proofs.Bytes
import WatchWallet.Proofs.Crypto.CurveGroup

/-!
Secp256k1 has what derivation relies on of a curve: its multiples of the base point are the
integers modulo the order, and reading a compressed point gives back the point.

The ordinate of a compressed point is a square root of the cubic. As the prime is 3 modulo 4, a
power of a square is one of its two roots; these differ in parity, which the first byte tells.
-/

namespace WatchWallet.Crypto

namespace Secp256k1

open WeierstrassCurve

/-! ### Square roots -/

lemma pow_card_add_one (y : Residue) : ((y ^ 2) ^ ((prime + 1) / 4)) ^ 2 = y ^ 2 := by
  have hexp : 2 * ((prime + 1) / 4 * 2) = prime + 1 := by decide
  rw [← pow_mul, ← pow_mul, hexp, pow_succ, ZMod.pow_card, sq]

/-- The other root of a square has the other parity. -/
lemma parity_neg_ne {y : Residue} (hy : y ≠ 0) : (-y).val % 2 ≠ y.val % 2 := by
  have hlt : y.val < prime := y.val_lt
  have hpos : 0 < y.val := Nat.pos_of_ne_zero ((ZMod.val_ne_zero y).mpr hy)
  have hodd : prime % 2 = 1 := by decide
  have hval : (prime - y.val) % prime = prime - y.val := Nat.mod_eq_of_lt (by omega)
  rw [ZMod.neg_val', hval]
  omega

/-- Of the roots of a square, the parity tells which is meant. -/
theorem root?_sq (y : Residue) : root? (y ^ 2).val (y.val % 2) = some y.val := by
  set r := Modular.pow prime (y ^ 2).val ((prime + 1) / 4) with hr
  have hlt : r < prime := by
    rw [hr, Modular.pow_eq]
    exact Nat.mod_lt _ prime_prime.pos
  have hsquare : (r : Residue) ^ 2 = y ^ 2 := by
    rw [hr, Modular.natCast_pow, ZMod.natCast_zmod_val, pow_card_add_one]
  have hmul : mul r r = (y ^ 2).val :=
    eq_val_of_natCast_eq (mul_lt r r) (by rw [natCast_mul, ← sq, hsquare])
  have hroot : root? (y ^ 2).val (y.val % 2) =
      some (if r % 2 = y.val % 2 then r else (prime - r) % prime) := by
    rw [root?, ← hr]
    exact if_pos hmul
  rw [hroot]
  by_cases h : (r : Residue) = y
  · rw [eq_val_of_natCast_eq hlt h, if_pos rfl]
  · have hneg : r = (-y).val :=
      eq_val_of_natCast_eq hlt ((sq_eq_sq_iff_eq_or_eq_neg.mp hsquare).resolve_left h)
    have hy : y ≠ 0 := by
      rintro rfl
      exact h (by rw [hneg, neg_zero, ZMod.val_zero, Nat.cast_zero])
    rw [hneg, if_neg (parity_neg_ne hy), ← ZMod.neg_val', neg_neg]

/-! ### Text -/

lemma cubic_val {x y : Residue} (h : y ^ 2 = x ^ 3 + 7) : cubic x.val = (y ^ 2).val := by
  have hlt : cubic x.val < prime := Nat.mod_lt _ prime_prime.pos
  refine eq_val_of_natCast_eq hlt ?_
  rw [cubic, ZMod.natCast_mod, h]
  push_cast
  rw [ZMod.natCast_zmod_val]
  ring

lemma toNat_coordinate (x : Residue) : Bytes.toNat (coordinate x.val) = x.val := by
  have hlt : x.val < 256 ^ 32 := lt_trans x.val_lt (by decide)
  rw [coordinate, Bytes.toNat_ofNatFixed, Nat.mod_eq_of_lt hlt]

/-- Only the point at infinity has no compressed form. -/
theorem compress?_eq_none_iff {P : curve.Point} : compress? (coordinates P) = none ↔ P = 0 := by
  cases P with
  | zero => exact iff_of_true rfl rfl
  | some x y h =>
    exact iff_of_false (Option.some_ne_none _) (Affine.Point.some_ne_zero h)

theorem decode?_of_compress? {P : curve.Point} {bs : Bytes}
    (h : compress? (coordinates P) = some bs) : decode? bs = some (coordinates P) := by
  cases P with
  | zero => cases h
  | some x y hxy =>
    obtain rfl := Option.some.inj h
    have hroot := root?_sq y
    rw [← cubic_val (equation_iff.mp hxy.1)] at hroot
    have hread : Bytes.toNat (coordinate x.val) = x.val ∧ (coordinate x.val).length = 32 :=
      ⟨toNat_coordinate x, Bytes.length_ofNatFixed 32 x.val⟩
    rcases Nat.mod_two_eq_zero_or_one y.val with hparity | hparity <;>
      · rw [hparity] at hroot
        simp [decode?, coordinates, hparity, hread, x.val_lt, hroot]

lemma compress?_mulBase_eq_none_iff (k : ℕ) : compress? (mulBase k) = none ↔ order ∣ k := by
  rw [mulBase_eq, compress?_eq_none_iff, ← addOrderOf_generator, addOrderOf_dvd_iff_nsmul_eq_zero]

lemma decode?_of_compress?_mulBase (k : ℕ) (bs : Bytes) (h : compress? (mulBase k) = some bs) :
    decode? bs = some (mulBase k) := by
  rw [mulBase_eq] at h ⊢
  exact decode?_of_compress? h

end Secp256k1

/-! ### Curves -/

/-- The multiples of the base point are the integers modulo the order, and their compressed forms
read back. -/
structure Curve.Lawful (c : Curve) : Prop where
  order_pos : 0 < c.order
  order_le : c.order ≤ 256 ^ 32
  mulBase_eq_iff : ∀ j k, c.mulBase j = c.mulBase k ↔ j ≡ k [MOD c.order]
  add_mulBase : ∀ j k, c.add (c.mulBase j) (c.mulBase k) = c.mulBase (j + k)
  compress?_eq_none_iff : ∀ k, c.compress? (c.mulBase k) = none ↔ c.order ∣ k
  decode?_of_compress? : ∀ k bs, c.compress? (c.mulBase k) = some bs →
    c.decode? bs = some (c.mulBase k)

theorem Curve.secp256k1_lawful : Curve.secp256k1.Lawful where
  order_pos := by exact Secp256k1.order_prime.pos
  order_le := by decide
  mulBase_eq_iff := Secp256k1.mulBase_eq_iff
  add_mulBase := Secp256k1.add_mulBase
  compress?_eq_none_iff := Secp256k1.compress?_mulBase_eq_none_iff
  decode?_of_compress? := Secp256k1.decode?_of_compress?_mulBase

end WatchWallet.Crypto
