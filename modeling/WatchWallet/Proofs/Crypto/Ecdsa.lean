import WatchWallet.Proofs.Crypto.Lawful

/-!
Signatures over secp256k1 verify, and so do those with the other number.

A signature names a multiple of the base point: by the message, the key and its two numbers. It
verifies if the abscissa of that point is its first number. Signing chooses the second number so
that the multiple is the nonce; the negative of the second number gives the opposite multiple,
whose point has the same abscissa.
-/

namespace WatchWallet.Crypto

namespace Ecdsa

open Secp256k1 (order mulBase multiple coordinates generator)

/-- The multiple of the base point that a signature names. -/
def named (key hash : ℕ) (sig : Signature) : ℕ :=
  hash * Modular.inverse order sig.s % order + sig.r * Modular.inverse order sig.s % order * key

lemma multiple_mulBase (v key : ℕ) :
    multiple (v % order) (mulBase key) = mulBase (v % order * key) := by
  rw [Secp256k1.mulBase_eq, Secp256k1.mulBase_eq, Secp256k1.multiple_coordinates, Nat.mod_mod,
    mul_nsmul']

lemma natCast_ne_zero {n : ℕ} (hpos : 0 < n) (hlt : n < order) : (n : ZMod order) ≠ 0 := by
  rw [Ne, ZMod.natCast_eq_zero_iff]
  exact Nat.not_dvd_of_pos_of_lt hpos hlt

lemma natCast_named (key hash : ℕ) {sig : Signature} (hpos : 0 < sig.s) (hlt : sig.s < order) :
    (named key hash sig : ZMod order) = (hash + sig.r * key) * (sig.s : ZMod order)⁻¹ := by
  have hinv := Modular.natCast_inverse (natCast_ne_zero hpos hlt)
  rw [named]
  push_cast
  rw [ZMod.natCast_mod, ZMod.natCast_mod]
  push_cast
  rw [hinv]
  ring

/-- The numbers are in range, and the point that is named has the first as its abscissa. -/
lemma verify_mulBase_iff (key : ℕ) (hash : Bytes) (sig : Signature) :
    verify (mulBase key) hash sig = true ↔
      (0 < sig.r ∧ sig.r < order ∧ 0 < sig.s ∧ sig.s < order) ∧
      ∃ x y, mulBase (named key (Bytes.toNat hash) sig) = .affine x y ∧ x % order = sig.r := by
  unfold verify
  split_ifs with hrange
  · have hpoint : Secp256k1.add
        (mulBase (Bytes.toNat hash * Modular.inverse order sig.s % order))
        (multiple (sig.r * Modular.inverse order sig.s % order) (mulBase key)) =
        mulBase (named key (Bytes.toNat hash) sig) := by
      rw [multiple_mulBase, Secp256k1.add_mulBase, named]
    simp only [hpoint, hrange]
    cases mulBase (named key (Bytes.toNat hash) sig) with
    | infinity => simp
    | affine x y => simp
  · simp [hrange]

/-! ### The other number -/

/-- Opposite points have one abscissa. -/
lemma exists_coordinates_neg {P : Secp256k1.curve.Point} {x y : ℕ}
    (h : coordinates P = .affine x y) : ∃ y', coordinates (-P) = .affine x y' := by
  cases P with
  | zero => cases h
  | some a b hab =>
    obtain ⟨rfl, rfl⟩ := Secp256k1.Point.affine.inj h
    exact ⟨_, rfl⟩

lemma exists_mulBase_of_neg {j k x y : ℕ} (hjk : order ∣ j + k) (h : mulBase j = .affine x y) :
    ∃ y', mulBase k = .affine x y' := by
  have hzero : j • generator + k • generator = 0 := by
    rw [← add_nsmul, ← addOrderOf_dvd_iff_nsmul_eq_zero, Secp256k1.addOrderOf_generator]
    exact hjk
  rw [Secp256k1.mulBase_eq] at h ⊢
  rw [eq_neg_of_add_eq_zero_right hzero]
  exact exists_coordinates_neg h

/-- The signatures with one number and with its negative name opposite multiples. -/
lemma dvd_named_add_named (key hash r : ℕ) {s : ℕ} (hpos : 0 < s) (hlt : s < order) :
    order ∣ named key hash ⟨r, s⟩ + named key hash ⟨r, order - s⟩ := by
  have hneg : ((order - s : ℕ) : ZMod order) = -s := by
    rw [Nat.cast_sub hlt.le, ZMod.natCast_self, zero_sub]
  have hpos' : 0 < order - s := by omega
  have hlt' : order - s < order := by omega
  rw [← ZMod.natCast_eq_zero_iff]
  push_cast
  rw [natCast_named key hash hpos hlt, natCast_named key hash hpos' hlt']
  simp only [hneg, inv_neg]
  ring

lemma verify_neg (key : ℕ) (hash : Bytes) {r s : ℕ} (hpos : 0 < s) (hlt : s < order)
    (h : verify (mulBase key) hash ⟨r, s⟩ = true) :
    verify (mulBase key) hash ⟨r, order - s⟩ = true := by
  obtain ⟨⟨hr, hr', -, -⟩, x, y, hpoint, hx⟩ := (verify_mulBase_iff _ _ _).mp h
  obtain ⟨y', hpoint'⟩ := exists_mulBase_of_neg (dvd_named_add_named key _ r hpos hlt) hpoint
  have hrange : 0 < order - s ∧ order - s < order := by omega
  exact (verify_mulBase_iff _ _ _).mpr ⟨⟨hr, hr', hrange⟩, x, y', hpoint', hx⟩

/-! ### Signing -/

/-- A nonce whose multiple is not at infinity is not zero modulo the order. -/
lemma natCast_nonce_ne_zero {k x y : ℕ} (h : mulBase k = .affine x y) : (k : ZMod order) ≠ 0 := by
  rw [Ne, ZMod.natCast_eq_zero_iff, ← Secp256k1.compress?_mulBase_eq_none_iff, h]
  exact Option.some_ne_none _

/-- The signature names its nonce. -/
lemma named_modEq {key hash k r s : ℕ} (hk : (k : ZMod order) ≠ 0) (hpos : 0 < s)
    (hs : s = Modular.inverse order k * ((hash + r * key) % order) % order) :
    named key hash ⟨r, s⟩ ≡ k [MOD order] := by
  have hlt : s < order := by
    rw [hs]
    exact Nat.mod_lt _ Secp256k1.order_prime.pos
  have hcast : (s : ZMod order) = (k : ZMod order)⁻¹ * (hash + r * key) := by
    rw [hs, ZMod.natCast_mod, Nat.cast_mul, ZMod.natCast_mod, Modular.natCast_inverse hk]
    push_cast
    ring
  have hne := natCast_ne_zero hpos hlt
  rw [← ZMod.natCast_eq_natCast_iff, natCast_named key hash hpos hlt]
  rw [hcast] at hne ⊢
  have hsum := right_ne_zero_of_mul hne
  field_simp

lemma verify_of_signWith {key k : ℕ} {hash : Bytes} {sig : Signature}
    (h : signWith key (Bytes.toNat hash) k = some sig) :
    verify (mulBase key) hash sig = true := by
  unfold signWith at h
  cases hpoint : mulBase k with
  | infinity => rw [hpoint] at h; cases h
  | affine x y =>
    rw [hpoint] at h
    simp only at h
    split_ifs at h with hzero
    obtain rfl := Option.some.inj h
    obtain ⟨hr, hs⟩ := not_or.mp hzero
    have hsame := named_modEq (natCast_nonce_ne_zero hpoint) (Nat.pos_of_ne_zero hs) rfl
    refine (verify_mulBase_iff _ _ _).mpr ⟨⟨Nat.pos_of_ne_zero hr, ?_, Nat.pos_of_ne_zero hs, ?_⟩,
      x, y, ?_, rfl⟩
    · exact Nat.mod_lt _ Secp256k1.order_prime.pos
    · exact Nat.mod_lt _ Secp256k1.order_prime.pos
    · rw [(Secp256k1.mulBase_eq_iff _ _).mpr hsame, hpoint]

/-- **Signatures verify** for the public key of the signing key. -/
theorem verify_of_sign? {key : ℕ} {hash : Bytes} {sig : Signature}
    (h : sign? key hash = some sig) : verify (mulBase key) hash sig = true := by
  unfold sign? at h
  split_ifs at h
  obtain ⟨counter, -, hcounter⟩ := List.exists_of_findSome?_eq_some h
  exact verify_of_signWith hcounter

end Ecdsa

/-! ### Curves -/

/-- A signature of a digest has its numbers in range and verifies for the public key, and with a
signature that verifies the one with the other number does. -/
structure Curve.Signs (c : Curve) : Prop where
  range : ∀ key hash sig, hash.length = 32 → c.sign? key hash = some sig →
    sig.r < c.order ∧ 0 < sig.s ∧ sig.s < c.order
  verifies : ∀ key hash sig, hash.length = 32 → c.sign? key hash = some sig →
    c.verify (c.mulBase key) hash sig = true
  verifies_neg : ∀ key hash r s, hash.length = 32 → 0 < s → s < c.order →
    c.verify (c.mulBase key) hash ⟨r, s⟩ = true →
      c.verify (c.mulBase key) hash ⟨r, c.order - s⟩ = true

theorem Curve.secp256k1_signs : Curve.secp256k1.Signs where
  range key hash sig _ h := by
    obtain ⟨⟨-, hr, hs, hs'⟩, -⟩ :=
      (Ecdsa.verify_mulBase_iff key hash sig).mp (Ecdsa.verify_of_sign? h)
    exact ⟨hr, hs, hs'⟩
  verifies _ _ _ _ h := Ecdsa.verify_of_sign? h
  verifies_neg key hash _ _ _ hpos hlt h := Ecdsa.verify_neg key hash hpos hlt h

end WatchWallet.Crypto
