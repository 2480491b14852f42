import Mathlib.AlgebraicGeometry.EllipticCurve.Affine.Point
import Mathlib.GroupTheory.OrderOfElement
import Mathlib.Tactic.LinearCombination
import WatchWallet.Proofs.Crypto.Modular
import WatchWallet.Proofs.Crypto.Primality

/-!
The arithmetic of points is that of the group of the curve.

A Jacobian triple represents a point of the group. Doubling, adding and the ladder of doublings
and additions respect what is represented, and the group is generated by a base point of prime
order; so a multiple of the base point depends on the number modulo that order and on nothing less.
-/

namespace WatchWallet.Crypto.Secp256k1

open WeierstrassCurve

/-! ### The field -/

abbrev Residue := ZMod prime

@[simp] lemma natCast_mul (a b : ℕ) : (mul a b : Residue) = a * b := by
  rw [mul, ZMod.natCast_mod, Nat.cast_mul]

@[simp] lemma natCast_sub (a b : ℕ) : (sub a b : Residue) = a - b := by
  have hb : b % prime ≤ prime := (Nat.mod_lt b prime_prime.pos).le
  rw [sub, ZMod.natCast_mod, Nat.cast_add, Nat.cast_sub hb, ZMod.natCast_self, ZMod.natCast_mod,
    zero_sub, sub_eq_add_neg]

lemma mul_lt (a b : ℕ) : mul a b < prime := Nat.mod_lt _ prime_prime.pos

lemma sub_lt (a b : ℕ) : sub a b < prime := Nat.mod_lt _ prime_prime.pos

lemma natCast_eq_zero_iff {a : ℕ} (h : a < prime) : (a : Residue) = 0 ↔ a = 0 := by
  rw [ZMod.natCast_eq_zero_iff]
  exact ⟨fun hdvd => Nat.eq_zero_of_dvd_of_lt hdvd h, fun ha => ha ▸ dvd_zero _⟩

lemma eq_val_of_natCast_eq {a : ℕ} (h : a < prime) {x : Residue} (hx : (a : Residue) = x) :
    a = x.val := by
  rw [← hx, ZMod.val_natCast_of_lt h]

lemma two_ne_zero : (2 : Residue) ≠ 0 := by
  have h : ((2 : ℕ) : Residue) ≠ 0 := by
    rw [Ne, natCast_eq_zero_iff (by decide)]
    decide
  exact_mod_cast h

/-! ### The curve -/

def curve : WeierstrassCurve.Affine Residue := ⟨0, 0, 0, 0, 7⟩

lemma equation_iff {x y : Residue} : curve.Equation x y ↔ y ^ 2 = x ^ 3 + 7 := by
  rw [Affine.equation_iff]
  simp [curve]

@[simp] lemma negY_eq (x y : Residue) : curve.negY x y = -y := by
  simp [curve]

lemma addX_eq (x x' ℓ : Residue) : curve.addX x x' ℓ = ℓ ^ 2 - x - x' := by
  simp [curve]

lemma addY_eq (x x' y ℓ : Residue) :
    curve.addY x x' y ℓ = ℓ * (x - (ℓ ^ 2 - x - x')) - y := by
  rw [Affine.addY, negY_eq, Affine.negAddY, addX_eq]
  ring

lemma discriminant_ne_zero : curve.Δ ≠ 0 := by
  have hΔ : curve.Δ = ((prime - 21168 : ℕ) : Residue) := by
    rw [Nat.cast_sub (by decide)]
    simp [WeierstrassCurve.Δ, WeierstrassCurve.b₂, WeierstrassCurve.b₄, WeierstrassCurve.b₆,
      WeierstrassCurve.b₈, curve]
    norm_num
  rw [hΔ, Ne, natCast_eq_zero_iff (by decide)]
  decide

lemma nonsingular_of_equation {x y : Residue} (h : y ^ 2 = x ^ 3 + 7) : curve.Nonsingular x y :=
  (Affine.equation_iff_nonsingular_of_Δ_ne_zero discriminant_ne_zero).mp
    (equation_iff.mpr h)

lemma eq_neg_self_iff {y : Residue} : y = -y ↔ y = 0 := by
  rw [eq_neg_iff_add_eq_zero, ← two_mul, mul_eq_zero, or_iff_right two_ne_zero]

/-- A point of the group in the form that the arithmetic takes. -/
def coordinates : curve.Point → Point
  | .zero => .infinity
  | .some x y _ => .affine x.val y.val

lemma coordinates_injective : Function.Injective coordinates := by
  rintro (_ | ⟨x, y, h⟩) (_ | ⟨x', y', h'⟩) heq
  · rfl
  · cases heq
  · cases heq
  · obtain ⟨hx, hy⟩ := Point.affine.inj heq
    obtain rfl := ZMod.val_injective prime hx
    obtain rfl := ZMod.val_injective prime hy
    rfl

namespace Jacobian

/-- The triple gives the coordinates by weight. -/
structure Gives (p : Jacobian) (x y : Residue) : Prop where
  y_lt : p.y < prime
  z_lt : p.z < prime
  z_ne : (p.z : Residue) ≠ 0
  x_eq : (p.x : Residue) = x * p.z ^ 2
  y_eq : (p.y : Residue) = y * p.z ^ 3

/-- What a triple stands for. -/
inductive Represents (p : Jacobian) : curve.Point → Prop
  | infinity (h : p.z = 0) : Represents p 0
  | finite {x y : Residue} {hxy : curve.Nonsingular x y} (h : p.Gives x y) :
      Represents p (.some x y hxy)

lemma Gives.z_ne_zero {p : Jacobian} {x y : Residue} (h : p.Gives x y) : p.z ≠ 0 :=
  fun hz => h.z_ne (by rw [hz, Nat.cast_zero])

lemma Gives.y_eq_zero_iff {p : Jacobian} {x y : Residue} (h : p.Gives x y) : p.y = 0 ↔ y = 0 := by
  rw [← natCast_eq_zero_iff h.y_lt, h.y_eq, mul_eq_zero, or_iff_left (pow_ne_zero 3 h.z_ne)]

lemma represents_infinity : infinity.Represents 0 := .infinity rfl

lemma represents_ofPoint (P : curve.Point) : (ofPoint (coordinates P)).Represents P := by
  cases P with
  | zero => exact represents_infinity
  | some x y h =>
    refine .finite ⟨y.val_lt, prime_prime.one_lt, ?_, ?_, ?_⟩ <;> simp [coordinates, ofPoint]

/-- A triple is brought back to the one point that it represents. -/
lemma toPoint_of_represents {p : Jacobian} {P : curve.Point} (h : p.Represents P) :
    p.toPoint = coordinates P := by
  cases h with
  | infinity hz => exact if_pos hz
  | @finite x y hxy hgives =>
    have hz := hgives.z_ne
    rw [toPoint, if_neg hgives.z_ne_zero, coordinates, Point.affine.injEq]
    refine ⟨eq_val_of_natCast_eq (mul_lt _ _) ?_, eq_val_of_natCast_eq (mul_lt _ _) ?_⟩
    · rw [natCast_mul, natCast_mul, Modular.natCast_inverse hz, hgives.x_eq]
      field_simp
    · rw [natCast_mul, natCast_mul, natCast_mul, Modular.natCast_inverse hz, hgives.y_eq]
      field_simp

/-! ### Doubling -/

section Doubling

variable {p : Jacobian} {x y : Residue} (h : p.Gives x y)
include h

lemma represents_double_of_zero (hy : y = 0) : p.double.Represents 0 := by
  rw [double, if_pos (Or.inr (h.y_eq_zero_iff.mpr hy))]
  exact represents_infinity

/-- The tangent, with the slope brought to the denominator. -/
lemma gives_double (hy : y ≠ 0) {ℓ : Residue} (hℓ : ℓ * (2 * y) = 3 * x ^ 2) :
    p.double.Gives (curve.addX x x ℓ) (curve.addY x x y ℓ) := by
  have hfinite : ¬(p.z = 0 ∨ p.y = 0) := by
    rw [not_or, h.y_eq_zero_iff]
    exact ⟨h.z_ne_zero, hy⟩
  rw [double, if_neg hfinite]
  refine ⟨sub_lt _ _, mul_lt _ _, ?_, ?_, ?_⟩
  · rw [natCast_mul, natCast_mul, h.y_eq, Nat.cast_ofNat]
    exact mul_ne_zero two_ne_zero (mul_ne_zero (mul_ne_zero hy (pow_ne_zero 3 h.z_ne)) h.z_ne)
  · simp only [natCast_sub, natCast_mul, Nat.cast_mul, Nat.cast_ofNat, h.x_eq, h.y_eq, addX_eq]
    linear_combination (-(p.z : Residue) ^ 8 * (ℓ * (2 * y) + 3 * x ^ 2)) * hℓ
  · simp only [natCast_sub, natCast_mul, Nat.cast_mul, Nat.cast_ofNat, h.x_eq, h.y_eq, addY_eq]
    linear_combination (p.z : Residue) ^ 12 * ((3 * x ^ 2) ^ 2 + 3 * x ^ 2 * (ℓ * (2 * y)) +
      (ℓ * (2 * y)) ^ 2 - 12 * x * y ^ 2) * hℓ

end Doubling

lemma slope_self {x y : Residue} (hy : y ≠ 0) : curve.slope x x y y * (2 * y) = 3 * x ^ 2 := by
  have hne : y ≠ curve.negY x y := by rwa [negY_eq, Ne, eq_neg_self_iff]
  have h2 : y - -y = 2 * y := by ring
  rw [Affine.slope_of_Y_ne rfl hne, negY_eq, h2,
    div_mul_cancel₀ _ (mul_ne_zero two_ne_zero hy)]
  simp [curve]

theorem represents_double {p : Jacobian} {P : curve.Point} (h : p.Represents P) :
    p.double.Represents (P + P) := by
  cases h with
  | infinity hz =>
    rw [double, if_pos (Or.inl hz), add_zero]
    exact represents_infinity
  | @finite x y hxy h =>
    by_cases hy : y = 0
    · rw [Affine.Point.add_self_of_Y_eq (by rw [negY_eq, eq_neg_self_iff, hy])]
      exact represents_double_of_zero h hy
    · have hne : y ≠ curve.negY x y := by rwa [negY_eq, Ne, eq_neg_self_iff]
      rw [Affine.Point.add_self_of_Y_ne hne]
      exact .finite (gives_double h hy (slope_self hy))

/-! ### Adding -/

/-- The differences of abscissas and of ordinates, brought to a common weight. -/
def run (p q : Jacobian) : ℕ := sub (mul q.x (mul p.z p.z)) (mul p.x (mul q.z q.z))

def rise (p q : Jacobian) : ℕ :=
  sub (mul q.y (mul (mul p.z p.z) p.z)) (mul p.y (mul (mul q.z q.z) q.z))

/-- The sum by the chord. -/
def chord (p q : Jacobian) : Jacobian :=
  let h2 := mul (run p q) (run p q)
  let h3 := mul h2 (run p q)
  let v := mul (mul p.x (mul q.z q.z)) h2
  let x := sub (sub (mul (rise p q) (rise p q)) h3) (2 * v)
  ⟨x, sub (mul (rise p q) (sub v x)) (mul (mul p.y (mul (mul q.z q.z) q.z)) h3),
    mul (run p q) (mul p.z q.z)⟩

lemma add_of_ne {p q : Jacobian} (hp : p.z ≠ 0) (hq : q.z ≠ 0) :
    add p q = if run p q = 0 then (if rise p q = 0 then double p else infinity) else chord p q := by
  rw [add, if_neg hp, if_neg hq]
  rfl

section Adding

variable {p q : Jacobian} {x y x' y' : Residue} (hp : p.Gives x y) (hq : q.Gives x' y')
include hp hq

/-- A difference is zero at any weight just if it is zero. -/
lemma weighted_eq_zero_iff {n k : ℕ} {a b : Residue} (hlt : n < prime)
    (h : (n : Residue) = (b - a) * (p.z * q.z) ^ k) : n = 0 ↔ a = b := by
  have hz : ((p.z : Residue) * q.z) ^ k ≠ 0 := pow_ne_zero k (mul_ne_zero hp.z_ne hq.z_ne)
  rw [← natCast_eq_zero_iff hlt, h, mul_eq_zero, or_iff_left hz, sub_eq_zero, eq_comm]

lemma natCast_run : (run p q : Residue) = (x' - x) * (p.z * q.z) ^ 2 := by
  simp only [run, natCast_sub, natCast_mul, hp.x_eq, hq.x_eq]
  ring

lemma natCast_rise : (rise p q : Residue) = (y' - y) * (p.z * q.z) ^ 3 := by
  simp only [rise, natCast_sub, natCast_mul, hp.y_eq, hq.y_eq]
  ring

lemma run_eq_zero_iff : run p q = 0 ↔ x = x' :=
  weighted_eq_zero_iff hp hq (sub_lt _ _) (natCast_run hp hq)

lemma rise_eq_zero_iff : rise p q = 0 ↔ y = y' :=
  weighted_eq_zero_iff hp hq (sub_lt _ _) (natCast_rise hp hq)

/-- The chord, with the slope brought to the denominator. -/
lemma gives_chord (hx : x ≠ x') {ℓ : Residue} (hℓ : ℓ * (x' - x) = y' - y) :
    (chord p q).Gives (curve.addX x x' ℓ) (curve.addY x x' y ℓ) := by
  have hz : ((chord p q).z : Residue) = (x' - x) * (p.z * q.z) ^ 3 := by
    rw [chord, natCast_mul, natCast_mul, natCast_run hp hq]
    ring
  have hrise : (rise p q : Residue) = ℓ * (chord p q).z := by
    rw [natCast_rise hp hq, hz, ← hℓ]
    ring
  refine ⟨sub_lt _ _, mul_lt _ _, ?_, ?_, ?_⟩
  · rw [hz]
    exact mul_ne_zero (sub_ne_zero.mpr hx.symm) (pow_ne_zero 3 (mul_ne_zero hp.z_ne hq.z_ne))
  · rw [hz] at hrise ⊢
    simp only [chord, natCast_sub, natCast_mul, Nat.cast_mul, Nat.cast_ofNat, hrise,
      natCast_run hp hq, hp.x_eq, addX_eq]
    ring
  · rw [hz] at hrise ⊢
    simp only [chord, natCast_sub, natCast_mul, Nat.cast_mul, Nat.cast_ofNat, hrise,
      natCast_run hp hq, hp.x_eq, hp.y_eq, addY_eq]
    ring

end Adding

lemma slope_chord {x x' y y' : Residue} (hx : x ≠ x') :
    curve.slope x x' y y' * (x' - x) = y' - y := by
  rw [Affine.slope_of_X_ne hx, ← neg_sub x x', ← neg_sub y y', mul_neg,
    div_mul_cancel₀ _ (sub_ne_zero.mpr hx)]

theorem represents_add {p q : Jacobian} {P Q : curve.Point} (hp : p.Represents P)
    (hq : q.Represents Q) : (add p q).Represents (P + Q) := by
  cases hp with
  | infinity hz =>
    rw [add, if_pos hz, zero_add]
    exact hq
  | @finite x y hxy h =>
    cases hq with
    | infinity hz =>
      rw [add, if_neg h.z_ne_zero, if_pos hz, add_zero]
      exact .finite h
    | @finite x' y' hxy' h' =>
      rw [add_of_ne h.z_ne_zero h'.z_ne_zero]
      by_cases hx : x = x'
      · rw [if_pos ((run_eq_zero_iff h h').mpr hx)]
        subst hx
        by_cases hy : y = y'
        · rw [if_pos ((rise_eq_zero_iff h h').mpr hy)]
          subst hy
          exact represents_double (.finite h)
        · -- Two points on one vertical line.
          have hneg : y = curve.negY x y' :=
            (Affine.Y_eq_of_X_eq hxy.1 hxy'.1 rfl).resolve_left hy
          rw [if_neg (mt (rise_eq_zero_iff h h').mp hy), Affine.Point.add_of_Y_eq rfl hneg]
          exact represents_infinity
      · rw [if_neg (mt (run_eq_zero_iff h h').mp hx), Affine.Point.add_of_X_ne hx]
        exact .finite (gives_chord h h' hx (slope_chord hx))

/-! ### Multiples -/

/-- The ladder over the bits from `i` on, down from the highest of `n` bits. -/
lemma represents_ladder {p : Jacobian} {P : curve.Point} (h : p.Represents P) (k : ℕ) {i n : ℕ}
    (hk : k < 2 ^ (i + n)) :
    ((List.range' i n).foldr
      (fun i acc => if k.testBit i then add (double acc) p else double acc) infinity).Represents
      ((k / 2 ^ i) • P) := by
  induction n generalizing i with
  | zero =>
    have hnone : k / 2 ^ i = 0 := Nat.div_eq_of_lt hk
    rw [List.range'_zero, List.foldr_nil, hnone, zero_nsmul]
    exact represents_infinity
  | succ n ih =>
    have hacc := represents_double (ih (i := i + 1) (by rwa [Nat.add_right_comm]))
    rw [← add_nsmul] at hacc
    have hhalf : k / 2 ^ (i + 1) = k / 2 ^ i / 2 := by rw [pow_succ, Nat.div_div_eq_div_mul]
    have hbit : k.testBit i = decide (k / 2 ^ i % 2 = 1) := Nat.testBit_eq_decide_div_mod_eq
    rw [List.range'_succ, List.foldr_cons]
    split_ifs with hset
    · have hodd : k / 2 ^ i % 2 = 1 := by simpa [hbit] using hset
      have hsucc : k / 2 ^ i = k / 2 ^ (i + 1) + k / 2 ^ (i + 1) + 1 := by omega
      rw [hsucc, succ_nsmul]
      exact represents_add hacc h
    · have heven : ¬k / 2 ^ i % 2 = 1 := by simpa [hbit] using hset
      have hsame : k / 2 ^ i = k / 2 ^ (i + 1) + k / 2 ^ (i + 1) := by omega
      rwa [hsame]

theorem represents_multiple {p : Jacobian} {P : curve.Point} (h : p.Represents P) {k : ℕ}
    (hk : k < 2 ^ 256) : (multiple k p).Represents (k • P) := by
  have hladder := represents_ladder h k (i := 0) (n := 256) (by simpa using hk)
  rwa [pow_zero, Nat.div_one, ← List.range_eq_range'] at hladder

end Jacobian

/-- Points are added as in the group. -/
theorem add_coordinates (P Q : curve.Point) :
    add (coordinates P) (coordinates Q) = coordinates (P + Q) :=
  Jacobian.toPoint_of_represents
    (Jacobian.represents_add (Jacobian.represents_ofPoint P) (Jacobian.represents_ofPoint Q))

/-! ### The base point -/

lemma equation_of_onCurve {x y : ℕ} (h : onCurve x y = true) :
    (y : Residue) ^ 2 = (x : Residue) ^ 3 + 7 := by
  simp only [onCurve, Bool.and_eq_true, decide_eq_true_eq, beq_iff_eq] at h
  have hcast := congrArg (Nat.cast (R := Residue)) h.2
  rw [natCast_mul, cubic, ZMod.natCast_mod] at hcast
  push_cast at hcast
  linear_combination hcast

lemma exists_coordinates_eq {x y : ℕ} (h : onCurve x y = true) :
    ∃ P, coordinates P = .affine x y := by
  refine ⟨.some x y (nonsingular_of_equation (equation_of_onCurve h)), ?_⟩
  simp only [onCurve, Bool.and_eq_true, decide_eq_true_eq] at h
  rw [coordinates, ZMod.val_natCast_of_lt h.1.1, ZMod.val_natCast_of_lt h.1.2]

lemma exists_coordinates_eq_base : ∃ P, coordinates P = base := exists_coordinates_eq (by decide)

noncomputable def generator : curve.Point := exists_coordinates_eq_base.choose

@[simp] lemma coordinates_generator : coordinates generator = base :=
  exists_coordinates_eq_base.choose_spec

lemma generator_ne_zero : generator ≠ 0 := by
  intro h
  have hbase := coordinates_generator
  rw [h] at hbase
  cases hbase

lemma represents_base : (Jacobian.ofPoint base).Represents generator := by
  rw [← coordinates_generator]
  exact Jacobian.represents_ofPoint generator

lemma order_lt : order < 2 ^ 256 := by decide

/-- The ladder over the bits of the order comes back to infinity. -/
lemma order_nsmul_generator : order • generator = 0 := by
  have hladder := Jacobian.represents_multiple represents_base order_lt
  have hz : (Jacobian.multiple order (.ofPoint base)).z = 0 := by decide +kernel
  generalize order • generator = P at hladder ⊢
  cases hladder with
  | infinity _ => rfl
  | finite h => exact absurd hz h.z_ne_zero

theorem addOrderOf_generator : addOrderOf generator = order :=
  addOrderOf_eq_prime order_nsmul_generator generator_ne_zero

/-- A multiple is one in the group, of the number modulo the order. -/
theorem multiple_coordinates (k : ℕ) (P : curve.Point) :
    multiple k (coordinates P) = coordinates ((k % order) • P) :=
  Jacobian.toPoint_of_represents (Jacobian.represents_multiple (Jacobian.represents_ofPoint P)
    (lt_trans (Nat.mod_lt k order_prime.pos) order_lt))

theorem mulBase_eq (k : ℕ) : mulBase k = coordinates (k • generator) := by
  rw [mulBase, ← coordinates_generator, multiple_coordinates, ← addOrderOf_generator,
    mod_addOrderOf_nsmul]

theorem mulBase_eq_iff (j k : ℕ) : mulBase j = mulBase k ↔ j ≡ k [MOD order] := by
  rw [mulBase_eq, mulBase_eq, coordinates_injective.eq_iff, nsmul_eq_nsmul_iff_modEq,
    addOrderOf_generator]

theorem add_mulBase (j k : ℕ) : add (mulBase j) (mulBase k) = mulBase (j + k) := by
  rw [mulBase_eq, mulBase_eq, mulBase_eq, add_coordinates, add_nsmul]

end WatchWallet.Crypto.Secp256k1
