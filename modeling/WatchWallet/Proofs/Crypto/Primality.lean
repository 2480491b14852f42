import Mathlib.NumberTheory.LucasPrimality
import Mathlib.Tactic.NormNum.Prime
import WatchWallet.Crypto.Secp256k1

/-!
The field and the group of the curve have prime size.

A number is prime if some residue has order one less modulo it. A certificate gives the residue and
the prime factors of one less, which are smaller primes with certificates of their own; checking it
takes a few powers modulo the number.
-/

namespace WatchWallet.Crypto.Primality

/-- `base ^ e % m` for `e` below `2 ^ bits`: recursion on the bits, for evaluation in proofs. -/
def power (m base : ℕ) : (bits e : ℕ) → ℕ
  | 0, _ => 1 % m
  | bits + 1, e =>
    let half := power m base bits (e / 2)
    if e % 2 = 1 then half * half % m * base % m else half * half % m

lemma power_eq (m base : ℕ) {bits e : ℕ} (h : e < 2 ^ bits) :
    power m base bits e = base ^ e % m := by
  induction bits generalizing e with
  | zero =>
    obtain rfl : e = 0 := by simpa using h
    rw [power, pow_zero]
  | succ bits ih =>
    have hhalf : e / 2 < 2 ^ bits := by
      rw [pow_succ] at h
      omega
    rw [power, ih hhalf, ← Nat.mul_mod, ← pow_add]
    split_ifs with hodd
    · rw [Nat.mod_mul_mod, ← pow_succ]
      congr 2
      omega
    · congr 2
      omega

/-- A number, a residue that has order one less modulo it, and the prime factors of one less. -/
structure Certificate where
  number : ℕ
  root : ℕ
  factors : List ℕ

namespace Certificate

def residue (c : Certificate) (e : ℕ) : ℕ := power c.number c.root 256 e

def check (known : List ℕ) (c : Certificate) : Bool :=
  2 ≤ c.number && c.number ≤ 2 ^ 256 && c.factors.prod == c.number - 1 &&
    c.factors.all (known.contains ·) && c.residue (c.number - 1) == 1 &&
    c.factors.all fun q => c.residue ((c.number - 1) / q) != 1

lemma residue_eq_one_iff {c : Certificate} (hnumber : 2 ≤ c.number) {e : ℕ} (he : e < 2 ^ 256) :
    c.residue e = 1 ↔ (c.root : ZMod c.number) ^ e = 1 := by
  rw [residue, power_eq _ _ he, ← Nat.cast_pow, ← Nat.cast_one (R := ZMod c.number),
    ZMod.natCast_eq_natCast_iff', Nat.one_mod_eq_one.mpr (by omega)]

theorem prime_of_check {known : List ℕ} (hknown : ∀ q ∈ known, q.Prime) {c : Certificate}
    (h : c.check known = true) : c.number.Prime := by
  simp only [check, Bool.and_eq_true, decide_eq_true_eq, beq_iff_eq, List.all_eq_true,
    List.contains_iff_mem, bne_iff_ne] at h
  obtain ⟨⟨⟨⟨⟨hnumber, hsize⟩, hprod⟩, hprimes⟩, hone⟩, hother⟩ := h
  refine lucas_primality c.number c.root ?_ fun q hq hdvd => ?_
  · exact (residue_eq_one_iff hnumber (by omega)).mp hone
  · rw [← hprod, hq.prime.dvd_prod_iff] at hdvd
    obtain ⟨q', hq', hdvd'⟩ := hdvd
    obtain rfl := (Nat.prime_dvd_prime_iff_eq hq (hknown q' (hprimes q' hq'))).mp hdvd'
    have hlt : (c.number - 1) / q < 2 ^ 256 :=
      lt_of_le_of_lt (Nat.div_le_self _ _) (by omega)
    exact fun hpow => hother q hq' ((residue_eq_one_iff hnumber hlt).mpr hpow)

/-- Certificates in a row, each of which may use the numbers of those before it. -/
def checkAll : (known : List ℕ) → List Certificate → Bool
  | _, [] => true
  | known, c :: cs => c.check known && checkAll (c.number :: known) cs

theorem prime_of_checkAll {known : List ℕ} (hknown : ∀ q ∈ known, q.Prime)
    {cs : List Certificate} (h : checkAll known cs = true) : ∀ c ∈ cs, c.number.Prime := by
  induction cs generalizing known with
  | nil => simp
  | cons c cs ih =>
    obtain ⟨hhead, htail⟩ := Bool.and_eq_true_iff.mp h
    have hc := prime_of_check hknown hhead
    have hrest := ih (List.forall_mem_cons.mpr ⟨hc, hknown⟩) htail
    exact List.forall_mem_cons.mpr ⟨hc, hrest⟩

end Certificate

def smallPrimes : List ℕ :=
  [2, 3, 5, 7, 11, 17, 29, 31, 41, 53, 59, 97, 109, 149, 293, 461, 631, 797, 971, 1373, 1627, 1871,
   2011, 2621, 2657, 4051, 4423, 5323, 7723, 9349, 13441, 16699, 20113, 24809, 28181, 41201,
   85831, 96557, 120233, 305873]

lemma prime_of_mem_smallPrimes : ∀ q ∈ smallPrimes, q.Prime := by
  simp only [smallPrimes, List.forall_mem_cons]
  norm_num

open Secp256k1 in
def certificates : List Certificate := [
    ⟨1206781, 10, [2, 2, 3, 5, 20113]⟩,
    ⟨1627771, 3, [2, 3, 5, 29, 1871]⟩,
    ⟨4681609, 23, [2, 2, 2, 3, 97, 2011]⟩,
    ⟨7240687, 3, [2, 3, 1206781]⟩,
    ⟨13331831, 13, [2, 5, 971, 1373]⟩,
    ⟨44706919, 6, [2, 3, 797, 9349]⟩,
    ⟨107590001, 3, [2, 2, 2, 2, 5, 5, 5, 5, 7, 29, 53]⟩,
    ⟨545358713, 5, [2, 2, 2, 41, 59, 28181]⟩,
    ⟨297159362677, 2, [2, 2, 3, 3, 11, 461, 1627771]⟩,
    ⟨107361793816595537, 3, [2, 2, 2, 2, 16699, 85831, 4681609]⟩,
    ⟨173378833005251801, 6, [2, 2, 2, 5, 5, 2621, 24809, 13331831]⟩,
    ⟨174723607534414371449, 3, [2, 2, 2, 17, 59, 4051, 120233, 44706919]⟩,
    ⟨22149492674086928081353, 5, [2, 2, 2, 3, 5323, 173378833005251801]⟩,
    ⟨132896956044521568488119, 6, [2, 3, 22149492674086928081353]⟩,
    ⟨29047611873442575647497758179, 2, [2, 293, 305873, 545358713, 297159362677]⟩,
    ⟨341948486974166000522343609283189, 2, [2, 2, 3, 3, 3, 109, 29047611873442575647497758179]⟩,
    ⟨255515944373312847190720520512484175977, 3, [2, 2, 2, 7, 7, 11, 1627, 2657, 4423, 41201,
      96557, 7240687, 107590001]⟩,
    ⟨205115282021455665897114700593932402728804164701536103180137503955397371, 10, [2, 3, 5, 29,
      29, 31, 7723, 132896956044521568488119, 255515944373312847190720520512484175977]⟩,
    ⟨order, 7, [2, 2, 2, 2, 2, 2, 3, 149, 631, 107361793816595537, 174723607534414371449,
      341948486974166000522343609283189]⟩,
    ⟨prime, 3, [2, 3, 7, 13441,
      205115282021455665897114700593932402728804164701536103180137503955397371]⟩]

lemma prime_of_mem_certificates {p : ℕ} (h : p ∈ certificates.map Certificate.number) :
    p.Prime := by
  obtain ⟨c, hc, rfl⟩ := List.mem_map.mp h
  exact Certificate.prime_of_checkAll prime_of_mem_smallPrimes (by decide +kernel) c hc

end WatchWallet.Crypto.Primality

namespace WatchWallet.Crypto.Secp256k1

theorem prime_prime : prime.Prime :=
  Primality.prime_of_mem_certificates (by simp [Primality.certificates])

theorem order_prime : order.Prime :=
  Primality.prime_of_mem_certificates (by simp [Primality.certificates])

instance : Fact prime.Prime := ⟨prime_prime⟩

instance : Fact order.Prime := ⟨order_prime⟩

end WatchWallet.Crypto.Secp256k1
