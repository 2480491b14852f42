import Mathlib.Data.Bool.AllAny
import WatchWallet.Proofs.Bytes
import WatchWallet.Proofs.Text.Lanes
import WatchWallet.Text.Bech32

/-!
The Bech32 checksum: six symbols end a text with a checksum of one, and no other six do.

A step of the checksum is linear in exclusive or. From a zero state six symbols only move up,
so they come out as a number in base 32; and a state is reached from any other by adding the
number of the symbols that make the difference.
-/

namespace WatchWallet.Bech32

open WatchWallet.Radix (value)

/-- What one bit that moved out adds to the state. -/
def reduce (top mask generator : UInt32) : UInt32 := if top &&& mask = 0 then 0 else generator

lemma polymodStep_eq (s v : UInt32) :
    polymodStep s v =
      ((s &&& 0x1ffffff) <<< 5) ^^^ v ^^^ reduce (s >>> 25) 1 0x3b6a57b2 ^^^
        reduce (s >>> 25) 2 0x26508e6d ^^^ reduce (s >>> 25) 4 0x1ea119fa ^^^
        reduce (s >>> 25) 8 0x3d4233dd ^^^ reduce (s >>> 25) 16 0x2a1462b3 := rfl

lemma reduce_eq {mask : UInt32} {i : ℕ} (hm : mask.toNat = 2 ^ i) (top generator : UInt32) :
    reduce top mask generator = if top.toNat.testBit i then generator else 0 := by
  have h : top &&& mask = 0 ↔ top.toNat.testBit i = false := by
    rw [← UInt32.toNat_inj, UInt32.toNat_and, hm, Nat.and_two_pow]
    cases top.toNat.testBit i <;> simp
  rw [reduce]
  cases hb : top.toNat.testBit i <;> simp [h, hb]

lemma reduce_xor {mask : UInt32} {i : ℕ} (hm : mask.toNat = 2 ^ i) (a b generator : UInt32) :
    reduce (a ^^^ b) mask generator = reduce a mask generator ^^^ reduce b mask generator := by
  rw [reduce_eq hm, reduce_eq hm, reduce_eq hm, UInt32.toNat_xor, Nat.testBit_xor]
  cases a.toNat.testBit i <;> cases b.toNat.testBit i <;> simp

lemma reduce_lt {n : ℕ} {generator : UInt32} (h : generator.toNat < 2 ^ n) (top mask : UInt32) :
    (reduce top mask generator).toNat < 2 ^ n := by
  rw [reduce]
  split
  · simp
  · exact h

/-- A step is linear. -/
lemma polymodStep_xor (s t v w : UInt32) :
    polymodStep (s ^^^ t) (v ^^^ w) = polymodStep s v ^^^ polymodStep t w := by
  have hand : (s ^^^ t) &&& 0x1ffffff = (s &&& 0x1ffffff) ^^^ (t &&& 0x1ffffff) := by
    rw [← UInt32.toNat_inj]
    simp only [UInt32.toNat_and, UInt32.toNat_xor]
    exact Nat.and_xor_distrib_right
  have h1 : (1 : UInt32).toNat = 2 ^ 0 := rfl
  have h2 : (2 : UInt32).toNat = 2 ^ 1 := rfl
  have h4 : (4 : UInt32).toNat = 2 ^ 2 := rfl
  have h8 : (8 : UInt32).toNat = 2 ^ 3 := rfl
  have h16 : (16 : UInt32).toNat = 2 ^ 4 := rfl
  simp only [polymodStep_eq, hand, UInt32.shiftLeft_xor, UInt32.shiftRight_xor, reduce_xor h1,
    reduce_xor h2, reduce_xor h4, reduce_xor h8, reduce_xor h16]
  ac_rfl

lemma toNat_low (s : UInt32) :
    ((s &&& 0x1ffffff) <<< 5).toNat = s.toNat % 2 ^ 25 * 2 ^ 5 := by
  have hand : (s &&& 0x1ffffff).toNat = s.toNat % 2 ^ 25 :=
    (UInt32.toNat_and ..).trans (Nat.and_two_pow_sub_one_eq_mod s.toNat 25)
  rw [UInt32.toNat_shiftLeft, hand, Nat.shiftLeft_eq]
  exact Nat.mod_eq_of_lt (by simp; omega)

lemma polymodStep_lt (s : UInt32) {v : UInt32} (hv : v.toNat < 2 ^ 30) :
    (polymodStep s v).toNat < 2 ^ 30 := by
  have hlow : ((s &&& 0x1ffffff) <<< 5).toNat < 2 ^ 30 := by rw [toNat_low]; omega
  simp only [polymodStep_eq, UInt32.toNat_xor]
  refine Nat.xor_lt_two_pow (Nat.xor_lt_two_pow (Nat.xor_lt_two_pow (Nat.xor_lt_two_pow
    (Nat.xor_lt_two_pow (Nat.xor_lt_two_pow hlow hv) ?_) ?_) ?_) ?_) ?_
  all_goals exact reduce_lt (by decide) _ _

/-- A state with room for five bits only moves up. -/
lemma toNat_polymodStep_of_lt {s v : UInt32} (hs : s.toNat < 2 ^ 25) (hv : v.toNat < 32) :
    (polymodStep s v).toNat = v.toNat + 32 * s.toNat := by
  have htop : s >>> 25 = 0 := by
    rw [← UInt32.toNat_inj, UInt32.toNat_shiftRight]
    exact (Nat.shiftRight_eq_div_pow _ _).trans (Nat.div_eq_of_lt hs)
  have hzero : ∀ mask generator, reduce 0 mask generator = 0 := by
    intro mask generator
    simp [reduce]
  rw [polymodStep_eq, htop]
  simp only [hzero, UInt32.xor_zero, UInt32.toNat_xor, toNat_low]
  rw [Nat.mod_eq_of_lt hs]
  exact xor_low (k := 5) hv

/-! ### Whole texts -/

/-- The checksum state after more values. -/
def polymodFrom (s : UInt32) (vs : Bytes) : UInt32 :=
  vs.foldl (fun s v => polymodStep s v.toUInt32) s

@[simp] lemma polymodFrom_nil (s : UInt32) : polymodFrom s [] = s := rfl
@[simp] lemma polymodFrom_cons (s : UInt32) (v : UInt8) (vs : Bytes) :
    polymodFrom s (v :: vs) = polymodFrom (polymodStep s v.toUInt32) vs := rfl
lemma polymodFrom_append (s : UInt32) (us vs : Bytes) :
    polymodFrom s (us ++ vs) = polymodFrom (polymodFrom s us) vs := by
  simp [polymodFrom]

lemma polymod_append (us vs : Bytes) : polymod (us ++ vs) = polymodFrom (polymod us) vs :=
  polymodFrom_append 1 us vs

lemma polymodFrom_lt {s : UInt32} (hs : s.toNat < 2 ^ 30) (vs : Bytes) :
    (polymodFrom s vs).toNat < 2 ^ 30 := by
  induction vs generalizing s with
  | nil => exact hs
  | cons v vs ih =>
    refine ih (polymodStep_lt s ?_)
    have : v.toUInt32.toNat = v.toNat := UInt8.toNat_toUInt32 v
    have := v.toNat_lt
    omega

/-- States and values may be added up before or after. -/
theorem polymodFrom_xor (s t : UInt32) {us vs : Bytes} (h : us.length = vs.length) :
    polymodFrom (s ^^^ t) (List.zipWith (· ^^^ ·) us vs) =
      polymodFrom s us ^^^ polymodFrom t vs := by
  induction us generalizing s t vs with
  | nil =>
    obtain rfl := List.length_eq_zero_iff.mp h.symm
    rfl
  | cons u us ih =>
    cases vs with
    | nil => simp at h
    | cons v vs =>
      rw [List.zipWith_cons_cons, polymodFrom_cons, UInt8.toUInt32_xor, polymodStep_xor,
        ih _ _ (by simpa using h)]
      rfl

lemma zipWith_zeros (vs : Bytes) : List.zipWith (· ^^^ ·) (Bytes.zeros vs.length) vs = vs := by
  induction vs with
  | nil => rfl
  | cons v vs ih => simpa [Bytes.zeros, List.replicate_succ] using ih

/-- What values add to the state, by position: the state moves on as if they were zeros. -/
lemma polymodFrom_eq_xor (s : UInt32) (vs : Bytes) :
    polymodFrom s vs = polymodFrom s (Bytes.zeros vs.length) ^^^ polymodFrom 0 vs := by
  have h := polymodFrom_xor s 0 (Bytes.length_zeros vs.length)
  rwa [UInt32.xor_zero, zipWith_zeros] at h

lemma digits_lt {vs : Bytes} (hv : ∀ v ∈ vs, v < 32) : ∀ d ∈ (Bytes.digits vs).reverse, d < 32 := by
  intro d hd
  obtain ⟨v, hmem, rfl⟩ := List.mem_map.mp (List.mem_reverse.mp hd)
  exact hv v hmem

/-- From zero, up to six symbols come out as a number in base 32. -/
lemma toNat_polymodFrom_zero {vs : Bytes} (hv : ∀ v ∈ vs, v < 32) (hlen : vs.length ≤ 6) :
    (polymodFrom 0 vs).toNat = value 32 (Bytes.digits vs).reverse := by
  induction vs using List.reverseRecOn with
  | nil => rfl
  | append_singleton vs v ih =>
    rw [List.length_append, List.length_singleton] at hlen
    have hvs : ∀ w ∈ vs, w < 32 := fun w hw => hv w (by simp [hw])
    have hlt : v.toUInt32.toNat < 32 := by
      rw [UInt8.toNat_toUInt32]
      exact hv v (by simp)
    have ih := ih hvs (by omega)
    have hsmall : value 32 (Bytes.digits vs).reverse < 2 ^ 25 := by
      have hval := Radix.value_lt (by omega) (digits_lt hvs)
      have hpow : 32 ^ (Bytes.digits vs).reverse.length ≤ 32 ^ 5 :=
        Nat.pow_le_pow_right (by omega) (by simp [Bytes.digits]; omega)
      omega
    rw [polymodFrom_append, polymodFrom_cons, polymodFrom_nil,
      toNat_polymodStep_of_lt (by rw [ih]; exact hsmall) hlt, ih]
    simp [Bytes.digits]

/-! ### The six symbols -/

/-- The six symbols that write a state. -/
def checkSymbols (m : UInt32) : Bytes :=
  [25, 20, 15, 10, 5, 0].map fun (shift : UInt32) => ((m >>> shift) &&& 31).toUInt8

lemma checksum_eq (hrp values : Bytes) :
    checksum hrp values =
      checkSymbols (polymod (expandHrp hrp ++ values ++ Bytes.zeros 6) ^^^ 1) := rfl

@[simp] lemma length_checkSymbols (m : UInt32) : (checkSymbols m).length = 6 := rfl

lemma toNat_checkSymbol (m : UInt32) {shift : UInt32} (h : shift < 32) :
    ((m >>> shift) &&& 31).toUInt8.toNat = m.toNat / 2 ^ shift.toNat % 32 := by
  have hand : ((m >>> shift) &&& 31).toNat = (m >>> shift).toNat % 2 ^ 5 :=
    (UInt32.toNat_and ..).trans (Nat.and_two_pow_sub_one_eq_mod _ 5)
  have hs : shift.toNat < 32 := h
  rw [UInt32.toNat_toUInt8, hand, UInt32.toNat_shiftRight, Nat.mod_eq_of_lt hs,
    Nat.shiftRight_eq_div_pow]
  omega

lemma digits_checkSymbols (m : UInt32) :
    Bytes.digits (checkSymbols m) = [25, 20, 15, 10, 5, 0].map fun k => m.toNat / 2 ^ k % 32 := by
  have hlt : ∀ shift ∈ [25, 20, 15, 10, 5, 0], shift < (32 : UInt32) :=
    List.all_iff_forall_prop.mp (by decide)
  rw [Bytes.digits, checkSymbols, List.map_map]
  exact List.map_congr_left fun shift h => toNat_checkSymbol m (hlt shift h)

lemma lt_of_mem_checkSymbols {m : UInt32} {v : UInt8} (h : v ∈ checkSymbols m) : v < 32 := by
  have hd : v.toNat ∈ Bytes.digits (checkSymbols m) := List.mem_map_of_mem h
  rw [digits_checkSymbols] at hd
  obtain ⟨k, -, hk⟩ := List.mem_map.mp hd
  rw [UInt8.lt_iff_toNat_lt, ← hk]
  exact Nat.mod_lt _ (by decide)

lemma value_checkSymbols {m : UInt32} (hm : m.toNat < 2 ^ 30) :
    value 32 (Bytes.digits (checkSymbols m)).reverse = m.toNat := by
  rw [digits_checkSymbols]
  simp only [List.map_cons, List.map_nil, List.reverse_cons, List.reverse_nil, List.nil_append,
    List.cons_append, Radix.value_cons, Radix.value_nil]
  omega

/-- Six symbols add just the state that they write. -/
lemma polymodFrom_zero_eq_iff {vs : Bytes} (hv : ∀ v ∈ vs, v < 32) (hlen : vs.length = 6)
    {m : UInt32} (hm : m.toNat < 2 ^ 30) : polymodFrom 0 vs = m ↔ vs = checkSymbols m := by
  have hval := toNat_polymodFrom_zero hv hlen.le
  constructor
  · rintro rfl
    have heq := value_checkSymbols hm
    rw [hval, Radix.value_eq_ofDigits, Radix.value_eq_ofDigits] at heq
    have hrev := Nat.ofDigits_inj_of_len_eq (by omega) (by simp [Bytes.digits, hlen])
      (digits_lt fun _ => lt_of_mem_checkSymbols) (digits_lt hv) heq
    have hd := List.reverse_injective hrev
    simpa using congrArg (List.map UInt8.ofNat) hd.symm
  · rintro rfl
    rw [← UInt32.toNat_inj, hval, value_checkSymbols hm]

lemma xor_eq_iff {a b m : UInt32} : a ^^^ b = m ↔ b = a ^^^ m := by
  constructor <;> rintro rfl <;> rw [← UInt32.xor_assoc, UInt32.xor_self, UInt32.zero_xor]

/-- **The checksum law**: values followed by six symbols check exactly if these are the
checksum of the values. -/
theorem checks_append_iff (hrp values : Bytes) {vs : Bytes} (hv : ∀ v ∈ vs, v < 32)
    (hlen : vs.length = 6) : checks hrp (values ++ vs) = true ↔ vs = checksum hrp values := by
  have hlt : (polymod (expandHrp hrp ++ values ++ Bytes.zeros 6) ^^^ 1).toNat < 2 ^ 30 := by
    rw [UInt32.toNat_xor]
    exact Nat.xor_lt_two_pow (polymodFrom_lt (by decide) _) (by decide)
  rw [checks, decide_eq_true_iff, ← List.append_assoc, polymod_append, polymodFrom_eq_xor, hlen,
    ← polymod_append, xor_eq_iff, polymodFrom_zero_eq_iff hv hlen hlt, checksum_eq]

end WatchWallet.Bech32
