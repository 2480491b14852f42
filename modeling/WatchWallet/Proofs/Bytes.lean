import WatchWallet.Bytes
import WatchWallet.Proofs.Radix

/-!
Byte strings as numbers in base 256 behind their leading zeros, and as texts.
-/

namespace WatchWallet.Bytes

/-- The bytes of a byte string, as digits. -/
def digits (bs : Bytes) : List ℕ := bs.map UInt8.toNat

lemma lt_of_mem_digits {bs : Bytes} {n : ℕ} (h : n ∈ digits bs) : n < 256 := by
  obtain ⟨b, -, rfl⟩ := List.mem_map.mp h
  exact b.toNat_lt

@[simp] lemma map_ofNat_digits (bs : Bytes) : (digits bs).map UInt8.ofNat = bs := by
  simp [digits, Function.comp_def]

lemma digits_map_ofNat {ns : List ℕ} (h : ∀ n ∈ ns, n < 256) :
    digits (ns.map UInt8.ofNat) = ns := by
  rw [digits, List.map_map, List.map_congr_left (g := id), List.map_id]
  intro n hn
  rw [Function.comp_apply, UInt8.toNat_ofNat', Nat.mod_eq_of_lt (h n hn), id]

lemma toNat_eq_value (bs : Bytes) : toNat bs = Radix.value 256 (digits bs).reverse := by
  rw [toNat, digits, List.map_reverse]

lemma toNat_lt (bs : Bytes) : toNat bs < 256 ^ bs.length := by
  have hlt : ∀ d ∈ (digits bs).reverse, d < 256 :=
    fun d hd => lt_of_mem_digits (List.mem_reverse.mp hd)
  have h := Radix.value_lt (by omega) hlt
  rwa [← toNat_eq_value, List.length_reverse, digits, List.length_map] at h

lemma toNat_cons (b : UInt8) (bs : Bytes) :
    toNat (b :: bs) = b.toNat * 256 ^ bs.length + toNat bs := by
  rw [toNat_eq_value, toNat_eq_value, digits, List.map_cons, List.reverse_cons,
    Radix.value_eq_ofDigits, Nat.ofDigits_append, Nat.ofDigits_singleton,
    ← Radix.value_eq_ofDigits]
  simp [digits, Nat.add_comm, Nat.mul_comm]

lemma toNat_ofNatFixed (len n : ℕ) : toNat (ofNatFixed len n) = n % 256 ^ len := by
  induction len generalizing n with
  | zero => rw [ofNatFixed, toNat_nil, pow_zero, Nat.mod_one]
  | succ len ih =>
    rw [ofNatFixed, toNat_append_singleton, ih, UInt8.toNat_ofNat', pow_succ' 256 len,
      Nat.mod_mul, Nat.add_comm]

@[simp] lemma toNat_ofNat (n : ℕ) : toNat (ofNat n) = n := by
  have hread : digits (ofNat n) = (Radix.digits 256 n).reverse := by
    refine digits_map_ofNat fun d hd => ?_
    exact Radix.lt_of_mem_digits (by omega) (List.mem_reverse.mp hd)
  rw [toNat_eq_value, hread, List.reverse_reverse, Radix.value_digits (by omega)]

lemma length_ofNat_le {len n : ℕ} (h : n < 256 ^ len) : (ofNat n).length ≤ len := by
  rw [ofNat, List.length_map, List.length_reverse, Radix.digits_eq_digits (by omega)]
  exact (Nat.digits_length_le_iff (by omega) n).mpr h

/-- How many zero bytes a byte string starts with. -/
lemma length_takeWhile_zero (bs : Bytes) :
    (bs.takeWhile (· = 0)).length = Radix.leading (digits bs) := by
  induction bs with
  | nil => rfl
  | cons b bs ih =>
    by_cases hb : b = 0
    · subst hb
      simpa [digits] using ih
    · have hn : b.toNat ≠ 0 := fun h => hb (UInt8.toNat_inj.mp h)
      rw [digits, List.map_cons, Radix.leading_cons_of_ne hn]
      simp [hb]

lemma zeros_append_ofNat (z n : ℕ) :
    zeros z ++ ofNat n = (Radix.written 256 z n).map UInt8.ofNat := by
  simp [zeros, ofNat, Radix.written]

lemma digits_zeros_append_ofNat (z n : ℕ) :
    digits (zeros z ++ ofNat n) = Radix.written 256 z n := by
  rw [zeros_append_ofNat]
  exact digits_map_ofNat fun m hm => Radix.lt_of_mem_written (by omega) hm

/-- A byte string is its leading zeros and the shortest bytes of its number. -/
lemma zeros_append_ofNat_toNat (bs : Bytes) :
    zeros (Radix.leading (digits bs)) ++ ofNat (toNat bs) = bs := by
  rw [zeros_append_ofNat, toNat_eq_value,
    Radix.written_leading_value (by omega) fun _ => lt_of_mem_digits, map_ofNat_digits]

end WatchWallet.Bytes

namespace WatchWallet

/-! ### Texts in UTF-8 -/

/-- A text of characters of one byte each. -/
lemma utf8ByteSize_ofList {cs : List Char} (h : ∀ c ∈ cs, c.utf8Size = 1) :
    (String.ofList cs).utf8ByteSize = cs.length := by
  induction cs with
  | nil => rfl
  | cons c cs ih =>
    rw [← List.singleton_append, String.ofList_append, String.utf8ByteSize_append,
      ih fun d hd => h d (by simp [hd]), ← String.singleton_eq_ofList,
      String.utf8ByteSize_singleton, h c (by simp), List.length_append, List.length_singleton]

lemma length_utf8 (cs : List Char) : (utf8 cs).length = (String.ofList cs).utf8ByteSize := by
  rw [← String.size_toByteArray, String.toByteArray_ofList, List.utf8Encode,
    List.size_toByteArray]
  rfl

lemma utf8EncodeChar_of_le {c : Char} (h : c.toNat ≤ 127) :
    String.utf8EncodeChar c = [UInt8.ofNat c.toNat] := by
  have hc : c.val.toNat = c.toNat := rfl
  rw [String.utf8EncodeChar, hc, if_pos h]

/-- A character that has more than one byte has one that continues it. -/
lemma exists_continuation {c : Char} (h : 127 < c.toNat) :
    ∃ b ∈ String.utf8EncodeChar c, 128 ≤ b.toNat := by
  have hc : c.val.toNat = c.toNat := rfl
  have hhigh : 128 ≤ (UInt8.ofNat (c.toNat % 64 + 128)).toNat := by
    rw [UInt8.toNat_ofNat']
    omega
  refine ⟨_, ?_, hhigh⟩
  unfold String.utf8EncodeChar
  simp only [hc]
  split_ifs <;> simp only [List.mem_cons, true_or, or_true]
  omega

lemma toLower_eq_ofList (t : String) :
    t.toLower = String.ofList (t.toList.map Char.toLower) := by
  change t.map Char.toLower = _
  rw [← String.toList_map, String.ofList_toList]

end WatchWallet
