import WatchWallet.Proofs.Bytes
import WatchWallet.Proofs.Text.Alphabet

/-!
Base58 text and byte strings determine each other, and checked text its payload.

Text and bytes write one pair, a count of leading zeros and a number, in two bases. Of a text
whose number is known to lie in a range, the first character can be told.
-/

namespace WatchWallet.Base58

open WatchWallet.Radix (leading written)

lemma encodeChars_eq_map (bs : Bytes) :
    encodeChars bs = (written 58 (leading (Bytes.digits bs)) (Bytes.toNat bs)).map symbol := by
  rw [encodeChars, Bytes.length_takeWhile_zero, written, List.map_append, List.map_replicate]
  rfl

lemma length_takeWhile_one {ds : List ℕ} (h : ∀ d ∈ ds, d < 58) :
    ((ds.map symbol).takeWhile (· = '1')).length = leading ds := by
  induction ds with
  | nil => rfl
  | cons d ds ih =>
    have hd := symbol_eq_one_iff (h d (by simp))
    have ih := ih fun e he => h e (by simp [he])
    by_cases h0 : d = 0
    · subst h0
      simpa [hd.mpr rfl] using ih
    · have hs : symbol d ≠ '1' := fun hs => h0 (hd.mp hs)
      rw [Radix.leading_cons_of_ne h0]
      simp [hs]

/-- Reading the text of digits gives the bytes of their number behind their leading zeros. -/
lemma decodeChars_map_symbol {ds : List ℕ} (h : ∀ d ∈ ds, d < 58) :
    decodeChars (ds.map symbol) =
      some (Bytes.zeros (leading ds) ++ Bytes.ofNat (Radix.value 58 ds.reverse)) := by
  rw [decodeChars, Alphabet.mapM_map fun d hd => symbolValue?_symbol (h d hd),
    length_takeWhile_one h]
  rfl

theorem decodeChars_encodeChars (bs : Bytes) : decodeChars (encodeChars bs) = some bs := by
  rw [encodeChars_eq_map, decodeChars_map_symbol fun d hd => Radix.lt_of_mem_written (by omega) hd,
    Radix.leading_written (by omega), Radix.value_written (by omega),
    Bytes.zeros_append_ofNat_toNat]

theorem encodeChars_of_decodeChars {cs : List Char} {bs : Bytes} (h : decodeChars cs = some bs) :
    encodeChars bs = cs := by
  obtain ⟨ds, hds, -⟩ := Option.bind_eq_some_iff.mp h
  obtain ⟨hlt, rfl⟩ := Alphabet.map_of_mapM (fun _ _ => symbol_of_symbolValue?) hds
  rw [decodeChars_map_symbol hlt, Option.some.injEq] at h
  have hd : Bytes.digits bs = written 256 (leading ds) (Radix.value 58 ds.reverse) := by
    rw [← h, Bytes.digits_zeros_append_ofNat]
  rw [encodeChars_eq_map, Bytes.toNat_eq_value, hd, Radix.leading_written (by omega),
    Radix.value_written (by omega), Radix.written_leading_value (by omega) hlt]

lemma decode_eq_ok_iff {text : String} {bs : Bytes} :
    decode text = .ok bs ↔ text = encode bs := by
  rw [decode, encode]
  constructor
  · intro h
    cases hd : decodeChars text.toList with
    | none => rw [hd] at h; simp at h
    | some bs' =>
      rw [hd] at h
      obtain rfl : bs' = bs := by simpa using h
      rw [encodeChars_of_decodeChars hd, String.ofList_toList]
  · rintro rfl
    rw [String.toList_ofList, decodeChars_encodeChars]

/-! ### The first character -/

lemma head_encodeChars_zero (bs : Bytes) : (encodeChars (0 :: bs)).head? = some '1' := by
  simp [encodeChars, List.replicate_succ]

/-- The first character of a text that starts with no `1` is the first digit of its number. -/
lemma head_encodeChars {b : UInt8} {bs : Bytes} {k d : ℕ} (hb : b ≠ 0)
    (hd : Bytes.toNat (b :: bs) / 58 ^ k = d) (h0 : d ≠ 0) (h58 : d < 58) :
    (encodeChars (b :: bs)).head? = some (symbol d) := by
  subst hd
  obtain ⟨low, hlow⟩ := Radix.digits_eq_append (by omega) h0 h58
  simp [encodeChars, hb, hlow]

/-- Bounds on the first digit, from the first byte and the number of bytes alone. -/
lemma exists_head_encodeChars {b : UInt8} {k l u : ℕ} (bs : Bytes) (hb : b ≠ 0)
    (hlo : l * 58 ^ k ≤ b.toNat * 256 ^ bs.length)
    (hhi : (b.toNat + 1) * 256 ^ bs.length ≤ (u + 1) * 58 ^ k) (h0 : 0 < l) (h58 : u < 58) :
    ∃ d, l ≤ d ∧ d ≤ u ∧ (encodeChars (b :: bs)).head? = some (symbol d) := by
  have hn := Bytes.toNat_cons b bs
  have hlt := Bytes.toNat_lt bs
  have hk : 0 < 58 ^ k := by positivity
  have h1 : l ≤ Bytes.toNat (b :: bs) / 58 ^ k :=
    (Nat.le_div_iff_mul_le hk).mpr (by omega)
  have h2 : Bytes.toNat (b :: bs) / 58 ^ k < u + 1 :=
    (Nat.div_lt_iff_lt_mul hk).mpr (by rw [Nat.add_mul, one_mul] at hhi; omega)
  exact ⟨_, h1, by omega, head_encodeChars hb rfl (by omega) (by omega)⟩

/-! ### The checked form -/

section Checked

variable {sha256 : Bytes → Bytes} (hlen : ∀ msg, (sha256 msg).length = 32)
include hlen

lemma length_checksum (bs : Bytes) : (checksum sha256 bs).length = 4 := by
  simp [checksum, Crypto.doubleDigest, hlen]

/-- Checked text is accepted exactly if it is the text of the payload that it gives. -/
theorem decodeChecked_eq_ok_iff {text : String} {payload : Bytes} :
    decodeChecked sha256 text = .ok payload ↔ text = encodeChecked sha256 payload := by
  have hc := length_checksum hlen
  constructor
  · intro h
    unfold decodeChecked at h
    cases hd : decode text with
    | error fault => rw [hd] at h; simp [bind, Except.bind] at h
    | ok bs =>
      rw [hd] at h
      simp only [bind, Except.bind, throw, throwThe, MonadExceptOf.throw, pure, Except.pure] at h
      split_ifs at h with hs hp
      · obtain rfl : bs.take (bs.length - 4) = payload := by simpa using h
        rw [decode_eq_ok_iff] at hd
        rw [hd, encodeChecked, ← hp, List.take_append_drop]
  · rintro rfl
    have hd := decode_eq_ok_iff.mpr (rfl : encodeChecked sha256 payload = _)
    simp [decodeChecked, hd, bind, Except.bind, pure, Except.pure, hc]

end Checked

end WatchWallet.Base58
