import WatchWallet.Crypto.Der
import WatchWallet.Proofs.Bytes

/-!
A signature is read from the bytes that write it.

A tagged content of fewer than 128 bytes is read from the front of what follows it. An integer of
256 bits takes 33 bytes at most, so that both integers and the sequence of the two are so short.
-/

namespace WatchWallet.Crypto.Der

/-- A first byte of zero does not count. -/
lemma toNat_integerBytes (n : ℕ) : Bytes.toNat (integerBytes n) = n := by
  have hread := Bytes.toNat_ofNat n
  unfold integerBytes
  cases hbytes : Bytes.ofNat n with
  | nil =>
    rw [hbytes] at hread
    exact hread
  | cons b bs =>
    rw [hbytes] at hread
    simp only
    split_ifs
    · exact hread
    · rw [Bytes.toNat_cons, UInt8.toNat_zero, Nat.zero_mul, Nat.zero_add, hread]

lemma length_integerBytes_le {len n : ℕ} (h : n < 256 ^ len) :
    (integerBytes n).length ≤ len + 1 := by
  have hlen := Bytes.length_ofNat_le h
  unfold integerBytes
  cases hbytes : Bytes.ofNat n with
  | nil => simp
  | cons b bs =>
    rw [hbytes, List.length_cons] at hlen
    simp only
    split_ifs <;> simp only [List.length_cons] <;> omega

@[simp] lemma length_tagged (tag : UInt8) (content : Bytes) :
    (tagged tag content).length = content.length + 2 := rfl

lemma readTagged_tagged (tag : UInt8) {content : Bytes} (h : content.length < 128)
    (rest : Bytes) : readTagged tag (tagged tag content ++ rest) = some (content, rest) := by
  have hlen : (UInt8.ofNat content.length).toNat = content.length := by
    rw [UInt8.toNat_ofNat', Nat.mod_eq_of_lt (by omega)]
  have hshort : UInt8.ofNat content.length < 0x80 := by
    rw [UInt8.lt_iff_toNat_lt, hlen]
    exact h
  rw [tagged, List.cons_append, List.cons_append, readTagged, hlen, if_pos]
  · rw [List.take_left, List.drop_left]
  · exact ⟨rfl, hshort, by simp⟩

lemma readInteger_tagged {n : ℕ} (h : n < 256 ^ 32) (rest : Bytes) :
    readInteger (tagged 0x02 (integerBytes n) ++ rest) = some (n, rest) := by
  have hlen := length_integerBytes_le h
  rw [readInteger, readTagged_tagged 0x02 (by omega)]
  simp [toNat_integerBytes]

/-- **Nothing is lost** in DER. -/
theorem decode?_encode {sig : Signature} (hr : sig.r < 256 ^ 32) (hs : sig.s < 256 ^ 32) :
    decode? (encode sig) = some sig := by
  have hr' := length_integerBytes_le hr
  have hs' := length_integerBytes_le hs
  have hlen : (tagged 0x02 (integerBytes sig.r) ++ tagged 0x02 (integerBytes sig.s)).length <
      128 := by
    simp only [List.length_append, length_tagged]
    omega
  have hread := readTagged_tagged 0x30 hlen []
  have hsecond := readInteger_tagged hs []
  rw [List.append_nil] at hread hsecond
  rw [decode?, encode, hread]
  simp [readInteger_tagged hr, hsecond]

end WatchWallet.Crypto.Der
