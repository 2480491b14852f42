import Mathlib.Tactic.Common
import WatchWallet.Hex
import WatchWallet.Proofs.Bytes

/-!
Byte strings are read back from the hexadecimal text that writes them, and texts of an even number
of digits, in either case, are all that is read.
-/

namespace WatchWallet.Hex

lemma digitValue?_digit {n : Nat} (h : n < 16) : digitValue? (digit n) = some n := by
  have hall : ∀ n < 16, digitValue? (digit n) = some n := by decide
  exact hall n h

lemma utf8Size_digit {n : Nat} (h : n < 16) : (digit n).utf8Size = 1 := by
  have hall : ∀ n < 16, (digit n).utf8Size = 1 := by decide
  exact hall n h

lemma div_lt_of_byte (b : UInt8) : b.toNat / 16 < 16 := by
  have := b.toNat_lt
  omega

lemma mod_lt_of_byte (b : UInt8) : b.toNat % 16 < 16 := Nat.mod_lt _ (by decide)

theorem decodeChars_encodeChars (bs : Bytes) : decodeChars (encodeChars bs) = .ok bs := by
  induction bs with
  | nil => rfl
  | cons b bs ih =>
    rw [encodeChars_cons, encodeByte, List.cons_append, List.cons_append, List.nil_append,
      decodeChars, digitValue?_digit (div_lt_of_byte b), digitValue?_digit (mod_lt_of_byte b), ih]
    simp only
    rw [Nat.div_add_mod, UInt8.ofNat_toNat]
    rfl

lemma utf8Size_of_mem_encodeChars {bs : Bytes} {c : Char} (h : c ∈ encodeChars bs) :
    c.utf8Size = 1 := by
  obtain ⟨b, -, hc⟩ := List.mem_flatMap.mp h
  rcases List.mem_cons.mp hc with rfl | hc
  · exact utf8Size_digit (div_lt_of_byte b)
  · obtain rfl := List.mem_singleton.mp hc
    exact utf8Size_digit (mod_lt_of_byte b)

lemma length_encodeChars (bs : Bytes) : (encodeChars bs).length = 2 * bs.length := by
  induction bs with
  | nil => rfl
  | cons b bs ih =>
    rw [encodeChars_cons, List.length_append, ih, List.length_cons, encodeByte]
    simp only [List.length_cons, List.length_nil]
    omega

/-- **Hexadecimal text** is read back as the bytes that it writes. -/
theorem decode_encode (bs : Bytes) : decode (encode bs) = .ok bs := by
  rw [decode, encode, utf8ByteSize_ofList fun c => utf8Size_of_mem_encodeChars,
    length_encodeChars, Nat.mul_mod_right, if_neg (by decide), String.toList_ofList,
    decodeChars_encodeChars]

/-! ### What is read -/

/-- A digit, in either case. -/
def IsDigit (c : Char) : Prop :=
  '0' ≤ c ∧ c ≤ '9' ∨ 'a' ≤ c ∧ c ≤ 'f' ∨ 'A' ≤ c ∧ c ≤ 'F'

instance (c : Char) : Decidable (IsDigit c) := inferInstanceAs (Decidable (_ ∨ _ ∨ _))

lemma digitValue?_isSome_iff (c : Char) : (digitValue? c).isSome ↔ IsDigit c := by
  unfold digitValue? IsDigit
  split_ifs <;> simp_all

lemma toNat_le_of_isDigit {c : Char} (h : IsDigit c) : c.toNat ≤ 102 := by
  rcases h with ⟨-, h⟩ | ⟨-, h⟩ | ⟨-, h⟩ <;>
    exact Nat.le_trans (UInt32.le_iff_toNat_le.mp h) (by decide)

lemma utf8Size_of_isDigit {c : Char} (h : IsDigit c) : c.utf8Size = 1 := by
  rw [Char.utf8Size_eq_one_iff, UInt32.le_iff_toNat_le]
  exact Nat.le_trans (toNat_le_of_isDigit h) (by decide)

/-- A text of digits has one byte for each. -/
lemma utf8ByteSize_of_isDigit {t : String} (h : ∀ c ∈ t.toList, IsDigit c) :
    t.utf8ByteSize = t.length := by
  have hsize := utf8ByteSize_ofList fun c hc => utf8Size_of_isDigit (h c hc)
  rwa [String.ofList_toList, String.length_toList] at hsize

/-- Digits are read two by two. -/
lemma exists_decodeChars_iff (cs : List Char) :
    (∃ bs, decodeChars cs = .ok bs) ↔ cs.length % 2 = 0 ∧ ∀ c ∈ cs, IsDigit c := by
  fun_induction decodeChars cs with
  | case1 => simp
  | case2 => simp
  | case3 high low rest hi lo hlow hhigh ih =>
    have hread : (∃ bs, (UInt8.ofNat (16 * hi + lo) :: ·) <$> decodeChars rest = .ok bs) ↔
        ∃ bs, decodeChars rest = .ok bs := by
      cases decodeChars rest <;> simp
    have hh : IsDigit high := (digitValue?_isSome_iff high).mp (by rw [hhigh]; rfl)
    have hl : IsDigit low := (digitValue?_isSome_iff low).mp (by rw [hlow]; rfl)
    rw [hread, ih, List.length_cons, List.length_cons, Nat.add_assoc, Nat.add_mod_right]
    simp [hh, hl]
  | case4 high low rest hnone =>
    refine iff_of_false (by simp) ?_
    rintro ⟨-, hall⟩
    obtain ⟨hi, hhigh⟩ := Option.isSome_iff_exists.mp
      ((digitValue?_isSome_iff high).mpr (hall high (by simp)))
    obtain ⟨lo, hlow⟩ := Option.isSome_iff_exists.mp
      ((digitValue?_isSome_iff low).mpr (hall low (by simp)))
    exact hnone hi lo hhigh hlow

/-! ### What was read is written in lower case -/

lemma digit_of_digitValue? {c : Char} {n : ℕ} (h : digitValue? c = some n) :
    n < 16 ∧ digit n = c.toLower := by
  have hall : ∀ m ≤ 102, ∀ k ∈ digitValue? (Char.ofNat m),
      k < 16 ∧ digit k = (Char.ofNat m).toLower := by decide
  have hdigit : IsDigit c := (digitValue?_isSome_iff c).mp (by rw [h]; rfl)
  have hread : n ∈ digitValue? (Char.ofNat c.toNat) := by rwa [Char.ofNat_toNat]
  have hn := hall c.toNat (toNat_le_of_isDigit hdigit) n hread
  rwa [Char.ofNat_toNat] at hn

lemma encodeByte_ofNat {hi lo : ℕ} (hhi : hi < 16) (hlo : lo < 16) :
    encodeByte (UInt8.ofNat (16 * hi + lo)) = [digit hi, digit lo] := by
  have hn : (UInt8.ofNat (16 * hi + lo)).toNat = 16 * hi + lo := by
    rw [UInt8.toNat_ofNat']
    omega
  have hdiv : (16 * hi + lo) / 16 = hi := by omega
  have hmod : (16 * hi + lo) % 16 = lo := by omega
  rw [encodeByte, hn, hdiv, hmod]

/-- What was read is written in lower case. -/
theorem encodeChars_of_decodeChars {cs : List Char} {bs : Bytes} (h : decodeChars cs = .ok bs) :
    encodeChars bs = cs.map Char.toLower := by
  fun_induction decodeChars cs generalizing bs with
  | case1 =>
    obtain rfl := Except.ok.inj h
    rfl
  | case2 => cases h
  | case3 high low rest hi lo hlow hhigh ih =>
    cases hrest : decodeChars rest with
    | error fault =>
      rw [hrest] at h
      cases h
    | ok ds =>
      rw [hrest] at h
      obtain rfl := Except.ok.inj h
      obtain ⟨hhi, hh⟩ := digit_of_digitValue? hhigh
      obtain ⟨hlo, hl⟩ := digit_of_digitValue? hlow
      rw [encodeChars_cons, encodeByte_ofNat hhi hlo, ih hrest, hh, hl]
      rfl
  | case4 => cases h

lemma decodeChars_cases (cs : List Char) :
    (∃ bs, decodeChars cs = .ok bs) ∨ decodeChars cs = .error .badCharacter := by
  fun_induction decodeChars cs with
  | case1 => exact Or.inl ⟨[], rfl⟩
  | case2 => exact Or.inr rfl
  | case3 high low rest hi lo hlow hhigh ih =>
    rcases ih with ⟨ds, hds⟩ | herror
    · exact Or.inl ⟨_, by rw [hds]; rfl⟩
    · exact Or.inr (by rw [herror]; rfl)
  | case4 => exact Or.inr rfl

lemma decodeChars_of_not_isDigit {cs : List Char} (h : ¬∀ c ∈ cs, IsDigit c) :
    decodeChars cs = .error .badCharacter := by
  refine (decodeChars_cases cs).resolve_left fun hread => h ?_
  exact ((exists_decodeChars_iff cs).mp hread).2

lemma encodeChars_inj {as bs : Bytes} (h : encodeChars as = encodeChars bs) : as = bs := by
  have hread := congrArg decodeChars h
  rw [decodeChars_encodeChars, decodeChars_encodeChars] at hread
  exact Except.ok.inj hread

lemma decodeChars_eq_ok_iff {cs : List Char} {bs : Bytes} :
    decodeChars cs = .ok bs ↔
      (∀ c ∈ cs, IsDigit c) ∧ encodeChars bs = cs.map Char.toLower := by
  constructor
  · intro h
    exact ⟨((exists_decodeChars_iff cs).mp ⟨bs, h⟩).2, encodeChars_of_decodeChars h⟩
  · rintro ⟨hdigits, hlower⟩
    have hlen : cs.length = 2 * bs.length := by
      rw [← length_encodeChars, hlower, List.length_map]
    obtain ⟨ds, hds⟩ := (exists_decodeChars_iff cs).mpr ⟨by omega, hdigits⟩
    rw [hds, encodeChars_inj ((encodeChars_of_decodeChars hds).trans hlower.symm)]

/-! ### Whole texts -/

/-- What reading a text comes to, which has `size` bytes and the characters `cs`: it is read just
if there are only digits and an even number of bytes, and then as the bytes that its lower-case
form writes; an odd number of bytes is refused first, and else a character that is no digit. -/
structure Reading (size : ℕ) (cs : List Char) (r : Except Fault Bytes) : Prop where
  exists_iff : (∃ bs, r = .ok bs) ↔ size % 2 = 0 ∧ ∀ c ∈ cs, IsDigit c
  ok_iff : ∀ bs, r = .ok bs ↔ (∀ c ∈ cs, IsDigit c) ∧ encodeChars bs = cs.map Char.toLower
  oddLength_iff : r = .error .oddLength ↔ size % 2 = 1
  badCharacter_iff : r = .error .badCharacter ↔ size % 2 = 0 ∧ ∃ c ∈ cs, ¬IsDigit c

lemma reading {size : ℕ} {cs : List Char} (hsize : (∀ c ∈ cs, IsDigit c) → size = cs.length) :
    Reading size cs (if size % 2 = 1 then .error .oddLength else decodeChars cs) := by
  by_cases hodd : size % 2 = 1
  · rw [if_pos hodd]
    have heven : ¬size % 2 = 0 := by omega
    refine ⟨by simp [heven], fun bs => iff_of_false (by simp) ?_, by simp [hodd], by simp [heven]⟩
    -- bytes are written with an even number of characters
    rintro ⟨hdigits, hlower⟩
    have hlen := congrArg List.length hlower
    rw [length_encodeChars, List.length_map, ← hsize hdigits] at hlen
    omega
  · rw [if_neg hodd]
    have heven : size % 2 = 0 := by omega
    by_cases hdigits : ∀ c ∈ cs, IsDigit c
    · have hlen : cs.length % 2 = 0 := by rwa [← hsize hdigits]
      obtain ⟨bs, hbs⟩ := (exists_decodeChars_iff cs).mpr ⟨hlen, hdigits⟩
      refine ⟨iff_of_true ⟨bs, hbs⟩ ⟨heven, hdigits⟩, fun _ => decodeChars_eq_ok_iff, ?_, ?_⟩
      · simp [hbs, hodd]
      · simpa [hbs] using fun _ => hdigits
    · have herror := decodeChars_of_not_isDigit hdigits
      refine ⟨by simp [herror, hdigits], fun _ => decodeChars_eq_ok_iff, ?_, ?_⟩
      · simp [herror, hodd]
      · simpa [herror, heven] using hdigits

lemma reading_decode (t : String) : Reading t.utf8ByteSize t.toList (decode t) :=
  reading fun hdigits => (utf8ByteSize_of_isDigit hdigits).trans String.length_toList.symm

/-- **What is read**: digits, and an even number of them. -/
theorem exists_decode_iff (t : String) :
    (∃ bs, decode t = .ok bs) ↔ t.length % 2 = 0 ∧ ∀ c ∈ t.toList, IsDigit c := by
  rw [(reading_decode t).exists_iff]
  exact and_congr_left fun hdigits => by rw [utf8ByteSize_of_isDigit hdigits]

/-! ### Byte by byte -/

/-- Reads the bytes of a text, each as a character of its own. -/
def decodeBytes (t : Bytes) : Except Fault Bytes :=
  if t.length % 2 = 1 then .error .oddLength else decodeChars (t.map Char.ofUInt8)

lemma toNat_ofUInt8 (b : UInt8) : (Char.ofUInt8 b).toNat = b.toNat := UInt8.toNat_toUInt32 b

lemma ofUInt8_ofNat {c : Char} (h : c.toNat ≤ 127) : Char.ofUInt8 (UInt8.ofNat c.toNat) = c := by
  refine Char.toNat_inj.mp ?_
  rw [toNat_ofUInt8, UInt8.toNat_ofNat']
  omega

lemma map_ofUInt8_utf8 {cs : List Char} (h : ∀ c ∈ cs, IsDigit c) :
    (utf8 cs).map Char.ofUInt8 = cs := by
  induction cs with
  | nil => rfl
  | cons c cs ih =>
    have hc : c.toNat ≤ 127 := (toNat_le_of_isDigit (h c (by simp))).trans (by decide)
    rw [utf8_cons, utf8EncodeChar_of_le hc, List.singleton_append, List.map_cons, ofUInt8_ofNat hc,
      ih fun d hd => h d (by simp [hd])]

/-- A byte that continues a character is no digit. -/
lemma isDigit_utf8EncodeChar_iff (c : Char) :
    (∀ b ∈ String.utf8EncodeChar c, IsDigit (Char.ofUInt8 b)) ↔ IsDigit c := by
  rcases Nat.lt_or_ge 127 c.toNat with h | h
  · obtain ⟨b, hb, hhigh⟩ := exists_continuation h
    refine iff_of_false (fun hall => ?_) fun hc => ?_
    · have hle := toNat_le_of_isDigit (hall b hb)
      rw [toNat_ofUInt8] at hle
      omega
    · have hle := toNat_le_of_isDigit hc
      omega
  · rw [utf8EncodeChar_of_le h, List.forall_mem_singleton, ofUInt8_ofNat h]

lemma isDigit_utf8_iff (cs : List Char) :
    (∀ d ∈ (utf8 cs).map Char.ofUInt8, IsDigit d) ↔ ∀ c ∈ cs, IsDigit c := by
  rw [List.forall_mem_map, utf8, List.forall_mem_flatMap]
  exact forall₂_congr fun c _ => isDigit_utf8EncodeChar_iff c

/-- A text is read as its bytes are. -/
theorem decodeBytes_utf8 (t : String) : decodeBytes (utf8 t.toList) = decode t := by
  rw [decodeBytes, decode, length_utf8, String.ofList_toList]
  by_cases hdigits : ∀ c ∈ t.toList, IsDigit c
  · rw [map_ofUInt8_utf8 hdigits]
  · have hbytes := (isDigit_utf8_iff t.toList).not.mpr hdigits
    rw [decodeChars_of_not_isDigit hdigits, decodeChars_of_not_isDigit hbytes]

lemma encode_eq_toLower_iff {t : String} {bs : Bytes} :
    encode bs = t.toLower ↔ encodeChars bs = t.toList.map Char.toLower := by
  rw [encode, toLower_eq_ofList, String.ofList_inj]

/-- **Hexadecimal text is exact.** Bytes are read back from what writes them. A text is read just
if it has an even number of bytes and only digits, in either case, and what is read writes its
lower-case form; else it is refused for an odd number of bytes, whatever they are, or else for a
character that is no digit. It is the same for bytes that make no text. -/
theorem reads_exactly_digits :
    (∀ bs, decode (encode bs) = .ok bs) ∧
    (∀ t : String, Reading t.utf8ByteSize t.toList (decode t) ∧
      (∀ bs, decode t = .ok bs ↔ (∀ c ∈ t.toList, IsDigit c) ∧ encode bs = t.toLower) ∧
      decodeBytes (utf8 t.toList) = decode t) ∧
    ∀ t : Bytes, Reading t.length (t.map Char.ofUInt8) (decodeBytes t) := by
  refine ⟨decode_encode, fun t => ⟨reading_decode t, fun bs => ?_, decodeBytes_utf8 t⟩, fun t => ?_⟩
  · rw [(reading_decode t).ok_iff, encode_eq_toLower_iff]
  · exact reading fun _ => (List.length_map _).symm

end WatchWallet.Hex
