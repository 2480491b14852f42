import Mathlib.Tactic.Ring
import WatchWallet.Crypto.Suite
import WatchWallet.Error
import WatchWallet.Proofs.Text.Base58

/-!
Base58 by long multiplication, and which texts it accepts.

A number can be written in another base without ever being computed: its digits are taken up one
by one, and for each the digits written so far are multiplied and take up the carries. After every
pass these are the digits of the number read so far, without leading zeros, and so both directions
of Base58 can be computed in place. The texts over the alphabet are just the texts of byte strings,
and the checked form accepts just the texts of payloads.
-/

namespace WatchWallet

namespace Radix

/-- One pass over digits in base `b`, least significant first: their number is multiplied by `m`,
and the carry added. What is carried out of the last digit makes further ones. -/
def multiplyAdd (b m : ℕ) : (carry : ℕ) → List ℕ → List ℕ
  | carry, [] => digits b carry
  | carry, d :: ds => (carry + d * m) % b :: multiplyAdd b m ((carry + d * m) / b) ds

/-- The digits in base `b`, least significant first, of the number that digits in base `m` write
with the most significant first: one pass for each of them. -/
def convert (m b : ℕ) (ds : List ℕ) : List ℕ :=
  ds.foldl (fun written d => multiplyAdd b m d written) []

@[simp] lemma convert_nil (m b : ℕ) : convert m b [] = [] := rfl

lemma convert_append_singleton (m b : ℕ) (ds : List ℕ) (d : ℕ) :
    convert m b (ds ++ [d]) = multiplyAdd b m d (convert m b ds) := by
  rw [convert, List.foldl_append, List.foldl_cons, List.foldl_nil, convert]

/-- **One pass** leads from the digits of a number to those of the next. -/
theorem multiplyAdd_digits {b m : ℕ} (hb : 2 ≤ b) (hm : 0 < m) (carry n : ℕ) :
    multiplyAdd b m carry (digits b n) = digits b (carry + n * m) := by
  induction n using Nat.strongRecOn generalizing carry with
  | _ n ih =>
    rcases Nat.eq_zero_or_pos n with rfl | hn
    · simp [multiplyAdd]
    have hpos : carry + n * m ≠ 0 := by
      have := Nat.mul_pos hn hm
      omega
    have hsplit : carry + n * m = carry + n % b * m + b * (n / b * m) := by
      calc carry + n * m
          = carry + (n % b + b * (n / b)) * m := by rw [Nat.mod_add_div]
        _ = carry + n % b * m + b * (n / b * m) := by ring
    have hmod : (carry + n * m) % b = (carry + n % b * m) % b := by
      rw [hsplit, Nat.add_mul_mod_self_left]
    have hdiv : (carry + n * m) / b = (carry + n % b * m) / b + n / b * m := by
      rw [hsplit, Nat.add_mul_div_left _ _ (by omega)]
    rw [digits_of_pos hb (by omega), digits_of_pos hb hpos, multiplyAdd,
      ih _ (Nat.div_lt_self hn (by omega)), hmod, hdiv]

/-- **All passes**: after each, the digits written are those of the number read so far. -/
theorem convert_eq_digits {b m : ℕ} (hb : 2 ≤ b) (hm : 0 < m) (ds : List ℕ) :
    convert m b ds = digits b (value m ds.reverse) := by
  induction ds using List.reverseRecOn with
  | nil => simp
  | append_singleton ds d ih =>
    rw [convert_append_singleton, ih, multiplyAdd_digits hb hm, List.reverse_append,
      List.reverse_singleton, List.singleton_append, value_cons, Nat.mul_comm]

end Radix

lemma Bytes.toNat_dropWhile_zero (bs : Bytes) : toNat (bs.dropWhile (· = 0)) = toNat bs := by
  induction bs with
  | nil => rfl
  | cons b bs ih =>
    by_cases hb : b = 0
    · subst hb
      rw [List.dropWhile_cons_of_pos (by simp), ih, toNat_cons]
      simp
    · rw [List.dropWhile_cons_of_neg (by simpa using hb)]

namespace Base58

open Radix (convert multiplyAdd)

/-! ### Both directions in place -/

/-- The text of bytes, by a pass for each byte after the leading zeros. -/
def encodeInPlace (bs : Bytes) : List Char :=
  (bs.takeWhile (· = 0)).map (fun _ => '1') ++
    (convert 256 58 (Bytes.digits (bs.dropWhile (· = 0)))).reverse.map symbol

/-- The bytes of a text, by a pass for each character until one that is no symbol. -/
def decodeInPlace (cs : List Char) : Option Bytes := do
  let ds ← cs.foldlM (fun written c => do return multiplyAdd 256 58 (← symbolValue? c) written) []
  return (cs.takeWhile (· = '1')).map (fun _ => 0) ++ ds.reverse.map UInt8.ofNat

theorem encodeInPlace_eq (bs : Bytes) : encodeInPlace bs = encodeChars bs := by
  rw [encodeInPlace, encodeChars, List.map_const', Radix.convert_eq_digits (by omega) (by omega),
    ← Bytes.toNat_eq_value, Bytes.toNat_dropWhile_zero]

/-- Reading symbols one at a time, or all of them first. -/
lemma foldlM_symbolValue? (f : List ℕ → ℕ → List ℕ) (cs : List Char) (written : List ℕ) :
    cs.foldlM (fun written c => do return f written (← symbolValue? c)) written =
      (cs.mapM symbolValue?).map (·.foldl f written) := by
  induction cs generalizing written with
  | nil => rfl
  | cons c cs ih =>
    rw [List.foldlM_cons, List.mapM_cons]
    cases symbolValue? c with
    | none => rfl
    | some d =>
      have htail := ih (f written d)
      cases hds : cs.mapM symbolValue? <;> simp_all

theorem decodeInPlace_eq (cs : List Char) : decodeInPlace cs = decodeChars cs := by
  unfold decodeInPlace decodeChars
  rw [foldlM_symbolValue? fun written d => multiplyAdd 256 58 d written]
  cases cs.mapM symbolValue? with
  | none => rfl
  | some ds =>
    have hds := Radix.convert_eq_digits (b := 256) (m := 58) (by omega) (by omega) ds
    unfold convert at hds
    simp [hds, Bytes.zeros, Bytes.ofNat]

/-! ### Texts over the alphabet -/

lemma symbol_mem {d : ℕ} (h : d < 58) : symbol d ∈ alphabet :=
  Alphabet.getD_of_forall (P := (· ∈ alphabet)) (fun _ hc => hc) (by rwa [length_alphabet]) '1'

lemma exists_symbol {c : Char} (h : c ∈ alphabet) : ∃ d < 58, symbol d = c := by
  obtain ⟨d, hd, rfl⟩ := List.mem_iff_getElem.mp h
  exact ⟨d, by rwa [length_alphabet] at hd, List.getD_eq_getElem _ _ hd⟩

lemma mem_alphabet_of_mem_encodeChars {bs : Bytes} {c : Char} (h : c ∈ encodeChars bs) :
    c ∈ alphabet := by
  rw [encodeChars_eq_map] at h
  obtain ⟨d, hd, rfl⟩ := List.mem_map.mp h
  exact symbol_mem (Radix.lt_of_mem_written (by omega) hd)

/-- A text over the alphabet is a text of digits. -/
lemma exists_digits {cs : List Char} (h : ∀ c ∈ cs, c ∈ alphabet) :
    ∃ ds : List ℕ, (∀ d ∈ ds, d < 58) ∧ ds.map symbol = cs := by
  induction cs with
  | nil => exact ⟨[], by simp, rfl⟩
  | cons c cs ih =>
    obtain ⟨d, hd, rfl⟩ := exists_symbol (h c (by simp))
    obtain ⟨ds, hds, rfl⟩ := ih fun c' hc' => h c' (by simp [hc'])
    exact ⟨d :: ds, by simpa using ⟨hd, hds⟩, rfl⟩

lemma exists_decode_eq_ok_iff (text : String) :
    (∃ bs, decode text = .ok bs) ↔ ∀ c ∈ text.toList, c ∈ alphabet := by
  constructor
  · rintro ⟨bs, hbs⟩ c hc
    rw [decode_eq_ok_iff.mp hbs, encode, String.toList_ofList] at hc
    exact mem_alphabet_of_mem_encodeChars hc
  · intro h
    obtain ⟨ds, hds, htext⟩ := exists_digits h
    exact ⟨_, by rw [decode, ← htext, decodeChars_map_symbol hds]⟩

lemma decode_cases (text : String) :
    (∃ bs, decode text = .ok bs) ∨ decode text = .error .badCharacter := by
  rw [decode]
  cases decodeChars text.toList with
  | none => exact Or.inr rfl
  | some bs => exact Or.inl ⟨bs, rfl⟩

lemma decode_eq_error_iff (text : String) :
    decode text = .error .badCharacter ↔ ∃ c ∈ text.toList, c ∉ alphabet := by
  have hiff := exists_decode_eq_ok_iff text
  rcases decode_cases text with ⟨bs, hbs⟩ | herror
  · have hall := hiff.mp ⟨bs, hbs⟩
    simpa [hbs] using hall
  · refine iff_of_true herror ?_
    rw [herror] at hiff
    simpa using hiff

/-- **Texts over the alphabet and byte strings determine each other**: a text is read as the bytes
that it is the text of, just the texts with a character outside the alphabet are refused, and the
passes with carries write and read the same. -/
theorem encodes_bijectively :
    (∀ bs, decode (encode bs) = .ok bs) ∧
    (∀ text : String, (∃ bs, decode text = .ok bs) ↔ ∀ c ∈ text.toList, c ∈ alphabet) ∧
    (∀ text bs, decode text = .ok bs ↔ encode bs = text) ∧
    (∀ text : String, decode text = .error .badCharacter ↔ ∃ c ∈ text.toList, c ∉ alphabet) ∧
    (∀ bs, encode bs = String.ofList (encodeInPlace bs)) ∧
    ∀ text : String, (decode text).toOption = decodeInPlace text.toList := by
  refine ⟨fun bs => decode_eq_ok_iff.mpr rfl, exists_decode_eq_ok_iff, fun text bs => ?_,
    decode_eq_error_iff, fun bs => ?_, fun text => ?_⟩
  · rw [decode_eq_ok_iff, eq_comm]
  · rw [encodeInPlace_eq, encode]
  · rw [decodeInPlace_eq, decode]
    cases decodeChars text.toList <;> rfl

/-! ### The checked form -/

section Checked

variable {sha256 : Bytes → Bytes} {text : String}

lemma decodeChecked_of_error {fault : Fault} (h : decode text = .error fault) :
    decodeChecked sha256 text = .error fault := by
  simp [decodeChecked, h, bind, Except.bind]

lemma decodeChecked_of_short {bs : Bytes} (h : decode text = .ok bs) (hlen : bs.length < 4) :
    decodeChecked sha256 text = .error .tooShort := by
  simp [decodeChecked, h, hlen, bind, Except.bind, throw, throwThe, MonadExceptOf.throw]

lemma decodeChecked_of_append {payload sum : Bytes} (h : decode text = .ok (payload ++ sum))
    (hlen : sum.length = 4) :
    decodeChecked sha256 text =
      if sum = checksum sha256 payload then .ok payload else .error .badChecksum := by
  have hnot : ¬payload.length + 4 < 4 := by omega
  simp only [decodeChecked, h, bind, Except.bind, List.length_append, hlen, hnot, if_false,
    Nat.add_sub_cancel, List.take_left, List.drop_left, pure, Except.pure, throw, throwThe,
    MonadExceptOf.throw]

/-- Why a text is refused, each cause where the ones before do not apply. -/
def Refused (sha256 : Bytes → Bytes) (text : String) : Fault → Prop
  | .badCharacter => ∃ c ∈ text.toList, c ∉ alphabet
  | .tooShort => ∃ bs, bs.length < 4 ∧ text = encode bs
  | .badChecksum => ∃ payload sum, sum.length = 4 ∧ sum ≠ checksum sha256 payload ∧
      text = encode (payload ++ sum)

/-- Bytes that are not too short end with four. -/
lemma exists_append {bs : Bytes} (h : 4 ≤ bs.length) :
    ∃ payload sum, sum.length = 4 ∧ bs = payload ++ sum :=
  ⟨bs.take (bs.length - 4), bs.drop (bs.length - 4), by simp; omega,
    (List.take_append_drop _ bs).symm⟩

lemma error_of_refused {fault : Fault} (h : Refused sha256 text fault) :
    decodeChecked sha256 text = .error fault := by
  cases fault with
  | badCharacter => exact decodeChecked_of_error ((decode_eq_error_iff text).mpr h)
  | tooShort =>
    obtain ⟨bs, hlen, htext⟩ := h
    exact decodeChecked_of_short (decode_eq_ok_iff.mpr htext) hlen
  | badChecksum =>
    obtain ⟨payload, sum, hlen, hne, htext⟩ := h
    rw [decodeChecked_of_append (decode_eq_ok_iff.mpr htext) hlen, if_neg hne]

lemma refused_of_error {fault : Fault} (h : decodeChecked sha256 text = .error fault) :
    Refused sha256 text fault := by
  rcases decode_cases text with ⟨bs, hbs⟩ | herror
  · have htext := decode_eq_ok_iff.mp hbs
    rcases Nat.lt_or_ge bs.length 4 with hlen | hlen
    · rw [decodeChecked_of_short hbs hlen] at h
      obtain rfl := Except.error.inj h
      exact ⟨bs, hlen, htext⟩
    · obtain ⟨payload, sum, hsum, rfl⟩ := exists_append hlen
      rw [decodeChecked_of_append hbs hsum] at h
      split_ifs at h with heq
      obtain rfl := Except.error.inj h
      exact ⟨payload, sum, hsum, heq, htext⟩
  · rw [decodeChecked_of_error herror] at h
    obtain rfl := Except.error.inj h
    exact (decode_eq_error_iff text).mp herror

end Checked

/-- **The checked form accepts its image and nothing else**, whatever the digest: a text gives a
payload exactly if it is the text of the payload, and any other text is refused as an invalid
address, for a character outside the alphabet, for want of bytes, or for its last four bytes. -/
theorem accepts_exactly_image (d : Crypto.Digests) (text : String) :
    (∀ payload, decodeChecked d.sha256 text = .ok payload ↔
      text = encodeChecked d.sha256 payload) ∧
    ((¬∃ payload, text = encodeChecked d.sha256 payload) ↔
      ∃ fault, decodeChecked d.sha256 text = .error fault ∧
        (Error.base58 fault text).kind = .invalidAddress) ∧
    ∀ fault, decodeChecked d.sha256 text = .error fault ↔ Refused d.sha256 text fault := by
  have hok : ∀ payload, decodeChecked d.sha256 text = .ok payload ↔
      text = encodeChecked d.sha256 payload := fun payload =>
    decodeChecked_eq_ok_iff d.length_sha256
  refine ⟨hok, ?_, fun fault => ⟨refused_of_error, error_of_refused⟩⟩
  simp only [← hok]
  cases h : decodeChecked d.sha256 text with
  | error fault => exact iff_of_true (by simp) ⟨fault, rfl, rfl⟩
  | ok payload => simp

end Base58

end WatchWallet
