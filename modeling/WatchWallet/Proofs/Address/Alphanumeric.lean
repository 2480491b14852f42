import WatchWallet.Address.Ref
import WatchWallet.Proofs.Address.Canonical
import WatchWallet.Proofs.Hex

/-!
The texts of addresses have letters and digits only.

A text that is read may have any printable characters in its human-readable part, but the text of
an address is always written anew from its parts: with digits below 58 or groups of five bits, each
at its place in an alphabet of letters and digits.
-/

namespace WatchWallet

namespace Base58

lemma isAlphanum_symbol {i : ℕ} (h : i < alphabet.length) : (symbol i).isAlphanum = true := by
  have hall : ∀ c ∈ alphabet, c.isAlphanum = true := List.all_eq_true.mp (by decide)
  exact Alphabet.getD_of_forall hall h _

/-- Every digit that is written has a symbol. -/
lemma exists_indices (bs : Bytes) :
    ∃ is : List ℕ, (∀ i ∈ is, i < alphabet.length) ∧ encodeChars bs = is.map symbol := by
  refine ⟨_, fun i hi => ?_, encodeChars_eq_map bs⟩
  rw [length_alphabet]
  exact Radix.lt_of_mem_written (by omega) hi

lemma encodeChars_ne_nil {bs : Bytes} (h : bs ≠ []) : encodeChars bs ≠ [] := by
  intro hnil
  have hempty : encodeChars [] = [] := by simp [encodeChars]
  have hread := decodeChars_encodeChars bs
  rw [hnil, ← hempty, decodeChars_encodeChars] at hread
  exact h (Option.some.inj hread).symm

end Base58

namespace Bech32

lemma isAlphanum_symbol {v : UInt8} (h : v.toNat < alphabet.length) :
    (symbol v).isAlphanum = true := by
  have hall : ∀ c ∈ alphabet, c.isAlphanum = true := List.all_eq_true.mp (by decide)
  exact Alphabet.getD_of_forall hall h _

/-- Every group that is written has a symbol, those of the checksum too. -/
lemma exists_indices (part : List Char) (program : Bytes) :
    ∃ vs : Bytes, (∀ v ∈ vs, v.toNat < alphabet.length) ∧
      encodeChars ⟨part, 0, program⟩ = part ++ '1' :: vs.map symbol := by
  refine ⟨_, fun v hv => ?_, encodeChars_eq ⟨part, 0, program⟩⟩
  have hlt : v < 32 := (List.mem_append.mp hv).elim lt_of_mem_dataValues lt_of_mem_checksum
  rw [length_alphabet]
  exact UInt8.lt_iff_toNat_lt.mp hlt

end Bech32

namespace Hex

def digits : List Char := "0123456789abcdef".toList

lemma digit_mem {n : ℕ} (h : n < 16) : digit n ∈ digits := by
  have hall : ∀ n < 16, digit n ∈ digits := by decide
  exact hall n h

/-- Hexadecimal text is written in lower case. -/
lemma mem_digits_of_mem_encode {bs : Bytes} {c : Char} (h : c ∈ (encode bs).toList) :
    c ∈ digits := by
  rw [encode, String.toList_ofList] at h
  obtain ⟨b, -, hc⟩ := List.mem_flatMap.mp h
  rcases List.mem_cons.mp hc with rfl | hc
  · exact digit_mem (div_lt_of_byte b)
  · obtain rfl := List.mem_singleton.mp hc
    exact digit_mem (mod_lt_of_byte b)

end Hex

namespace Address

variable {d : Crypto.Digests} {a : Address}

/-- Every address that the codec gives: of a public key, of the digest of a script, of a text, of a
text on an expected network, or of one that was written down for a network. -/
inductive Obtained (d : Crypto.Digests) : Address → Prop
  | ofKey (n : Network) (t : ScriptType) (publicKey : Bytes) : Obtained d (ofKey d n t publicKey)
  | ofScriptHash {n : Network} {hash : Bytes} {a : Address} (h : ofScriptHash d n hash = .ok a) :
      Obtained d a
  | decoded {text : String} {a : Address} (h : decode d text = .ok a) : Obtained d a
  | decodedOn {text : String} {n : Network} {a : Address} (h : decodeOn d text n = .ok a) :
      Obtained d a
  | resolved {r : AddressRef} {session : Network} {a : Address}
      (h : r.resolve d session = .ok a) : Obtained d a

/-- None keeps the text that it was read from. -/
lemma Obtained.genuine (h : Obtained d a) : Genuine d a := by
  cases h with
  | ofKey n t publicKey => exact genuine_ofKey n t publicKey
  | ofScriptHash h =>
    unfold Address.ofScriptHash at h
    split_ifs at h with hlen
    obtain rfl := Except.ok.inj h
    exact genuine_ofPayload hlen _ _
  | decoded h => exact genuine_of_decode h
  | decodedOn h => exact genuine_of_decodeOn h
  | resolved h =>
    unfold AddressRef.resolve at h
    split_ifs at h
    exact genuine_of_decodeOn h

/-- A text of symbols, each taken from a place inside its alphabet. -/
inductive Spelled (a : Address) : Prop
  | base58 (is : List ℕ) (hin : ∀ i ∈ is, i < Base58.alphabet.length) (hne : is ≠ [])
      (htext : a.text = String.ofList (is.map Base58.symbol))
  | bech32 (vs : Bytes) (hin : ∀ v ∈ vs, v.toNat < Bech32.alphabet.length)
      (htext : a.text = String.ofList (hrp a.network ++ '1' :: vs.map Bech32.symbol))

lemma Genuine.spelled (h : Genuine d a) : Spelled a := by
  have htext := h.text_eq
  by_cases ht : a.scriptType = .p2wpkh
  · obtain ⟨vs, hin, hvs⟩ := Bech32.exists_indices (hrp a.network) a.payload
    rw [ht, render, Bech32.encode, hvs] at htext
    exact .bech32 vs hin htext
  · rw [render_of_base58 ht, Base58.encodeChecked, Base58.encode] at htext
    obtain ⟨is, hin, his⟩ := Base58.exists_indices
      (version a.network a.scriptType :: a.payload ++
        Base58.checksum d.sha256 (version a.network a.scriptType :: a.payload))
    refine .base58 is hin ?_ (his ▸ htext)
    rintro rfl
    exact Base58.encodeChars_ne_nil (List.cons_ne_nil _ _) his

lemma Spelled.text_ne (h : Spelled a) : a.text ≠ "" := by
  intro hempty
  have hnil : a.text.toList = [] := String.toList_eq_nil_iff.mpr hempty
  cases h with
  | base58 is _ hne htext =>
    rw [htext, String.toList_ofList, List.map_eq_nil_iff] at hnil
    exact hne hnil
  | bech32 vs _ htext =>
    rw [htext, String.toList_ofList, List.append_eq_nil_iff] at hnil
    exact absurd hnil.2 (List.cons_ne_nil _ _)

lemma isAlphanum_hrp (n : Network) : ∀ c ∈ hrp n, c.isAlphanum = true := by
  cases n <;> exact List.all_eq_true.mp (by decide)

theorem Spelled.isAlphanum (h : Spelled a) : ∀ c ∈ a.text.toList, c.isAlphanum = true := by
  intro c hc
  cases h with
  | base58 is hin _ htext =>
    rw [htext, String.toList_ofList] at hc
    obtain ⟨i, hi, rfl⟩ := List.mem_map.mp hc
    exact Base58.isAlphanum_symbol (hin i hi)
  | bech32 vs hin htext =>
    rw [htext, String.toList_ofList, List.mem_append, List.mem_cons] at hc
    rcases hc with hc | rfl | hc
    · exact isAlphanum_hrp a.network c hc
    · decide
    · obtain ⟨v, hv, rfl⟩ := List.mem_map.mp hc
      exact Bech32.isAlphanum_symbol (hin v hv)

end Address

end WatchWallet
