import WatchWallet.Proofs.Address.RoundTrip

/-!
What the text of an address begins with.

In Base58 the first character is the first digit of a number of which the version byte is known and
nothing else; the range of that number leaves one digit, or two. Text of a witness program begins
with the part of its network, the separator, and the symbol of version zero.
-/

namespace WatchWallet.Address

variable {d : Crypto.Digests}

/-- What the text for a network and a script type may begin with. -/
def beginnings : Network → ScriptType → List String
  | .mainnet, .p2pkh => ["1"]
  | _, .p2pkh => ["m", "n"]
  | .mainnet, .p2sh => ["3"]
  | _, .p2sh => ["2"]
  | .mainnet, .p2wpkh => ["bc1q"]
  | .testnet, .p2wpkh => ["tb1q"]
  | .regtest, .p2wpkh => ["bcrt1q"]

def Begins (n : Network) (t : ScriptType) (text : String) : Prop :=
  ∃ start ∈ beginnings n t, ∃ rest, text = start ++ rest

/-! ### Base58 text -/

lemma beginnings_of_base58 {t : ScriptType} (ht : t ≠ .p2wpkh) (n : Network) :
    beginnings n t = (leadingSymbols n t).map String.singleton := by
  cases t with
  | p2wpkh => exact absurd rfl ht
  | _ => cases n <;> rfl

/-- Whatever stands behind the version byte: it need not be a payload with its checksum. -/
lemma begins_of_version {t : ScriptType} (ht : t ≠ .p2wpkh) (n : Network) {rest : Bytes}
    (h : rest.length = 24) : Begins n t (Base58.encode (version n t :: rest)) := by
  obtain ⟨c, hc, hhead⟩ := exists_head_version n t h
  obtain ⟨cs, hcs⟩ := List.head?_eq_some_iff.mp hhead
  refine ⟨String.singleton c, ?_, String.ofList cs, ?_⟩
  · rw [beginnings_of_base58 ht]
    exact List.mem_map_of_mem hc
  · rw [Base58.encode, hcs, String.singleton_eq_ofList, ← String.ofList_append]
    rfl

/-! ### Text of a witness program -/

lemma symbol_zero : Bech32.symbol 0 = 'q' := rfl

lemma begins_segwit (n : Network) (program : Bytes) :
    Begins n .p2wpkh (Bech32.encode ⟨hrp n, 0, program⟩) := by
  refine ⟨String.ofList (hrp n ++ ['1', 'q']), by cases n <;> decide,
    String.ofList (Bech32.dataSymbols ⟨hrp n, 0, program⟩).tail, ?_⟩
  rw [Bech32.encode, Bech32.encodeChars_eq, ← String.ofList_append]
  simp [Bech32.dataSymbols, Bech32.dataValues, symbol_zero]

lemma length_segwit (n : Network) {program : Bytes} (h : program.length = 20) :
    (Bech32.encode ⟨hrp n, 0, program⟩).length = (hrp n).length + 40 := by
  rw [Bech32.encode, String.length_ofList, Bech32.length_encodeChars h]

/-! ### Both -/

lemma Genuine.begins {a : Address} (h : Genuine d a) : Begins a.network a.scriptType a.text := by
  rw [h.text_eq]
  by_cases ht : a.scriptType = .p2wpkh
  · rw [ht]
    exact begins_segwit a.network a.payload
  · rw [render_of_base58 ht, Base58.encodeChecked, List.cons_append]
    refine begins_of_version ht a.network ?_
    rw [List.length_append, h.length_payload, Base58.length_checksum d.length_sha256]

lemma Genuine.length_text {a : Address} (h : Genuine d a) (ht : a.scriptType = .p2wpkh) :
    a.text.length = (hrp a.network).length + 40 := by
  rw [h.text_eq, ht]
  exact length_segwit a.network h.length_payload

/-- **The first characters** of the text of any key or script digest are those of its network and
script type; in Base58 they are so whatever the four bytes of the checksum are. Text of a witness
program has one length on each network. -/
theorem text_begins (d : Crypto.Digests) (n : Network) :
    (∀ t publicKey, Begins n t (ofKey d n t publicKey).text) ∧
    (∀ hash, hash.length = 20 →
      ∃ a, ofScriptHash d n hash = .ok a ∧ Begins n .p2sh a.text) ∧
    (∀ t payload sum, t ≠ .p2wpkh → payload.length = 20 → sum.length = 4 →
      Begins n t (Base58.encode (version n t :: payload ++ sum))) ∧
    ∀ publicKey, (ofKey d n .p2wpkh publicKey).text.length =
      match n with
      | .mainnet | .testnet => 42
      | .regtest => 44 := by
  refine ⟨fun t publicKey => ?_, fun hash hlen => ?_, fun t payload sum ht hlen hsum => ?_,
    fun publicKey => ?_⟩
  · have h := (genuine_ofKey (d := d) n t publicKey).begins
    rwa [network_ofKey, scriptType_ofKey] at h
  · refine ⟨ofPayload d n .p2sh hash, ?_, (genuine_ofPayload hlen n .p2sh).begins⟩
    rw [ofScriptHash, if_pos hlen]
  · rw [List.cons_append]
    exact begins_of_version ht n (by rw [List.length_append, hlen, hsum])
  · rw [(genuine_ofKey n .p2wpkh publicKey).length_text (scriptType_ofKey n .p2wpkh publicKey),
      network_ofKey]
    cases n <;> rfl

/-- The least and the greatest number behind the version byte of the test network; neither has a
checksum that is right. -/
theorem text_begins_of_extremes :
    let zeros := Bytes.zeros 20
    let ones : Bytes := List.replicate 20 0xff
    (zeros.length = 20 ∧
      ∃ a, ofScriptHash .standard .testnet zeros = .ok a ∧ Begins .testnet .p2sh a.text) ∧
    ScriptType.p2pkh ≠ .p2wpkh ∧ ones.length = 20 ∧
      Begins .testnet .p2pkh (Base58.encode (0x6f :: zeros ++ [0, 0, 0, 0])) ∧
      Begins .testnet .p2pkh (Base58.encode (0x6f :: ones ++ [0xff, 0xff, 0xff, 0xff])) := by
  intro zeros ones
  obtain ⟨-, hscript, hkey, -⟩ := text_begins .standard .testnet
  have hne : ScriptType.p2pkh ≠ .p2wpkh := by decide
  exact ⟨⟨rfl, hscript zeros rfl⟩, hne, rfl, hkey .p2pkh zeros _ hne rfl rfl,
    hkey .p2pkh ones _ hne rfl rfl⟩

end WatchWallet.Address
