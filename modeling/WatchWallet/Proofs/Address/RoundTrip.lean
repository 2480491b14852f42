import WatchWallet.Address
import WatchWallet.Crypto.Standard
import WatchWallet.Proofs.Text.Base58
import WatchWallet.Proofs.Text.Bech32

/-!
The text of an address is read back as the address.

An address is genuine if its payload has twenty bytes and its text is the one that its parts
write; such are all that the codec makes. Base58 text never looks like that of a witness
program: its first character is known from the version byte.
-/

namespace WatchWallet.Address

variable {d : Crypto.Digests}

/-- Made by the codec: the text is that of the parts, and the payload has its size. -/
structure Genuine (d : Crypto.Digests) (a : Address) : Prop where
  length_payload : a.payload.length = 20
  text_eq : a.text = render d a.network a.scriptType a.payload

lemma genuine_ofPayload {payload : Bytes} (h : payload.length = 20) (n : Network)
    (t : ScriptType) : Genuine d (ofPayload d n t payload) :=
  ⟨h, rfl⟩

lemma genuine_ofKey (n : Network) (t : ScriptType) (publicKey : Bytes) :
    Genuine d (ofKey d n t publicKey) := by
  cases t <;> exact genuine_ofPayload (d.length_hash160 _) n _

@[simp] lemma network_ofKey (n : Network) (t : ScriptType) (publicKey : Bytes) :
    (ofKey d n t publicKey).network = n := by
  cases t <;> rfl

@[simp] lemma scriptType_ofKey (n : Network) (t : ScriptType) (publicKey : Bytes) :
    (ofKey d n t publicKey).scriptType = t := by
  cases t <;> rfl

/-! ### Base58 text -/

/-- The version byte of a network and a script type that is written in Base58. -/
def version (n : Network) : ScriptType → UInt8
  | .p2sh => scriptVersion n
  | _ => keyVersion n

/-- The network that a version byte names: the test network stands for the regression one. -/
def versionNetwork : Network → Network
  | .mainnet => .mainnet
  | _ => .testnet

lemma render_of_base58 {t : ScriptType} (ht : t ≠ .p2wpkh) (n : Network) (payload : Bytes) :
    render d n t payload = Base58.encodeChecked d.sha256 (version n t :: payload) := by
  cases t with
  | p2wpkh => exact absurd rfl ht
  | _ => rfl

lemma render_versionNetwork {t : ScriptType} (ht : t ≠ .p2wpkh) (n : Network)
    (payload : Bytes) : render d (versionNetwork n) t payload = render d n t payload := by
  rw [render_of_base58 ht, render_of_base58 ht]
  cases n <;> cases t <;> rfl

lemma ofVersion?_version {t : ScriptType} (ht : t ≠ .p2wpkh) (n : Network) :
    ofVersion? (version n t) = some (versionNetwork n, t) := by
  cases t with
  | p2wpkh => exact absurd rfl ht
  | _ => cases n <;> rfl

/-- The characters that Base58 text of an address starts with. -/
def firstSymbols : List Char := ['1', '2', '3', 'm', 'n']

/-- Those that it starts with on one network, for one script type. -/
def leadingSymbols : Network → ScriptType → List Char
  | .mainnet, .p2sh => ['3']
  | .mainnet, _ => ['1']
  | _, .p2sh => ['2']
  | _, _ => ['m', 'n']

lemma leadingSymbols_subset (n : Network) (t : ScriptType) : leadingSymbols n t ⊆ firstSymbols := by
  cases n <;> cases t <;> decide

/-- The version byte alone says which, whatever the twenty-four bytes behind it are. -/
lemma exists_head_version (n : Network) (t : ScriptType) {rest : Bytes} (h : rest.length = 24) :
    ∃ c ∈ leadingSymbols n t, (Base58.encodeChars (version n t :: rest)).head? = some c := by
  have hver : version n t = 0x00 ∧ leadingSymbols n t = ['1'] ∨
      version n t = 0x05 ∧ leadingSymbols n t = ['3'] ∨
      version n t = 0x6f ∧ leadingSymbols n t = ['m', 'n'] ∨
      version n t = 0xc4 ∧ leadingSymbols n t = ['2'] := by
    cases n <;> cases t <;> decide
  rcases hver with ⟨hv, hc⟩ | ⟨hv, hc⟩ | ⟨hv, hc⟩ | ⟨hv, hc⟩ <;> rw [hv, hc]
  · exact ⟨'1', by decide, Base58.head_encodeChars_zero rest⟩
  · obtain ⟨x, hlo, hhi, hx⟩ := Base58.exists_head_encodeChars (b := 0x05) (k := 33) (l := 2)
      (u := 2) rest (by decide) (by rw [h]; decide) (by rw [h]; decide) (by omega) (by omega)
    obtain rfl : x = 2 := by omega
    exact ⟨_, by decide, hx⟩
  · obtain ⟨x, hlo, hhi, hx⟩ := Base58.exists_head_encodeChars (b := 0x6f) (k := 33) (l := 44)
      (u := 45) rest (by decide) (by rw [h]; decide) (by rw [h]; decide) (by omega) (by omega)
    obtain rfl | rfl : x = 44 ∨ x = 45 := by omega
    · exact ⟨_, by decide, hx⟩
    · exact ⟨_, by decide, hx⟩
  · obtain ⟨x, hlo, hhi, hx⟩ := Base58.exists_head_encodeChars (b := 0xc4) (k := 34) (l := 1)
      (u := 1) rest (by decide) (by rw [h]; decide) (by rw [h]; decide) (by omega) (by omega)
    obtain rfl : x = 1 := by omega
    exact ⟨_, by decide, hx⟩

lemma exists_head_render {t : ScriptType} (ht : t ≠ .p2wpkh) (n : Network) {payload : Bytes}
    (h : payload.length = 20) :
    ∃ c ∈ leadingSymbols n t, (render d n t payload).toList.head? = some c := by
  rw [render_of_base58 ht, Base58.encodeChecked, Base58.encode, String.toList_ofList,
    List.cons_append]
  refine exists_head_version n t ?_
  rw [List.length_append, h, Base58.length_checksum d.length_sha256]

lemma looksSegwit_eq_false {cs : List Char} {c : Char} (hc : c ∈ firstSymbols)
    (h : cs.head? = some c) : looksSegwit cs = false := by
  have hne : ∀ c ∈ firstSymbols, ('b' == c.toLower) = false ∧ ('t' == c.toLower) = false :=
    List.all_iff_forall_prop.mp (by decide)
  obtain ⟨hb, ht⟩ := hne c hc
  cases cs with
  | nil => simp at h
  | cons c' cs =>
    obtain rfl : c' = c := by simpa using h
    rw [looksSegwit, List.map_cons]
    simp only [List.any_cons, hrp, List.cons_append, List.isPrefixOf, hb, ht, Bool.false_and,
      List.any_nil, Bool.or_false]

/-- A payload behind a known version byte is read on the network that the byte names. -/
lemma decode_base58 {t : ScriptType} (ht : t ≠ .p2wpkh) (n : Network) {payload : Bytes}
    (h : payload.length = 20) :
    decode d (render d n t payload) = .ok (ofPayload d (versionNetwork n) t payload) := by
  obtain ⟨c, hc, hhead⟩ := exists_head_render (d := d) ht n h
  have hread : Base58.decodeChecked d.sha256 (render d n t payload) =
      .ok (version n t :: payload) :=
    (Base58.decodeChecked_eq_ok_iff d.length_sha256).mpr (render_of_base58 ht n payload)
  have hsegwit := looksSegwit_eq_false (leadingSymbols_subset n t hc) hhead
  simp [decode, hsegwit, ofBase58, hread, h, ofVersion?_version ht]

/-! ### Text of a witness program -/

lemma plain_hrp (n : Network) : ∀ c ∈ hrp n, Bech32.Plain c := by
  cases n <;> exact List.all_iff_forall_prop.mp (by decide)

@[simp] lemma networkOfHrp_hrp (n : Network) : networkOfHrp (hrp n) = n := by
  cases n <;> decide

/-- Text of a witness program is told by its human-readable part. -/
lemma looksSegwit_encodeChars {h : List Char} (hplain : ∀ c ∈ h, Bech32.Plain c) {n : Network}
    (hpre : hrp n ++ ['1'] <+: h ++ ['1']) (program : Bytes) :
    looksSegwit (Bech32.encodeChars ⟨h, 0, program⟩) = true := by
  have hlower := Bech32.map_toLower_of_plain (Bech32.plain_encodeChars hplain program)
  rw [looksSegwit, List.any_eq_true]
  refine ⟨n, by cases n <;> decide, ?_⟩
  rw [hlower, List.isPrefixOf_iff_prefix, Bech32.encodeChars_eq]
  exact hpre.trans ⟨_, by rw [List.append_assoc, List.singleton_append]⟩

/-- A program of twenty bytes under any human-readable part that begins like that of a network:
the part alone says on which network it is read. -/
lemma decode_segwit {h : List Char} (hplain : ∀ c ∈ h, Bech32.Plain c) (hshort : h.length ≤ 50)
    {n : Network} (hpre : hrp n ++ ['1'] <+: h ++ ['1']) {program : Bytes}
    (hprog : program.length = 20) :
    decode d (Bech32.encode ⟨h, 0, program⟩) =
      .ok (ofPayload d (networkOfHrp h) .p2wpkh program) := by
  have hne : h ≠ [] := by
    rintro rfl
    have := hpre.length_le
    cases n <;> simp [hrp] at this
  have hlooks := looksSegwit_encodeChars hplain hpre program
  have hread := Bech32.decodeChars_encodeChars hplain hne hshort hprog
  simp [decode, Bech32.encode, hlooks, ofSegwit, Bech32.decode, hread, hprog]

/-! ### Both -/

/-- What is read from the text of genuine parts: the parts, but for a network that the text does
not tell from the test network. -/
theorem decode_render (n : Network) (t : ScriptType) {payload : Bytes}
    (h : payload.length = 20) :
    decode d (render d n t payload) =
      .ok (ofPayload d (if t = .p2wpkh then n else versionNetwork n) t payload) := by
  by_cases ht : t = .p2wpkh
  · subst ht
    have hshort : (hrp n).length ≤ 50 := by cases n <;> decide
    have hread := decode_segwit (d := d) (plain_hrp n) hshort (List.prefix_refl _) h
    rw [networkOfHrp_hrp] at hread
    exact hread
  · rw [if_neg ht, decode_base58 ht n h]

/-- A genuine address is read from its text where its network is expected. -/
theorem Genuine.decodeOn_text {a : Address} (h : Genuine d a) :
    decodeOn d a.text a.network = .ok a := by
  obtain ⟨text, n, t, payload⟩ := a
  obtain ⟨hlen, htext⟩ := h
  simp only at hlen htext
  subst htext
  have hread := decode_render (d := d) n t hlen
  by_cases ht : t = .p2wpkh
  · subst ht
    simp [decodeOn, hread, ofPayload, bind, Except.bind, pure, Except.pure]
  · cases n with
    | regtest =>
      -- The text says the test network; the expected one puts that right.
      simp [decodeOn, hread, ht, ofPayload, versionNetwork, bind, Except.bind, pure, Except.pure]
    | _ =>
      simp [decodeOn, hread, ht, ofPayload, versionNetwork, bind, Except.bind, pure, Except.pure]

/-- **Round trip**: the address of any key or script digest is read back from its text, on its
own network, with all its parts. -/
theorem decodeOn_text_of_encoded (d : Crypto.Digests) (n : Network) :
    (∀ (t : ScriptType) (publicKey : Bytes),
      decodeOn d (ofKey d n t publicKey).text (ofKey d n t publicKey).network =
        .ok (ofKey d n t publicKey)) ∧
    ∀ hash : Bytes, hash.length = 20 →
      ∃ a, ofScriptHash d n hash = .ok a ∧ decodeOn d a.text a.network = .ok a := by
  refine ⟨fun t publicKey => (genuine_ofKey n t publicKey).decodeOn_text, ?_⟩
  intro hash hlen
  refine ⟨ofPayload d n .p2sh hash, ?_, (genuine_ofPayload hlen n .p2sh).decodeOn_text⟩
  rw [ofScriptHash, if_pos hlen]

theorem decodeOn_text_of_zero_script :
    (Bytes.zeros 20).length = 20 ∧
      ∃ a, ofScriptHash .standard .regtest (Bytes.zeros 20) = .ok a ∧
        decodeOn .standard a.text a.network = .ok a :=
  ⟨rfl, (decodeOn_text_of_encoded .standard .regtest).2 (Bytes.zeros 20) rfl⟩

end WatchWallet.Address
