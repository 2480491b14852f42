import Mathlib.Data.List.Basic
import WatchWallet.Crypto.Standard
import WatchWallet.Proofs.Address.RoundTrip

/-!
Which texts are read as an address, and how far the address writes the same text.

Base58 text is always that of the address. Text of a witness program is, in lower case, that of
the address exactly if it has one separator: the part before the first separator is what makes
the text look like a witness program, the part before the last is what names the network, and
a part that names no network is taken for the regression network.
-/

namespace WatchWallet.Address

variable {d : Crypto.Digests}

/-- The address writes the text, or its lower-case form where case does not matter. -/
def Canonical (t : String) (a : Address) : Prop :=
  a.text = if a.scriptType = .p2wpkh then t.toLower else t

instance (t : String) (a : Address) : Decidable (Canonical t a) :=
  inferInstanceAs (Decidable (_ = _))

/-! ### Base58 text -/

lemma version_of_ofVersion? {v : UInt8} {n : Network} {t : ScriptType}
    (h : ofVersion? v = some (n, t)) : v = version n t ∧ t ≠ .p2wpkh := by
  unfold ofVersion? at h
  split_ifs at h with h0 h5 h6 hc
  all_goals
    obtain ⟨rfl, rfl⟩ : _ = n ∧ _ = t := by simpa using h
    exact ⟨by assumption, by decide⟩

lemma of_ofBase58 {t : String} {a : Address} (h : ofBase58 d t = .ok a) :
    Genuine d a ∧ a.scriptType ≠ .p2wpkh ∧ a.text = t := by
  unfold ofBase58 at h
  cases hread : Base58.decodeChecked d.sha256 t with
  | error fault => rw [hread] at h; simp at h
  | ok bytes =>
    rw [hread] at h
    cases bytes with
    | nil => simp at h
    | cons v payload =>
      simp only at h
      split_ifs at h with hlen
      cases hv : ofVersion? v with
      | none => rw [hv] at h; simp at h
      | some parts =>
        obtain ⟨n, s⟩ := parts
        rw [hv] at h
        obtain rfl : ofPayload d n s payload = a := by simpa using h
        obtain ⟨rfl, hs⟩ := version_of_ofVersion? hv
        refine ⟨genuine_ofPayload hlen n s, hs, ?_⟩
        rw [(Base58.decodeChecked_eq_ok_iff d.length_sha256).mp hread]
        exact render_of_base58 hs n payload

/-! ### Text of a witness program -/

/-- Lower case keeps the separators. -/
lemma count_one_map_toLower (cs : List Char) :
    (cs.map Char.toLower).count '1' = cs.count '1' := by
  rw [List.count_eq_countP, List.countP_map, List.count_eq_countP]
  exact List.countP_congr fun c _ => by simp [Bech32.toLower_eq_one_iff]

lemma count_one_encodeChars (h : List Char) (program : Bytes) :
    (Bech32.encodeChars ⟨h, 0, program⟩).count '1' = h.count '1' + 1 := by
  rw [Bech32.encodeChars_eq, List.count_append, List.count_cons_self,
    List.count_eq_zero_of_not_mem (Bech32.one_not_mem_dataSymbols h program)]

lemma one_not_mem_hrp (n : Network) : '1' ∉ hrp n := by
  cases n <;> decide

lemma networkOfHrp_eq_regtest {h : List Char} (h1 : '1' ∈ h) : networkOfHrp h = .regtest := by
  have hm : h ≠ hrp .mainnet := by
    rintro rfl
    exact one_not_mem_hrp _ h1
  have ht : h ≠ hrp .testnet := by
    rintro rfl
    exact one_not_mem_hrp _ h1
  rw [networkOfHrp, if_neg hm, if_neg ht]

/-- What is read of a text that looks like one of a witness program. -/
lemma of_ofSegwit {t : String} {a : Address} (h : ofSegwit d t = .ok a) :
    ∃ (part : List Char) (program : Bytes), program.length = 20 ∧
      t.toList.map Char.toLower = Bech32.encodeChars ⟨part, 0, program⟩ ∧
      a = ofPayload d (networkOfHrp part) .p2wpkh program := by
  unfold ofSegwit at h
  cases hread : Bech32.decode t with
  | error fault => rw [hread] at h; simp at h
  | ok s =>
    rw [hread] at h
    simp only at h
    split_ifs at h with hlen
    obtain ⟨-, -, hver, -, hlower⟩ := Bech32.decodeChars_eq_ok_iff.mp hread
    refine ⟨s.hrp, s.program, hlen, ?_, (Except.ok.inj h).symm⟩
    rw [hlower, ← hver]

/-- Without a second separator, the part is that of a network. -/
lemma exists_hrp_of_looksSegwit {cs part : List Char} {program : Bytes}
    (hlooks : looksSegwit cs = true)
    (hlower : cs.map Char.toLower = Bech32.encodeChars ⟨part, 0, program⟩) (h1 : '1' ∉ part) :
    ∃ n, part = hrp n := by
  rw [looksSegwit, List.any_eq_true] at hlooks
  obtain ⟨n, -, hpre⟩ := hlooks
  rw [hlower, List.isPrefixOf_iff_prefix] at hpre
  obtain ⟨rest, hrest⟩ := hpre
  rw [List.append_assoc, List.singleton_append] at hrest
  have hdata := Bech32.one_not_mem_dataSymbols part program
  exact ⟨n, ((List.append_cons_inj_of_notMem h1 hdata).mp hrest.symm).1⟩

lemma canonical_iff_of_ofSegwit {t : String} {a : Address} (hlooks : looksSegwit t.toList = true)
    (h : ofSegwit d t = .ok a) :
    a.scriptType = .p2wpkh ∧ (Canonical t a ↔ t.toList.count '1' = 1) ∧
      (t.toList.count '1' ≠ 1 → a.network = .regtest) := by
  obtain ⟨part, program, -, hlower, rfl⟩ := of_ofSegwit h
  have hcount := count_one_map_toLower t.toList
  rw [hlower, count_one_encodeChars] at hcount
  refine ⟨rfl, ⟨?_, ?_⟩, ?_⟩
  · intro hcan
    -- The text of the address has one separator, and so has the one that was read.
    have htext : Bech32.encodeChars ⟨hrp (networkOfHrp part), 0, program⟩ =
        t.toList.map Char.toLower := by
      simpa [Canonical, ofPayload, render, Bech32.encode, toLower_eq_ofList]
        using congrArg String.toList hcan
    have hone := count_one_encodeChars (hrp (networkOfHrp part)) program
    rw [htext, hlower, count_one_encodeChars,
      List.count_eq_zero_of_not_mem (one_not_mem_hrp _)] at hone
    omega
  · intro hone
    have hnot : '1' ∉ part := List.count_eq_zero.mp (by omega)
    obtain ⟨n, rfl⟩ := exists_hrp_of_looksSegwit hlooks hlower hnot
    rw [Canonical, ofPayload, if_pos rfl, render, networkOfHrp_hrp, Bech32.encode, ← hlower,
      toLower_eq_ofList]
  · intro hmany
    exact networkOfHrp_eq_regtest (List.count_pos_iff.mp (by omega))

/-! ### Both -/

/-- All that the codec reads from a text is genuine. -/
lemma genuine_of_decode {t : String} {a : Address} (h : decode d t = .ok a) : Genuine d a := by
  unfold decode at h
  split_ifs at h with hlooks
  · obtain ⟨part, program, hlen, -, rfl⟩ := of_ofSegwit h
    exact genuine_ofPayload hlen _ _
  · exact (of_ofBase58 h).1

/-- On an expected network, what is read is that of the text, or its twin on the regression
network. -/
lemma of_decodeOn {t : String} {n : Network} {a : Address} (h : decodeOn d t n = .ok a) :
    a.network = n ∧ ∃ b, decode d t = .ok b ∧ (a = b ∨ b.scriptType ≠ .p2wpkh ∧
      b.network = .testnet ∧ a = ofPayload d .regtest b.scriptType b.payload) := by
  unfold decodeOn at h
  cases hread : decode d t with
  | error e => rw [hread] at h; simp [bind, Except.bind] at h
  | ok b =>
    rw [hread] at h
    simp only [bind, Except.bind, throw, throwThe, MonadExceptOf.throw, pure, Except.pure] at h
    split_ifs at h with hn htwin
    · obtain rfl : b = a := by simpa using h
      exact ⟨hn, b, rfl, Or.inl rfl⟩
    · obtain rfl : _ = a := Except.ok.inj h
      exact ⟨htwin.2.2.symm, b, rfl, Or.inr ⟨htwin.1, htwin.2.1, rfl⟩⟩

lemma genuine_of_decodeOn {t : String} {n : Network} {a : Address}
    (h : decodeOn d t n = .ok a) : Genuine d a := by
  obtain ⟨-, b, hread, rfl | ⟨-, -, rfl⟩⟩ := of_decodeOn h
  · exact genuine_of_decode hread
  · exact genuine_ofPayload (genuine_of_decode hread).length_payload _ _

lemma canonical_iff_of_decode {t : String} {a : Address} (h : decode d t = .ok a) :
    (Canonical t a ↔ (a.scriptType = .p2wpkh → t.toList.count '1' = 1)) ∧
      (¬Canonical t a → a.network = .regtest) := by
  unfold decode at h
  split_ifs at h with hlooks
  · obtain ⟨hs, hcan, hreg⟩ := canonical_iff_of_ofSegwit hlooks h
    exact ⟨by simp [hcan, hs], fun hnot => hreg fun hone => hnot (hcan.mpr hone)⟩
  · obtain ⟨-, hs, htext⟩ := of_ofBase58 h
    have hcan : Canonical t a := by rw [Canonical, if_neg hs, htext]
    exact ⟨by simp [hcan, hs], fun hnot => absurd hcan hnot⟩

lemma canonical_iff_of_decodeOn {t : String} {n : Network} {a : Address}
    (h : decodeOn d t n = .ok a) :
    (Canonical t a ↔ (a.scriptType = .p2wpkh → t.toList.count '1' = 1)) ∧
      (¬Canonical t a → a.network = .regtest) := by
  obtain ⟨-, b, hread, rfl | ⟨hs, hn, rfl⟩⟩ := of_decodeOn h
  · exact canonical_iff_of_decode hread
  · -- The twin of a Base58 address has its text.
    have hb : Canonical t b := (canonical_iff_of_decode hread).1.mpr fun he => absurd he hs
    have htwin := render_versionNetwork (d := d) hs .regtest b.payload
    have hcan : Canonical t (ofPayload d .regtest b.scriptType b.payload) := by
      rw [Canonical, if_neg hs] at hb
      rw [Canonical, ofPayload, if_neg hs, ← hb, (genuine_of_decode hread).text_eq, hn]
      exact htwin.symm
    exact ⟨⟨fun _ he => absurd he hs, fun _ => hcan⟩, fun hnot => absurd hcan hnot⟩

/-- **What a text that is read is to its address**: the text that the address writes, unless it
is that of a witness program and has a second separator; then it is taken for one of the
regression network, whatever its human-readable part. -/
theorem canonical_iff_of_read (d : Crypto.Digests) (t : String) (a : Address) :
    (decode d t = .ok a →
      (Canonical t a ↔ (a.scriptType = .p2wpkh → t.toList.count '1' = 1)) ∧
        (¬Canonical t a → a.network = .regtest)) ∧
    ∀ n, decodeOn d t n = .ok a → a.network = n ∧
      (Canonical t a ↔ (a.scriptType = .p2wpkh → t.toList.count '1' = 1)) ∧
        (¬Canonical t a → a.network = .regtest) :=
  ⟨canonical_iff_of_decode, fun _ h => ⟨(of_decodeOn h).1, canonical_iff_of_decodeOn h⟩⟩

theorem canonical_iff_of_read_zero_program :
    let a := ofPayload .standard .mainnet .p2wpkh (Bytes.zeros 20)
    decode .standard a.text = .ok a ∧ decodeOn .standard a.text .mainnet = .ok a ∧
      a.network = .mainnet ∧
      (Canonical a.text a ↔ (a.scriptType = .p2wpkh → a.text.toList.count '1' = 1)) := by
  intro a
  have hread : decode .standard a.text = .ok a := decode_render .mainnet .p2wpkh rfl
  have hon : decodeOn .standard a.text .mainnet = .ok a :=
    (genuine_ofPayload rfl .mainnet .p2wpkh).decodeOn_text
  obtain ⟨hdecode, hdecodeOn⟩ := canonical_iff_of_read .standard a.text a
  exact ⟨hread, hon, (hdecodeOn .mainnet hon).1, (hdecode hread).1⟩

/-- Any part that goes on after that of a network and a separator stands for the regression
network. -/
theorem decode_of_second_separator (d : Crypto.Digests) (n : Network) {rest : List Char}
    (hplain : ∀ c ∈ rest, Bech32.Plain c) (hshort : rest.length ≤ 45) {program : Bytes}
    (hprog : program.length = 20) :
    decode d (Bech32.encode ⟨hrp n ++ '1' :: rest, 0, program⟩) =
      .ok (ofPayload d .regtest .p2wpkh program) := by
  have hpart : ∀ c ∈ hrp n ++ '1' :: rest, Bech32.Plain c := by
    intro c hc
    rw [List.mem_append, List.mem_cons] at hc
    rcases hc with hc | rfl | hc
    · exact plain_hrp n c hc
    · decide
    · exact hplain c hc
  have hlen : (hrp n ++ '1' :: rest).length ≤ 50 := by
    have : (hrp n).length ≤ 4 := by cases n <;> decide
    rw [List.length_append, List.length_cons]
    omega
  have hpre : hrp n ++ ['1'] <+: (hrp n ++ '1' :: rest) ++ ['1'] :=
    ⟨rest ++ ['1'], by simp⟩
  rw [decode_segwit hpart hlen hpre hprog, networkOfHrp_eq_regtest (by simp)]

/-- A text whose part is that of no network, and what it is read as. -/
theorem not_canonical_second_separator :
    decode .standard "bc1x1qqqqqqqqqqqqqqqqqqqqqqqqqqqqqqqqqpp3snm" =
        .ok (ofPayload .standard .regtest .p2wpkh (Bytes.zeros 20)) ∧
      decodeOn .standard "bc1x1qqqqqqqqqqqqqqqqqqqqqqqqqqqqqqqqqpp3snm" .regtest =
        .ok (ofPayload .standard .regtest .p2wpkh (Bytes.zeros 20)) ∧
      ¬Canonical "bc1x1qqqqqqqqqqqqqqqqqqqqqqqqqqqqqqqqqpp3snm"
        (ofPayload .standard .regtest .p2wpkh (Bytes.zeros 20)) := by
  have htext : "bc1x1qqqqqqqqqqqqqqqqqqqqqqqqqqqqqqqqqpp3snm" =
      Bech32.encode ⟨hrp .mainnet ++ '1' :: ['x'], 0, Bytes.zeros 20⟩ := by decide +kernel
  have hplain : ∀ c ∈ ['x'], Bech32.Plain c := List.forall_mem_singleton.mpr (by decide)
  have hread := decode_of_second_separator .standard .mainnet hplain (by decide)
    (rfl : (Bytes.zeros 20).length = 20)
  rw [← htext] at hread
  have hcan := canonical_iff_of_decode hread
  refine ⟨hread, ?_, ?_⟩
  · simp [decodeOn, hread, ofPayload, bind, Except.bind, pure, Except.pure]
  · rw [hcan.1]
    decide

end WatchWallet.Address
