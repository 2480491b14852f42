import WatchWallet.Error
import WatchWallet.Proofs.Text.Bech32

/-!
The texts that stand for a witness program of version zero.

They are told by their bytes, by their case and by what writing the program gives. Every other text
is refused as no valid address.
-/

namespace WatchWallet.Bech32

lemma printable_utf8EncodeChar_iff (c : Char) :
    (∀ b ∈ String.utf8EncodeChar c, 33 ≤ b ∧ b ≤ 126) ↔ 33 ≤ c.toNat ∧ c.toNat ≤ 126 := by
  rcases Nat.lt_or_ge 127 c.toNat with h | h
  · obtain ⟨b, hb, hhigh⟩ := exists_continuation h
    refine iff_of_false (fun hall => ?_) (by omega)
    have hle : b.toNat ≤ 126 := UInt8.le_iff_toNat_le.mp (hall b hb).2
    omega
  · have hn : (UInt8.ofNat c.toNat).toNat = c.toNat := by
      rw [UInt8.toNat_ofNat']
      omega
    simp [utf8EncodeChar_of_le h, UInt8.le_iff_toNat_le, hn]

/-- The bytes of a text are printable if its characters are. -/
lemma printable_utf8_iff (cs : List Char) :
    (∀ b ∈ utf8 cs, 33 ≤ b ∧ b ≤ 126) ↔ ∀ c ∈ cs, 33 ≤ c.toNat ∧ c.toNat ≤ 126 := by
  rw [utf8, List.forall_mem_flatMap]
  exact forall₂_congr fun c _ => printable_utf8EncodeChar_iff c

/-- The text stands for a program: it is short, of printable bytes and in one case, and in lower
case it is what is written for the program. -/
structure StandsFor (t : String) (hrp : List Char) (program : Bytes) : Prop where
  length_le : (utf8 t.toList).length ≤ 90
  printable : ∀ b ∈ utf8 t.toList, 33 ≤ b ∧ b ≤ 126
  oneCase : ¬((∃ c ∈ t.toList, c.isLower) ∧ ∃ c ∈ t.toList, c.isUpper)
  hrp_ne : hrp ≠ []
  program_length : program.length = 20 ∨ program.length = 32
  toLower_eq : t.toLower = encode ⟨hrp, 0, program⟩

lemma decode_eq_ok_iff {t : String} {s : Segwit} :
    decode t = .ok s ↔ s.version = 0 ∧ StandsFor t s.hrp s.program := by
  have hlower : t.toLower = encode ⟨s.hrp, 0, s.program⟩ ↔
      t.toList.map Char.toLower = encodeChars ⟨s.hrp, 0, s.program⟩ := by
    rw [toLower_eq_ofList, encode, String.ofList_inj]
  rw [decode, decodeChars_eq_ok_iff]
  constructor
  · rintro ⟨⟨hlen, hprintable, hcase⟩, hhrp, hver, hprogram, heq⟩
    refine ⟨hver, hlen, (printable_utf8_iff _).mpr hprintable, hcase, hhrp, hprogram, ?_⟩
    rw [hlower, heq, ← hver]
  · rintro ⟨hver, hlen, hprintable, hcase, hhrp, hprogram, heq⟩
    refine ⟨⟨hlen, (printable_utf8_iff _).mp hprintable, hcase⟩, hhrp, hver, hprogram, ?_⟩
    rw [hlower.mp heq, ← hver]

/-- **Which texts are read**: a text is read as a program of version zero just if it stands for
it, and every text that is not read so is refused as an invalid address. -/
theorem reads_iff_standsFor (t : String) :
    (∀ hrp program, decode t = .ok ⟨hrp, 0, program⟩ ↔ StandsFor t hrp program) ∧
      ((∃ hrp program, decode t = .ok ⟨hrp, 0, program⟩) ∨
        ∃ fault, decode t = .error fault ∧ (Error.bech32 fault t).kind = .invalidAddress) := by
  refine ⟨fun hrp program => ?_, ?_⟩
  · rw [decode_eq_ok_iff]
    exact and_iff_right rfl
  · rcases h : decode t with fault | ⟨hrp, version, program⟩
    · exact Or.inr ⟨fault, rfl, rfl⟩
    · obtain ⟨rfl, -⟩ := decode_eq_ok_iff.mp h
      exact Or.inl ⟨hrp, program, rfl⟩

example : (decode "A11QQQQQQQQQQQQQQQQQQQQQQQQQQQQQQQQQNDUV9F").toOption =
    some ⟨['a', '1'], 0, Bytes.zeros 20⟩ := by
  decide +kernel

end WatchWallet.Bech32
