import Mathlib.Data.List.TakeWhile
import WatchWallet.Proofs.Text.Alphabet
import WatchWallet.Proofs.Text.BitGroups
import WatchWallet.Proofs.Text.Checksum

/-!
Reading Bech32 accepts exactly the texts that writing a version zero program gives, in one case.

The separator is the last `1` of a text, since the data symbols have none; so the text as it is
written falls apart into the human-readable part and the data again.
-/

namespace WatchWallet.Bech32

open WatchWallet.BitGroups (regroup Fits fits_eight regroup_regroup_pad regroup_pad_of_regroup)

lemma splitLast?_append {front back : List Char} (h : '1' ∉ back) :
    splitLast? (front ++ '1' :: back) = some (front, back) := by
  have hne : ∀ c ∈ back.reverse, decide (c ≠ '1') = true := by
    intro c hc
    have : c ≠ '1' := fun he => h (he ▸ List.mem_reverse.mp hc)
    simpa using this
  rw [splitLast?, List.reverse_append, List.reverse_cons, List.append_assoc,
    List.takeWhile_append_of_pos hne, List.dropWhile_append_of_pos hne]
  simp

lemma splitLast?_eq_none {cs : List Char} (h : '1' ∉ cs) : splitLast? cs = none := by
  have hd : cs.reverse.dropWhile (· ≠ '1') = [] := by
    rw [List.dropWhile_eq_nil_iff]
    intro c hc
    have : c ≠ '1' := fun he => h (he ▸ List.mem_reverse.mp hc)
    simpa using this
  rw [splitLast?, hd]

lemma splitLast?_eq_some_iff {cs front back : List Char} :
    splitLast? cs = some (front, back) ↔ cs = front ++ '1' :: back ∧ '1' ∉ back := by
  constructor
  · intro h
    by_cases hmem : '1' ∈ cs.reverse
    · obtain ⟨as, bs, hcs, has⟩ := List.eq_append_cons_of_mem hmem
      have has' : '1' ∉ as.reverse := fun hm => has (List.mem_reverse.mp hm)
      have hcs' : cs = bs.reverse ++ '1' :: as.reverse := by
        simpa using congrArg List.reverse hcs
      rw [hcs', splitLast?_append has', Option.some.injEq, Prod.mk.injEq] at h
      obtain ⟨rfl, rfl⟩ := h
      exact ⟨hcs', has'⟩
    · rw [splitLast?_eq_none fun hm => hmem (List.mem_reverse.mpr hm)] at h
      simp at h
  · rintro ⟨rfl, hback⟩
    exact splitLast?_append hback

lemma symbol_ne_one {v : UInt8} (h : v < 32) : symbol v ≠ '1' := by
  intro hs
  have hone : symbolValue? '1' = none := by decide
  have hv := symbolValue?_symbol h
  rw [hs, hone] at hv
  simp at hv

lemma one_not_mem_map_symbol {vs : Bytes} (h : ∀ v ∈ vs, v < 32) : '1' ∉ vs.map symbol := by
  intro hm
  obtain ⟨v, hv, hs⟩ := List.mem_map.mp hm
  exact symbol_ne_one (h v hv) hs

/-! ### Values -/

/-- The data values of a program, before the checksum. -/
def dataValues (version : UInt8) (program : Bytes) : Bytes :=
  version :: (regroup 8 5 true program).groups

/-- What follows the last separator. -/
def dataSymbols (s : Segwit) : List Char :=
  (dataValues s.version s.program ++
    checksum (utf8 s.hrp) (dataValues s.version s.program)).map symbol

lemma encodeChars_eq (s : Segwit) : encodeChars s = s.hrp ++ '1' :: dataSymbols s := rfl

lemma lt_of_mem_groups {program : Bytes} {v : UInt8}
    (h : v ∈ (regroup 8 5 true program).groups) : v < 32 := by
  obtain ⟨gs, k, -, heq, hfit, -⟩ :=
    BitGroups.exists_regroup_pad (by decide : 0 < 5) (by decide) (fits_eight program)
  rw [heq] at h
  exact hfit v h

lemma lt_of_mem_dataValues {program : Bytes} {v : UInt8} (h : v ∈ dataValues 0 program) :
    v < 32 := by
  rcases List.mem_cons.mp h with rfl | h
  · decide
  · exact lt_of_mem_groups h

lemma lt_of_mem_checksum {hrp values : Bytes} {v : UInt8} (h : v ∈ checksum hrp values) :
    v < 32 :=
  lt_of_mem_checkSymbols h

lemma one_not_mem_dataSymbols (hrp : List Char) (program : Bytes) :
    '1' ∉ dataSymbols ⟨hrp, 0, program⟩ := by
  refine one_not_mem_map_symbol fun v hv => ?_
  exact (List.mem_append.mp hv).elim lt_of_mem_dataValues lt_of_mem_checksum

lemma decodeValues_eq_ok_iff {hrp : List Char} {vs cs : Bytes} (hv : ∀ v ∈ vs, v < 32)
    (hlen : cs.length = 6) {s : Segwit} :
    decodeValues hrp (vs ++ cs) = .ok s ↔
      s.hrp = hrp ∧ s.version = 0 ∧ (s.program.length = 20 ∨ s.program.length = 32) ∧
        vs = dataValues 0 s.program := by
  have htake : (vs ++ cs).take ((vs ++ cs).length - 6) = vs := by
    simp [hlen]
  unfold decodeValues
  rw [htake]
  constructor
  · intro h
    cases vs with
    | nil => simp [throw, throwThe, MonadExceptOf.throw] at h
    | cons version groups =>
      simp only [bind, Except.bind, throw, throwThe, MonadExceptOf.throw, pure, Except.pure] at h
      split_ifs at h with hver hfits hprog
      obtain rfl : _ = s := Except.ok.inj h
      have hg : Fits 5 groups := fun v hm => hv v (by simp [hm])
      have hfit : regroup 5 8 false groups = ⟨(regroup 5 8 false groups).groups, true⟩ := by
        have hf : (regroup 5 8 false groups).fits = true := by simpa using hfits
        rw [← hf]
      have hback := regroup_pad_of_regroup (by decide) (by decide) (by decide) hg hfit
      refine ⟨rfl, not_not.mp hver, by simp only; omega, ?_⟩
      rw [dataValues, hback, not_not.mp hver]
  · rintro ⟨rfl, hver, hprog, rfl⟩
    have hback := regroup_regroup_pad (by decide : 0 < 5) (by decide) (by decide)
      (fits_eight s.program)
    have hlen : ¬(s.program.length ≠ 20 ∧ s.program.length ≠ 32) := by omega
    have hs : (⟨s.hrp, 0, s.program⟩ : Segwit) = s := by rw [← hver]
    simp [dataValues, hback, hlen, hs, pure, Except.pure]

/-! ### Texts -/

/-- The lower-case form of a text is read exactly if it is the text that the result writes. -/
theorem decodeLower_eq_ok_iff {cs : List Char} {s : Segwit} :
    decodeLower cs = .ok s ↔
      s.hrp ≠ [] ∧ s.version = 0 ∧ (s.program.length = 20 ∨ s.program.length = 32) ∧
        cs = encodeChars s := by
  constructor
  · intro h
    unfold decodeLower at h
    cases hsplit : splitLast? cs with
    | none => rw [hsplit] at h; simp [throw, throwThe, MonadExceptOf.throw] at h
    | some parts =>
      obtain ⟨hrp, data⟩ := parts
      rw [hsplit] at h
      simp only [throw, throwThe, MonadExceptOf.throw] at h
      split_ifs at h with hshort
      cases hdata : data.mapM symbolValue? with
      | none => rw [hdata] at h; simp at h
      | some values =>
        rw [hdata] at h
        simp only at h
        split_ifs at h with hcheck
        obtain ⟨hlt, rfl⟩ := Alphabet.map_of_mapM (fun _ _ => symbol_of_symbolValue?) hdata
        obtain ⟨hhrp, hsix⟩ : hrp ≠ [] ∧ 6 ≤ values.length := by
          simpa [List.isEmpty_iff, not_or] using hshort
        obtain ⟨vs, six, rfl, hlen⟩ : ∃ vs six, values = vs ++ six ∧ six.length = 6 :=
          ⟨values.take (values.length - 6), values.drop (values.length - 6),
            (List.take_append_drop ..).symm, by rw [List.length_drop]; omega⟩
        have hvs : ∀ v ∈ vs, v < 32 := fun v hv => hlt v (by simp [hv])
        have hlast : ∀ v ∈ six, v < 32 := fun v hv => hlt v (by simp [hv])
        obtain ⟨rfl, hver, hprog, rfl⟩ := (decodeValues_eq_ok_iff hvs hlen).mp h
        obtain rfl := (checks_append_iff _ _ hlast hlen).mp hcheck
        refine ⟨hhrp, hver, hprog, ?_⟩
        rw [encodeChars_eq, dataSymbols, hver]
        exact (splitLast?_eq_some_iff.mp hsplit).1
  · rintro ⟨hhrp, hver, hprog, rfl⟩
    set values := dataValues 0 s.program with hvalues
    set six := checksum (utf8 s.hrp) values with hsix
    have hvs : ∀ v ∈ values, v < 32 := fun v => lt_of_mem_dataValues
    have hlast : ∀ v ∈ six, v < 32 := fun v => lt_of_mem_checksum
    have hlen : six.length = 6 := length_checkSymbols _
    have hlt : ∀ v ∈ values ++ six, v < 32 := by
      intro v hv
      exact (List.mem_append.mp hv).elim (hvs v) (hlast v)
    have hcheck := (checks_append_iff (utf8 s.hrp) values hlast hlen).mpr rfl
    have hmap := Alphabet.mapM_map fun v hv => symbolValue?_symbol (hlt v hv)
    have hok := (decodeValues_eq_ok_iff hvs hlen).mpr ⟨rfl, hver, hprog, rfl⟩
    have hshort : ¬(s.hrp.isEmpty = true ∨ ((values ++ six).map symbol).length < 6) := by
      simp [List.isEmpty_iff, hhrp, hlen]
    rw [encodeChars_eq, dataSymbols, hver, decodeLower,
      splitLast?_append (one_not_mem_map_symbol hlt)]
    simp only [if_neg hshort, hmap, if_pos hcheck, hok]

/-- Short, printable and in one case: what is asked of a text before its parts are looked at. -/
structure WellFormed (cs : List Char) : Prop where
  length_le : (utf8 cs).length ≤ 90
  printable : ∀ c ∈ cs, 33 ≤ c.toNat ∧ c.toNat ≤ 126
  oneCase : ¬((∃ c ∈ cs, c.isLower) ∧ ∃ c ∈ cs, c.isUpper)

/-- **What reading accepts**: a well-formed text whose lower-case form is the text that the
result writes. -/
theorem decodeChars_eq_ok_iff {cs : List Char} {s : Segwit} :
    decodeChars cs = .ok s ↔
      WellFormed cs ∧ s.hrp ≠ [] ∧ s.version = 0 ∧
        (s.program.length = 20 ∨ s.program.length = 32) ∧
        cs.map Char.toLower = encodeChars s := by
  rw [← decodeLower_eq_ok_iff]
  constructor
  · intro h
    unfold decodeChars at h
    simp only [throw, throwThe, MonadExceptOf.throw] at h
    split_ifs at h with hlen hchar hcase
    refine ⟨⟨by omega, ?_, ?_⟩, h⟩
    · intro c hc
      simp only [List.any_eq_true, not_exists, not_and] at hchar
      have := hchar c hc
      simp only [Bool.or_eq_true, decide_eq_true_eq] at this
      omega
    · simpa [List.any_eq_true] using hcase
  · rintro ⟨⟨hlen, hchar, hcase⟩, h⟩
    have hne : cs ≠ [] := by
      rintro rfl
      exact absurd h (by simp [decodeLower, splitLast?, throw, throwThe, MonadExceptOf.throw])
    have hchar' : ¬((cs.any fun c => c.toNat < 33 || 126 < c.toNat) = true) := by
      simp only [List.any_eq_true, not_exists, not_and]
      intro c hc
      have := hchar c hc
      simp only [Bool.or_eq_true, decide_eq_true_eq]
      omega
    have hcase' : ¬((cs.any Char.isLower && cs.any Char.isUpper) = true) := by
      simpa [List.any_eq_true] using hcase
    rw [decodeChars, if_neg (not_or.mpr ⟨hne, by omega⟩), if_neg hchar', if_neg hcase', h]

/-! ### Lower case -/

lemma toLower_eq_one_iff (c : Char) : c.toLower = '1' ↔ c = '1' := by
  by_cases hu : c.val ≥ 'A'.val ∧ c.val ≤ 'Z'.val
  · have h1 : 65 ≤ c.val.toNat := UInt32.le_iff_toNat_le.mp hu.1
    have h2 : c.val.toNat ≤ 90 := UInt32.le_iff_toNat_le.mp hu.2
    have hlower : c.toLower.val = c.val + ('a'.val - 'A'.val) := congrArg Char.val (dif_pos hu)
    have hl : c.toLower.val.toNat = (c.val.toNat + 32) % 2 ^ 32 := by
      rw [hlower]
      exact UInt32.toNat_add _ _
    have hone : ('1' : Char).val.toNat = 49 := rfl
    constructor
    · intro h
      rw [h, hone] at hl
      omega
    · rintro rfl
      omega
  · have hlower : c.toLower = c := dif_neg hu
    rw [hlower]

/-- Printable and not in upper case. -/
def Plain (c : Char) : Prop := 33 ≤ c.toNat ∧ c.toNat ≤ 126 ∧ c.isUpper = false

instance (c : Char) : Decidable (Plain c) := inferInstanceAs (Decidable (_ ∧ _ ∧ _))

lemma Plain.toLower {c : Char} (h : Plain c) : c.toLower = c := by
  have hu : ¬(c.val ≥ 'A'.val ∧ c.val ≤ 'Z'.val) := by
    intro hrange
    have hupper : c.isUpper = true := decide_eq_true hrange
    rw [h.2.2] at hupper
    cases hupper
  exact dif_neg hu

lemma map_toLower_of_plain {cs : List Char} (h : ∀ c ∈ cs, Plain c) :
    cs.map Char.toLower = cs :=
  (List.map_congr_left fun c hc => (h c hc).toLower).trans (List.map_id cs)

lemma length_utf8_of_plain {cs : List Char} (h : ∀ c ∈ cs, Plain c) :
    (utf8 cs).length = cs.length := by
  rw [length_utf8, utf8ByteSize_ofList]
  intro c hc
  rw [Char.utf8Size_eq_one_iff, UInt32.le_iff_toNat_le]
  exact (h c hc).2.1.trans (by decide)

lemma plain_symbol {v : UInt8} (h : v < 32) : Plain (symbol v) := by
  have hall : ∀ c ∈ alphabet, Plain c := List.all_iff_forall_prop.mp (by decide)
  have hv : v.toNat < alphabet.length := by rw [length_alphabet]; exact h
  exact Alphabet.getD_of_forall hall hv _

lemma plain_encodeChars {hrp : List Char} (hhrp : ∀ c ∈ hrp, Plain c) (program : Bytes) :
    ∀ c ∈ encodeChars ⟨hrp, 0, program⟩, Plain c := by
  intro c hc
  rw [encodeChars_eq, dataSymbols, List.mem_append, List.mem_cons, List.mem_map] at hc
  rcases hc with hc | rfl | ⟨v, hv, rfl⟩
  · exact hhrp c hc
  · decide
  · refine plain_symbol ?_
    exact (List.mem_append.mp hv).elim lt_of_mem_dataValues lt_of_mem_checksum

lemma length_dataSymbols (hrp : List Char) (program : Bytes) :
    (dataSymbols ⟨hrp, 0, program⟩).length = (8 * program.length + 4) / 5 + 7 := by
  obtain ⟨gs, k, hk, heq, -, hstream⟩ :=
    BitGroups.exists_regroup_pad (by decide : 0 < 5) (by decide) (fits_eight program)
  have hlen := congrArg List.length hstream
  rw [BitGroups.length_stream, List.length_append, BitGroups.length_stream,
    List.length_replicate] at hlen
  have hsix : ∀ vs, (checksum (utf8 hrp) vs).length = 6 := fun vs => length_checkSymbols _
  simp [dataSymbols, dataValues, heq, hsix]
  omega

lemma length_encodeChars {hrp : List Char} {program : Bytes} (h : program.length = 20) :
    (encodeChars ⟨hrp, 0, program⟩).length = hrp.length + 40 := by
  rw [encodeChars_eq, List.length_append, List.length_cons, length_dataSymbols, h]

/-- What is written for a program of twenty bytes is read back. -/
theorem decodeChars_encodeChars {hrp : List Char} (hhrp : ∀ c ∈ hrp, Plain c) (hne : hrp ≠ [])
    (hshort : hrp.length ≤ 50) {program : Bytes} (h : program.length = 20) :
    decodeChars (encodeChars ⟨hrp, 0, program⟩) = .ok ⟨hrp, 0, program⟩ := by
  have hplain := plain_encodeChars hhrp program
  refine decodeChars_eq_ok_iff.mpr ⟨⟨?_, ?_, ?_⟩, hne, rfl, Or.inl h, map_toLower_of_plain hplain⟩
  · rw [length_utf8_of_plain hplain, length_encodeChars h]
    omega
  · exact fun c hc => ⟨(hplain c hc).1, (hplain c hc).2.1⟩
  · rintro ⟨-, c, hc, hup⟩
    rw [(hplain c hc).2.2] at hup
    simp at hup

end WatchWallet.Bech32
