import WatchWallet.Error
import WatchWallet.Proofs.Text.Bech32
import WatchWallet.Proofs.Text.Distance

/-!
Texts that differ from one that is read by up to four symbols are not read.

Two texts with the same human-readable part check only if the differences of their data symbols
cancel out; and one to four differences never do.
-/

namespace WatchWallet.Bech32

/-- One data character is taken for another, which stands for a different value. -/
def Mistaken (c c' : Char) : Prop :=
  ∃ v v', symbolValue? c.toLower = some v ∧ symbolValue? c'.toLower = some v' ∧ v ≠ v'

/-- Data of which a number of characters are taken for others. -/
inductive Misread : ℕ → List Char → List Char → Prop
  | nil : Misread 0 [] []
  | same {n : ℕ} {cs cs' : List Char} (c : Char) (h : Misread n cs cs') :
      Misread n (c :: cs) (c :: cs')
  | other {n : ℕ} {c c' : Char} {cs cs' : List Char} (hc : Mistaken c c') (h : Misread n cs cs') :
      Misread (n + 1) (c :: cs) (c' :: cs')

lemma Misread.refl (cs : List Char) : Misread 0 cs cs := by
  induction cs with
  | nil => exact .nil
  | cons c _ ih => exact .same c ih

lemma Mistaken.ne_one {c c' : Char} (h : Mistaken c c') : c' ≠ '1' := by
  rintro rfl
  obtain ⟨-, v', -, hv', -⟩ := h
  have hnone : symbolValue? ('1' : Char).toLower = none := by decide
  rw [hnone] at hv'
  cases hv'

lemma Misread.one_not_mem {n : ℕ} {cs cs' : List Char} (h : Misread n cs cs') (hcs : '1' ∉ cs) :
    '1' ∉ cs' := by
  induction h with
  | nil => exact hcs
  | same c _ ih =>
    rw [List.mem_cons, not_or] at hcs ⊢
    exact ⟨hcs.1, ih hcs.2⟩
  | other hc _ ih =>
    rw [List.mem_cons, not_or] at hcs ⊢
    exact ⟨hc.ne_one.symm, ih hcs.2⟩

/-! ### Differences of values -/

lemma symbol_injective {v w : UInt8} (hv : v < 32) (hw : w < 32) (h : symbol v = symbol w) :
    v = w := by
  have heq := symbolValue?_symbol hv
  rw [h, symbolValue?_symbol hw] at heq
  exact (Option.some.inj heq).symm

lemma Mistaken.value_ne {c c' : Char} (h : Mistaken c c') {v v' : UInt8} (hv : v < 32)
    (hv' : v' < 32) (hc : c.toLower = symbol v) (hc' : c'.toLower = symbol v') : v ≠ v' := by
  obtain ⟨w, w', hw, hw', hne⟩ := h
  rw [hc, symbolValue?_symbol hv] at hw
  rw [hc', symbolValue?_symbol hv'] at hw'
  obtain rfl := Option.some.inj hw
  obtain rfl := Option.some.inj hw'
  exact hne

/-- The values of the one text and of the other differ just where a character was mistaken. -/
lemma Misread.differences {n : ℕ} {cs cs' : List Char} (h : Misread n cs cs') {vs vs' : Bytes}
    (hvs : ∀ v ∈ vs, v < 32) (hvs' : ∀ v ∈ vs', v < 32)
    (hcs : cs.map Char.toLower = vs.map symbol) (hcs' : cs'.map Char.toLower = vs'.map symbol) :
    vs.length = vs'.length ∧ (List.zipWith (· ^^^ ·) vs vs').countP (· ≠ 0) = n := by
  induction h generalizing vs vs' with
  | nil =>
    obtain rfl : vs = [] := by simpa using hcs.symm
    obtain rfl : vs' = [] := by simpa using hcs'.symm
    exact ⟨rfl, rfl⟩
  | same c _ ih =>
    obtain ⟨v, ws, rfl, hv, hws⟩ := List.map_eq_cons_iff.mp hcs.symm
    obtain ⟨v', ws', rfl, hv', hws'⟩ := List.map_eq_cons_iff.mp hcs'.symm
    rw [List.forall_mem_cons] at hvs hvs'
    obtain ⟨hlen, hcount⟩ := ih hvs.2 hvs'.2 hws.symm hws'.symm
    obtain rfl := symbol_injective hvs.1 hvs'.1 (hv.trans hv'.symm)
    refine ⟨by rw [List.length_cons, List.length_cons, hlen], ?_⟩
    rw [List.zipWith_cons_cons, List.countP_cons_of_neg (by simp), hcount]
  | other hc _ ih =>
    obtain ⟨v, ws, rfl, hv, hws⟩ := List.map_eq_cons_iff.mp hcs.symm
    obtain ⟨v', ws', rfl, hv', hws'⟩ := List.map_eq_cons_iff.mp hcs'.symm
    rw [List.forall_mem_cons] at hvs hvs'
    obtain ⟨hlen, hcount⟩ := ih hvs.2 hvs'.2 hws.symm hws'.symm
    have hne : v ^^^ v' ≠ 0 :=
      fun hxor => hc.value_ne hvs.1 hvs'.1 hv.symm hv'.symm (UInt8.xor_eq_zero_iff.mp hxor)
    refine ⟨by rw [List.length_cons, List.length_cons, hlen], ?_⟩
    rw [List.zipWith_cons_cons, List.countP_cons_of_pos (by simpa using hne), hcount]

/-- What differs in some values, as errors from the last symbol on. -/
def errors (vs vs' : Bytes) : List ℕ := (Bytes.digits (List.zipWith (· ^^^ ·) vs vs')).reverse

lemma errors_lt {vs vs' : Bytes} (hvs : ∀ v ∈ vs, v < 32) (hvs' : ∀ v ∈ vs', v < 32) :
    ∀ e ∈ errors vs vs', e < 32 := by
  intro e he
  obtain ⟨d, hd, rfl⟩ := List.mem_map.mp (List.mem_reverse.mp he)
  obtain ⟨i, hi, rfl⟩ := List.getElem_of_mem hd
  rw [List.getElem_zipWith, UInt8.toNat_xor]
  exact Nat.xor_lt_two_pow (n := 5) (hvs _ (List.getElem_mem _)) (hvs' _ (List.getElem_mem _))

lemma countP_errors (vs vs' : Bytes) :
    (errors vs vs').countP (· ≠ 0) = (List.zipWith (· ^^^ ·) vs vs').countP (· ≠ 0) := by
  rw [errors, List.countP_reverse, Bytes.digits, List.countP_map]
  refine List.countP_congr fun d _ => ?_
  simp [← UInt8.toNat_inj]

/-- Values that check after the same part leave errors that cancel out. -/
lemma syndrome_errors_of_checks {hrp vs vs' : Bytes} (hlen : vs.length = vs'.length)
    (h : checks hrp vs = true) (h' : checks hrp vs' = true) : syndrome (errors vs vs') = 0 := by
  rw [checks, decide_eq_true_iff, polymod_append] at h h'
  have hxor := polymodFrom_xor (polymod (expandHrp hrp)) (polymod (expandHrp hrp)) hlen
  rw [h, h', UInt32.xor_self, UInt32.xor_self] at hxor
  rw [errors, ← toNat_polymodFrom_zero_eq, hxor]
  rfl

/-- The data of a text that is read, as values. -/
lemma exists_values_of_decode {t : String} {s : Segwit} (h : decode t = .ok s)
    {front back : List Char} (ht : t.toList = front ++ '1' :: back) (hback : '1' ∉ back) :
    ∃ vs : Bytes, back.map Char.toLower = vs.map symbol ∧ (∀ v ∈ vs, v < 32) ∧ vs.length ≤ 59 ∧
      checks (utf8 (front.map Char.toLower)) vs = true := by
  obtain ⟨-, -, hver, hprogram, hlower⟩ := decodeChars_eq_ok_iff.mp h
  obtain ⟨hrp, version, program⟩ := s
  obtain rfl : version = 0 := hver
  have hback' : '1' ∉ back.map Char.toLower := by
    intro hmem
    obtain ⟨c, hc, hone⟩ := List.mem_map.mp hmem
    exact hback ((toLower_eq_one_iff c).mp hone ▸ hc)
  rw [ht, List.map_append, List.map_cons] at hlower
  have hsplit : splitLast? (encodeChars ⟨hrp, 0, program⟩) =
      some (front.map Char.toLower, back.map Char.toLower) := by
    rw [← hlower]
    exact splitLast?_append hback'
  rw [encodeChars_eq, splitLast?_append (one_not_mem_dataSymbols hrp program), Option.some.injEq,
    Prod.mk.injEq] at hsplit
  obtain ⟨rfl, hdata⟩ := hsplit
  have hlast : ∀ v ∈ checksum (utf8 (front.map Char.toLower)) (dataValues 0 program), v < 32 :=
    fun v => lt_of_mem_checksum
  refine ⟨_, hdata.symm, ?_, ?_, (checks_append_iff _ _ hlast (length_checkSymbols _)).mpr rfl⟩
  · exact List.forall_mem_append.mpr ⟨fun v => lt_of_mem_dataValues, hlast⟩
  · have hlen := length_dataSymbols (front.map Char.toLower) program
    rw [dataSymbols, List.length_map] at hlen
    rw [hlen]
    rcases hprogram with h20 | h32
    · simp only [h20]
      decide
    · simp only [h32]
      decide

/-- **Error detection**: a text that is read, with one to four data characters after its last
separator taken for others, is refused as an invalid address. -/
theorem detects_errors {t t' : String} {s : Segwit} {front back back' : List Char} {n : ℕ}
    (h : decode t = .ok s) (ht : t.toList = front ++ '1' :: back) (hback : '1' ∉ back)
    (ht' : t'.toList = front ++ '1' :: back') (hmisread : Misread n back back') (hpos : 0 < n)
    (hfour : n ≤ 4) :
    ∃ fault, decode t' = .error fault ∧ (Error.bech32 fault t').kind = .invalidAddress := by
  rcases h' : decode t' with fault | s'
  · exact ⟨fault, rfl, rfl⟩
  · exfalso
    obtain ⟨vs, hvs, hlt, hlen, hcheck⟩ := exists_values_of_decode h ht hback
    obtain ⟨vs', hvs', hlt', -, hcheck'⟩ :=
      exists_values_of_decode h' ht' (hmisread.one_not_mem hback)
    obtain ⟨hsame, hcount⟩ := hmisread.differences hlt hlt' hvs hvs'
    rw [← countP_errors] at hcount
    refine syndrome_ne_zero (errors_lt hlt hlt') ?_ (by omega) (by omega)
      (syndrome_errors_of_checks hsame hcheck hcheck')
    simp [errors, Bytes.digits]
    omega

/-- Four characters are mistaken, that of the version among them. -/
theorem detects_errors_of_four :
    let t := "bc1qqqqqqqqqqqqqqqqqqqqqqqqqqqqqqqqq9e75rs"
    let t' := "bc1pzryqqqqqqqqqqqqqqqqqqqqqqqqqqqqq9e75rs"
    decode t = .ok ⟨['b', 'c'], 0, Bytes.zeros 20⟩ ∧
      ∃ fault, decode t' = .error fault ∧ (Error.bech32 fault t').kind = .invalidAddress := by
  intro t t'
  have htext : t = encode ⟨['b', 'c'], 0, Bytes.zeros 20⟩ := by decide +kernel
  have hplain : ∀ c ∈ ['b', 'c'], Plain c :=
    List.forall_mem_cons.mpr ⟨by decide, List.forall_mem_singleton.mpr (by decide)⟩
  have hread : decode t = .ok ⟨['b', 'c'], 0, Bytes.zeros 20⟩ := by
    rw [htext, decode, encode, String.toList_ofList]
    exact decodeChars_encodeChars hplain (by decide) (by decide) rfl
  have hsplit : t.toList =
      ['b', 'c'] ++ '1' :: "qqqqqqqqqqqqqqqqqqqqqqqqqqqqqqqqq9e75rs".toList := by
    subst t
    rfl
  have hsplit' : t'.toList =
      ['b', 'c'] ++ '1' :: "pzryqqqqqqqqqqqqqqqqqqqqqqqqqqqqq9e75rs".toList := by
    subst t'
    rfl
  have hmistaken : ∀ c ∈ ['p', 'z', 'r', 'y'], Mistaken 'q' c := by
    simp only [List.forall_mem_cons]
    exact ⟨⟨0, 1, by decide⟩, ⟨0, 2, by decide⟩, ⟨0, 3, by decide⟩, ⟨0, 4, by decide⟩, by simp⟩
  have hmisread : Misread 4 "qqqqqqqqqqqqqqqqqqqqqqqqqqqqqqqqq9e75rs".toList
      "pzryqqqqqqqqqqqqqqqqqqqqqqqqqqqqq9e75rs".toList :=
    .other (hmistaken _ (by decide)) (.other (hmistaken _ (by decide))
      (.other (hmistaken _ (by decide)) (.other (hmistaken _ (by decide)) (.refl _))))
  exact ⟨hread, detects_errors hread hsplit (by decide) hsplit' hmisread (by decide) (by decide)⟩

end WatchWallet.Bech32
