import WatchWallet.Json.Parser
import WatchWallet.Json.Printer
import WatchWallet.Proofs.Hex
import WatchWallet.Proofs.Radix

/-!
JSON text is read back as the value that it writes.

A token ends where the next character cannot continue it. Only a number has no mark of its end, so
what follows a value must not continue a number; in a text that is the end, a blank, a comma or a
closing bracket. The blanks of a layout stand where the reader passes over blanks. The reader's fuel
is more than the length of the text, and what is nested in a value is shorter.
-/

namespace WatchWallet.Json

lemma skipBlank_cons {c : Char} (h : isBlank c = false) (cs : List Char) :
    skipBlank (c :: cs) = c :: cs := by
  rw [skipBlank, List.dropWhile_cons, h]
  rfl

lemma skipBlank_append {bs : List Char} (h : ∀ c ∈ bs, isBlank c = true) (cs : List Char) :
    skipBlank (bs ++ cs) = skipBlank cs :=
  List.dropWhile_append_of_pos h

/-! ### Layout -/

lemma isBlank_of_mem_lead {indent : Option ℕ} {depth : ℕ} {c : Char} (h : c ∈ lead indent depth) :
    isBlank c = true := by
  cases indent with
  | none => cases h
  | some n =>
    rcases List.mem_cons.mp h with rfl | h
    · rfl
    · obtain rfl := List.eq_of_mem_replicate h
      rfl

lemma isBlank_of_mem_gap {indent : Option ℕ} {c : Char} (h : c ∈ gap indent) :
    isBlank c = true := by
  cases indent with
  | none => cases h
  | some n =>
    obtain rfl := List.mem_singleton.mp h
    rfl

@[simp] lemma skipBlank_lead (indent : Option ℕ) (depth : ℕ) (cs : List Char) :
    skipBlank (lead indent depth ++ cs) = skipBlank cs :=
  skipBlank_append (fun _ => isBlank_of_mem_lead) cs

/-! ### Strings -/

/-- The piece that the escape of a character is read as. -/
def piece (c : Char) : Piece :=
  if escapeLetter? c = none ∧ c.toNat < 32 then .unit c.toNat else .char c

/-- What is escaped by a letter is read back from it. -/
lemma readPieces_letter {c letter : Char} (h : escapeLetter? c = some letter) (cs : List Char) :
    readPieces ('\\' :: letter :: cs) = (readPieces cs).map fun p => (.char c :: p.1, p.2) := by
  unfold escapeLetter? at h
  split at h
  case h_8 => cases h
  all_goals
    obtain rfl := Option.some.inj h
    cases hcs : readPieces cs <;> simp [readPieces, unescape?, hcs]

lemma ne_of_escapeLetter?_eq_none {c : Char} (h : escapeLetter? c = none) :
    c ≠ '\x22' ∧ c ≠ '\\' := by
  constructor <;> (rintro rfl; cases h)

lemma codeUnit?_encodeByte {n : Nat} (h : n < 32) :
    codeUnit? '0' '0' (Hex.digit (n / 16)) (Hex.digit (n % 16)) = some n := by
  have hall : ∀ n < 32, codeUnit? '0' '0' (Hex.digit (n / 16)) (Hex.digit (n % 16)) = some n := by
    decide
  exact hall n h

lemma readPieces_escape (c : Char) (cs : List Char) :
    readPieces (escape c ++ cs) = (readPieces cs).map fun p => (piece c :: p.1, p.2) := by
  cases hletter : escapeLetter? c with
  | some letter => simp [escape, piece, hletter, readPieces_letter hletter]
  | none =>
    obtain ⟨hquote, hslash⟩ := ne_of_escapeLetter?_eq_none hletter
    by_cases hlow : c.toNat < 32
    · have hbyte : (UInt8.ofNat c.toNat).toNat = c.toNat := by
        rw [UInt8.toNat_ofNat']
        omega
      cases h : readPieces cs <;>
        simp [escape, piece, readPieces, hletter, hlow, Hex.encodeByte, hbyte,
          codeUnit?_encodeByte hlow, h]
    · cases h : readPieces cs <;>
        simp [escape, piece, readPieces, hletter, hslash, hlow, h]

lemma readPieces_flatMap_escape (s rest : List Char) :
    readPieces (s.flatMap escape ++ '\x22' :: rest) = some (s.map piece, rest) := by
  induction s with
  | nil => simp [readPieces]
  | cons c s ih => rw [List.flatMap_cons, List.append_assoc, readPieces_escape, ih]; rfl

lemma joinPieces_map_piece (s : List Char) : joinPieces (s.map piece) = some s := by
  induction s with
  | nil => rfl
  | cons c s ih =>
    rw [List.map_cons, piece]
    split_ifs with h
    · have hhigh : isHighSurrogate c.toNat = false := by simp [isHighSurrogate]; omega
      have hlow : isLowSurrogate c.toNat = false := by simp [isLowSurrogate]; omega
      rw [joinPieces.eq_def]
      simp [hhigh, hlow, ih, Char.ofNat_toNat]
    · simp [joinPieces, ih]

lemma readString_flatMap_escape (s rest : List Char) :
    readString (s.flatMap escape ++ '\x22' :: rest) = some (s, rest) := by
  simp [readString, readPieces_flatMap_escape, joinPieces_map_piece]

/-! ### Numbers -/

/-- Does not continue a number. -/
def Stops (cs : List Char) : Prop :=
  ∀ c, cs.head? = some c → c.isDigit = false ∧ c ≠ '.' ∧ c ≠ 'e' ∧ c ≠ 'E'

lemma stops_nil : Stops [] := fun _ h => nomatch h

lemma stops_cons {c : Char} {cs : List Char} :
    Stops (c :: cs) ↔ c.isDigit = false ∧ c ≠ '.' ∧ c ≠ 'e' ∧ c ≠ 'E' := by
  simp [Stops]

lemma isDigit_digit {n : Nat} (h : n < 10) :
    (Hex.digit n).isDigit = true ∧ (Hex.digit n).toNat - 48 = n ∧ (Hex.digit n = '0' → n = 0) := by
  have hall : ∀ n < 10, (Hex.digit n).isDigit = true ∧ (Hex.digit n).toNat - 48 = n ∧
      (Hex.digit n = '0' → n = 0) := by decide
  exact hall n h

lemma isDigit_of_mem_natChars {n : Nat} {c : Char} (h : c ∈ natChars n) : c.isDigit = true := by
  rw [natChars] at h
  split_ifs at h
  · obtain rfl := List.mem_singleton.mp h
    rfl
  · obtain ⟨d, hd, rfl⟩ := List.mem_map.mp h
    exact (isDigit_digit (Radix.lt_of_mem_digits (by decide) (List.mem_reverse.mp hd))).1

lemma natOfDigits_map_digit {ds : List Nat} (h : ∀ d ∈ ds, d < 10) :
    natOfDigits (ds.reverse.map Hex.digit) = Radix.value 10 ds := by
  induction ds with
  | nil => rfl
  | cons d ds ih =>
    have hd := (isDigit_digit (h d (by simp))).2.1
    have ih := ih fun e he => h e (by simp [he])
    rw [natOfDigits] at ih ⊢
    rw [List.reverse_cons, List.map_append, List.foldl_append, ih]
    simp only [List.map_cons, List.map_nil, List.foldl_cons, List.foldl_nil, hd, Radix.value_cons]
    omega

lemma natOfDigits_natChars (n : Nat) : natOfDigits (natChars n) = n := by
  rw [natChars]
  split_ifs with hn
  · rw [hn]
    rfl
  · rw [natOfDigits_map_digit fun d hd => Radix.lt_of_mem_digits (by decide) hd,
      Radix.value_digits (by decide)]

/-- A number starts with a digit, and with a zero only if it is zero. -/
lemma exists_natChars (n : Nat) :
    ∃ c cs, natChars n = c :: cs ∧ c.isDigit = true ∧ (c = '0' → cs = []) := by
  have hdigit : ∀ c ∈ natChars n, c.isDigit = true := fun c => isDigit_of_mem_natChars
  rw [natChars] at hdigit ⊢
  split_ifs at hdigit ⊢ with hn
  · exact ⟨'0', [], rfl, rfl, fun _ => rfl⟩
  · have hlead := Radix.leading_digits (b := 10) (by decide) n
    cases hds : (Radix.digits 10 n).reverse with
    | nil =>
      rw [Radix.digits_of_pos (by decide) hn] at hds
      simp at hds
    | cons d ds =>
      rw [hds] at hlead hdigit
      refine ⟨Hex.digit d, ds.map Hex.digit, rfl, hdigit _ (by simp), fun hzero => ?_⟩
      have hd : d < 10 :=
        Radix.lt_of_mem_digits (by decide) (List.mem_reverse.mp (hds ▸ List.mem_cons_self))
      obtain rfl := (isDigit_digit hd).2.2 hzero
      simp at hlead

lemma takeWhile_isDigit {ds rest : List Char} (hds : ∀ c ∈ ds, c.isDigit = true)
    (hrest : ∀ c, rest.head? = some c → c.isDigit = false) :
    (ds ++ rest).takeWhile Char.isDigit = ds ∧ (ds ++ rest).dropWhile Char.isDigit = rest := by
  rw [List.takeWhile_append_of_pos hds, List.dropWhile_append_of_pos hds]
  cases rest with
  | nil => simp
  | cons c rest => simp [hrest c rfl]

lemma readWhole_natChars (n : Nat) {rest : List Char}
    (hrest : ∀ c, rest.head? = some c → c.isDigit = false) :
    readWhole (natChars n ++ rest) = some (natChars n, rest) := by
  obtain ⟨htake, hdrop⟩ := takeWhile_isDigit (fun c => isDigit_of_mem_natChars (n := n)) hrest
  obtain ⟨c, cs, hcs, -, hzero⟩ := exists_natChars n
  rw [hcs] at htake hdrop ⊢
  by_cases hc : c = '0'
  · rw [hzero hc, hc]
    rfl
  · rw [List.cons_append] at htake hdrop ⊢
    rw [readWhole, htake, hdrop]
    · rfl
    · simpa using hc

lemma readExponentDigits_natChars (negative : Bool) (n : Nat) {rest : List Char}
    (hrest : Stops rest) :
    readExponentDigits negative (natChars n ++ rest) =
      some (if negative then -(n : Int) else n, rest) := by
  obtain ⟨htake, hdrop⟩ := takeWhile_isDigit (fun c => isDigit_of_mem_natChars (n := n))
    fun c hc => (hrest c hc).1
  obtain ⟨c, cs, hcs, -⟩ := exists_natChars n
  have hne : (natChars n).isEmpty = false := by rw [hcs]; rfl
  simp [readExponentDigits, htake, hdrop, hne, natOfDigits_natChars]

lemma readFraction_of_stops {rest : List Char} (h : ∀ c, rest.head? = some c → c ≠ '.') :
    readFraction rest = some ([], rest) := by
  cases rest with
  | nil => rfl
  | cons c rest =>
    rw [readFraction]
    simpa using h c rfl

lemma readExponent_of_stops {rest : List Char} (h : Stops rest) :
    readExponent rest = some (none, rest) := by
  cases rest with
  | nil => rfl
  | cons c rest =>
    obtain ⟨-, -, hlower, hupper⟩ := h c rfl
    simp [readExponent, hlower, hupper]

lemma readExponent_intChars (n : Int) {rest : List Char} (hrest : Stops rest) :
    readExponent ('e' :: (intChars n ++ rest)) = some (some n, rest) := by
  rw [intChars]
  split_ifs with hn
  · have hneg : -|n| = n := by rw [abs_of_neg hn, neg_neg]
    simp [readExponent, readExponentDigits_natChars true n.natAbs hrest, hneg]
  · have hpos : |n| = n := abs_of_nonneg (by omega)
    obtain ⟨c, cs, hcs, hdigit, -⟩ := exists_natChars n.natAbs
    have hread := readExponentDigits_natChars false n.natAbs hrest
    rw [hcs, List.cons_append] at hread ⊢
    have hminus : c ≠ '-' := by rintro rfl; cases hdigit
    have hplus : c ≠ '+' := by rintro rfl; cases hdigit
    simp [readExponent, hminus, hplus, hread, hpos]

lemma readUnsignedNumber_integer {negative : Bool} {n : Nat}
    (hfinite : Decimal.isFinite ⟨negative, n, 0⟩ = true) {rest : List Char} (hrest : Stops rest) :
    readUnsignedNumber negative (natChars n ++ rest) =
      some (.integer (if negative then -(n : Int) else n), rest) := by
  simp [readUnsignedNumber, readWhole_natChars n fun c hc => (hrest c hc).1,
    readFraction_of_stops fun c hc => (hrest c hc).2.1, readExponent_of_stops hrest,
    natOfDigits_natChars, hfinite]

lemma readUnsignedNumber_decimal {d : Decimal} (hfinite : d.isFinite = true) {rest : List Char}
    (hrest : Stops rest) :
    readUnsignedNumber d.negative (natChars d.digits ++ 'e' :: (intChars d.exponent ++ rest)) =
      some (.decimal d, rest) := by
  have hhead : ∀ c, ('e' :: (intChars d.exponent ++ rest)).head? = some c → c = 'e' := by
    intro c hc
    exact (Option.some.inj hc).symm
  have hwhole := readWhole_natChars d.digits fun c hc => by rw [hhead c hc]; rfl
  have hfraction := readFraction_of_stops fun c hc => by rw [hhead c hc]; decide
  simp [readUnsignedNumber, hwhole, hfraction, readExponent_intChars d.exponent hrest,
    natOfDigits_natChars, hfinite]

lemma readNumber_natChars (n : Nat) (rest : List Char) :
    readNumber (natChars n ++ rest) = readUnsignedNumber false (natChars n ++ rest) := by
  obtain ⟨c, cs, hcs, hdigit, -⟩ := exists_natChars n
  rw [hcs, List.cons_append, readNumber]
  rintro cs' hcs'
  obtain ⟨rfl, -⟩ := List.cons.inj hcs'
  cases hdigit

/-! ### Values -/

/-- All numbers in the value round to a finite double, and no name stands for two members of an
object. -/
inductive Printable : Json → Prop
  | null : Printable .null
  | bool (b : Bool) : Printable (.bool b)
  | integer {n : Int} (h : Decimal.isFinite ⟨n < 0, n.natAbs, 0⟩ = true) : Printable (.integer n)
  | decimal {d : Decimal} (h : d.isFinite = true) : Printable (.decimal d)
  | string (s : String) : Printable (.string s)
  | array {vs : List Json} (h : ∀ v ∈ vs, Printable v) : Printable (.array vs)
  | object {ms : List (String × Json)} (hnames : (ms.map Prod.fst).Nodup)
      (h : ∀ m ∈ ms, Printable m.2) : Printable (.object ms)

lemma lastOfEach_of_nodup {ms : List (String × Json)} (h : (ms.map Prod.fst).Nodup) :
    lastOfEach ms = ms := by
  induction ms with
  | nil => rfl
  | cons m ms ih =>
    obtain ⟨k, v⟩ := m
    obtain ⟨hk, hms⟩ := List.nodup_cons.mp h
    have hnone : ms.lookup k = none := by
      rw [List.lookup_eq_none_iff]
      intro m hm
      have hne : m.1 ≠ k := by
        rintro rfl
        exact hk (List.mem_map.mpr ⟨m, hm, rfl⟩)
      simpa using hne.symm
    simp [lastOfEach, hnone, ih hms]

/-- The first character of a number. -/
def StartsNumber (c : Char) : Prop := c.isDigit = true ∨ c = '-'

lemma StartsNumber.ne {c d : Char} (h : StartsNumber c) (hdigit : d.isDigit = false)
    (hminus : d ≠ '-') : c ≠ d := by
  rintro rfl
  rcases h with h | h
  · rw [h] at hdigit
    cases hdigit
  · exact hminus h

lemma StartsNumber.isBlank {c : Char} (h : StartsNumber c) : isBlank c = false := by
  simp [Json.isBlank, h.ne (d := ' ') rfl (by decide), h.ne (d := '\t') rfl (by decide),
    h.ne (d := '\n') rfl (by decide), h.ne (d := '\r') rfl (by decide)]

lemma readValue_of_startsNumber {c : Char} (h : StartsNumber c) (fuel : Nat) (cs : List Char) :
    readValue (fuel + 1) (c :: cs) = readNumber (c :: cs) := by
  rw [readValue, skipBlank_cons h.isBlank]
  split
  all_goals first
    | rfl
    | rename_i heq
      exact absurd (List.cons.inj heq).1 (h.ne rfl (by decide))

lemma exists_intChars (n : Int) : ∃ c cs, intChars n = c :: cs ∧ StartsNumber c := by
  rw [intChars]
  split_ifs
  · exact ⟨'-', natChars n.natAbs, rfl, Or.inr rfl⟩
  · obtain ⟨c, cs, hcs, hdigit, -⟩ := exists_natChars n.natAbs
    exact ⟨c, cs, hcs, Or.inl hdigit⟩

lemma exists_decimalChars (d : Decimal) : ∃ c cs, decimalChars d = c :: cs ∧ StartsNumber c := by
  rw [decimalChars]
  split_ifs
  · exact ⟨'-', _, rfl, Or.inr rfl⟩
  · obtain ⟨c, cs, hcs, hdigit, -⟩ := exists_natChars d.digits
    exact ⟨c, _, by rw [hcs]; rfl, Or.inl hdigit⟩

/-- Blanks before a value are passed over. -/
lemma readValue_append {bs : List Char} (h : ∀ c ∈ bs, isBlank c = true) (fuel : ℕ)
    (cs : List Char) : readValue fuel (bs ++ cs) = readValue fuel cs := by
  cases fuel with
  | zero => rfl
  | succ fuel => rw [readValue, readValue, skipBlank_append h]

section Layout

variable {indent : Option ℕ}

@[simp] lemma readValue_lead (depth fuel : ℕ) (cs : List Char) :
    readValue fuel (lead indent depth ++ cs) = readValue fuel cs :=
  readValue_append (fun _ => isBlank_of_mem_lead) fuel cs

@[simp] lemma readValue_gap (fuel : ℕ) (cs : List Char) :
    readValue fuel (gap indent ++ cs) = readValue fuel cs :=
  readValue_append (fun _ => isBlank_of_mem_gap) fuel cs

@[simp] lemma readItems_lead (depth fuel : ℕ) (cs : List Char) :
    readItems fuel (lead indent depth ++ cs) = readItems fuel cs := by
  cases fuel with
  | zero => rfl
  | succ fuel => rw [readItems, readItems, readValue_lead]

@[simp] lemma readMembers_lead (depth fuel : ℕ) (cs : List Char) :
    readMembers fuel (lead indent depth ++ cs) = readMembers fuel cs := by
  cases fuel with
  | zero => rfl
  | succ fuel => rw [readMembers, readMembers, skipBlank_lead]

variable (indent) in
/-- The reader gets the value back from its text, whatever follows it. -/
def Reads (v : Json) : Prop :=
  ∀ depth fuel rest, (chars indent depth v).length ≤ fuel → Stops rest →
    readValue fuel (chars indent depth v ++ rest) = some (v, rest)

section Heads

variable (indent)

/-- No text starts with a blank, with a bracket that closes an array, or with a byte order mark. -/
lemma exists_chars (depth : ℕ) (v : Json) :
    ∃ c cs, chars indent depth v = c :: cs ∧ isBlank c = false ∧ c ≠ ']' ∧ c ≠ '\ufeff' := by
  have hnumber : ∀ {c}, StartsNumber c → isBlank c = false ∧ c ≠ ']' ∧ c ≠ '\ufeff' :=
    fun h => ⟨h.isBlank, h.ne rfl (by decide), h.ne rfl (by decide)⟩
  cases v with
  | integer n =>
    obtain ⟨c, cs, hcs, hc⟩ := exists_intChars n
    exact ⟨c, cs, by rw [chars, hcs], hnumber hc⟩
  | decimal d =>
    obtain ⟨c, cs, hcs, hc⟩ := exists_decimalChars d
    exact ⟨c, cs, by rw [chars, hcs], hnumber hc⟩
  | null => exact ⟨_, _, by rw [chars], by decide⟩
  | bool b => cases b <;> exact ⟨_, _, by rw [chars], by decide⟩
  | string s => exact ⟨_, _, by rw [chars, quote, List.cons_append], by decide⟩
  | array vs =>
    cases vs with
    | nil => exact ⟨_, _, by rw [chars], by decide⟩
    | cons v vs => exact ⟨_, _, by rw [chars, List.cons_append, List.cons_append], by decide⟩
  | object ms =>
    cases ms with
    | nil => exact ⟨_, _, by rw [chars], by decide⟩
    | cons m ms =>
      refine ⟨'\x7b', lead indent (depth + 1) ++ quote m.1.toList ++ ':' :: gap indent ++
        chars indent (depth + 1) m.2 ++ memberChars indent depth ms, ?_, by decide⟩
      rw [chars]
      rfl

lemma length_chars_pos (depth : ℕ) (v : Json) : 0 < (chars indent depth v).length := by
  obtain ⟨c, cs, hcs, -⟩ := exists_chars indent depth v
  rw [hcs]
  exact Nat.succ_pos _

lemma stops_lead {depth : ℕ} {cs : List Char} (h : Stops cs) : Stops (lead indent depth ++ cs) := by
  cases indent with
  | none => exact h
  | some n => simp [lead, stops_cons]

lemma stops_itemChars (depth : ℕ) (vs : List Json) (rest : List Char) :
    Stops (itemChars indent depth vs ++ rest) ∧ 0 < (itemChars indent depth vs).length := by
  cases vs with
  | nil =>
    rw [itemChars, List.append_assoc]
    exact ⟨stops_lead indent (by simp [stops_cons]), by simp⟩
  | cons v vs => simp [itemChars, stops_cons]

lemma stops_memberChars (depth : ℕ) (ms : List (String × Json)) (rest : List Char) :
    Stops (memberChars indent depth ms ++ rest) ∧ 0 < (memberChars indent depth ms).length := by
  cases ms with
  | nil =>
    rw [memberChars, List.append_assoc]
    exact ⟨stops_lead indent (by simp [stops_cons]), by simp⟩
  | cons m ms => simp [memberChars, stops_cons]

end Heads

/-- A text is never empty, so there is fuel for a first step. -/
lemma reads_of_succ {v : Json} (h : ∀ depth fuel rest, (chars indent depth v).length ≤ fuel + 1 →
    Stops rest → readValue (fuel + 1) (chars indent depth v ++ rest) = some (v, rest)) :
    Reads indent v := by
  intro depth fuel rest hfuel hrest
  cases fuel with
  | zero => exact absurd (length_chars_pos indent depth v) (Nat.not_lt.mpr hfuel)
  | succ fuel => exact h depth fuel rest hfuel hrest

lemma reads_of_startsNumber {v : Json} {c : Char} {cs : List Char}
    (hcs : ∀ depth, chars indent depth v = c :: cs) (hc : StartsNumber c)
    (h : ∀ rest, Stops rest → readNumber (c :: cs ++ rest) = some (v, rest)) :
    Reads indent v := by
  refine reads_of_succ fun depth fuel rest _ hrest => ?_
  rw [← h rest hrest, hcs, List.cons_append, readValue_of_startsNumber hc]

lemma reads_integer {n : Int} (h : Decimal.isFinite ⟨n < 0, n.natAbs, 0⟩ = true) :
    Reads indent (.integer n) := by
  obtain ⟨c, cs, hcs, hc⟩ := exists_intChars n
  refine reads_of_startsNumber (fun _ => by rw [chars, hcs]) hc fun rest hrest => ?_
  have hread := readUnsignedNumber_integer h hrest
  rw [← hcs, intChars]
  split_ifs with hn
  · rw [decide_eq_true hn] at hread
    rw [List.cons_append, readNumber, hread, if_pos rfl]
    congr 3
    omega
  · rw [decide_eq_false hn] at hread
    rw [readNumber_natChars, hread, if_neg (by decide)]
    congr 3
    omega

lemma reads_decimal {d : Decimal} (h : d.isFinite = true) : Reads indent (.decimal d) := by
  obtain ⟨c, cs, hcs, hc⟩ := exists_decimalChars d
  refine reads_of_startsNumber (fun _ => by rw [chars, hcs]) hc fun rest hrest => ?_
  have hread := readUnsignedNumber_decimal h hrest
  rw [← hcs, decimalChars]
  split_ifs with hd
  · rw [hd] at hread
    simpa [readNumber] using hread
  · rw [Bool.eq_false_iff.mpr hd] at hread
    simpa [readNumber_natChars] using hread

/-- The items of an array, after its opening bracket. -/
lemma readItems_chars {depth : ℕ} {v : Json} {vs : List Json}
    (hreads : ∀ w ∈ v :: vs, Reads indent w) {fuel : Nat}
    (hfuel : (chars indent (depth + 1) v).length + (itemChars indent depth vs).length ≤ fuel)
    (rest : List Char) :
    readItems fuel (chars indent (depth + 1) v ++ (itemChars indent depth vs ++ rest)) =
      some (v :: vs, rest) := by
  induction vs generalizing v fuel with
  | nil =>
    obtain ⟨hstops, hpos⟩ := stops_itemChars indent depth [] rest
    obtain ⟨fuel, rfl⟩ : ∃ f, fuel = f + 1 := ⟨fuel - 1, by omega⟩
    rw [readItems, hreads v (by simp) (depth + 1) fuel _ (by omega) hstops]
    simp [itemChars, skipBlank_cons (c := ']') rfl]
  | cons w vs ih =>
    obtain ⟨hstops, hpos⟩ := stops_itemChars indent depth (w :: vs) rest
    obtain ⟨fuel, rfl⟩ : ∃ f, fuel = f + 1 := ⟨fuel - 1, by omega⟩
    rw [readItems, hreads v (by simp) (depth + 1) fuel _ (by omega) hstops]
    have hlen : (chars indent (depth + 1) w).length + (itemChars indent depth vs).length ≤
        fuel := by
      have := length_chars_pos indent (depth + 1) v
      simp only [itemChars, List.length_append, List.length_cons] at hfuel
      omega
    simp [itemChars, skipBlank_cons (c := ',') rfl,
      ih (fun u hu => hreads u (List.mem_cons_of_mem v hu)) hlen]

/-- The members of an object, after its opening brace. -/
lemma readMembers_chars {depth : ℕ} {k : String} {v : Json} {ms : List (String × Json)}
    (hreads : ∀ m ∈ (k, v) :: ms, Reads indent m.2) {fuel : Nat}
    (hfuel : (quote k.toList).length + 1 + (chars indent (depth + 1) v).length +
      (memberChars indent depth ms).length ≤ fuel) (rest : List Char) :
    readMembers fuel (quote k.toList ++ ':' :: (gap indent ++ (chars indent (depth + 1) v ++
      (memberChars indent depth ms ++ rest)))) = some ((k, v) :: ms, rest) := by
  induction ms generalizing k v fuel with
  | nil =>
    obtain ⟨hstops, hpos⟩ := stops_memberChars indent depth [] rest
    obtain ⟨fuel, rfl⟩ : ∃ f, fuel = f + 1 := ⟨fuel - 1, by omega⟩
    have hread : Reads indent v := hreads _ List.mem_cons_self
    have hv := hread (depth + 1) fuel _ (by omega) hstops
    simp only [memberChars, List.append_assoc, List.cons_append, List.nil_append] at hv ⊢
    rw [readMembers, quote]
    simp [skipBlank_cons (c := '\x22') rfl, readString_flatMap_escape,
      skipBlank_cons (c := ':') rfl, hv, skipBlank_cons (c := '\x7d') rfl]
  | cons m ms ih =>
    obtain ⟨k', w⟩ := m
    obtain ⟨hstops, hpos⟩ := stops_memberChars indent depth ((k', w) :: ms) rest
    obtain ⟨fuel, rfl⟩ : ∃ f, fuel = f + 1 := ⟨fuel - 1, by omega⟩
    have hread : Reads indent v := hreads _ List.mem_cons_self
    have hv := hread (depth + 1) fuel _ (by omega) hstops
    have hlen : (quote k'.toList).length + 1 + (chars indent (depth + 1) w).length +
        (memberChars indent depth ms).length ≤ fuel := by
      simp only [memberChars, List.length_append, List.length_cons] at hfuel
      omega
    have hms := ih (fun m hm => hreads m (List.mem_cons_of_mem _ hm)) hlen
    simp only [memberChars, List.cons_append, List.append_assoc] at hv ⊢
    rw [readMembers, quote]
    simp [skipBlank_cons (c := '\x22') rfl, readString_flatMap_escape,
      skipBlank_cons (c := ':') rfl, hv, skipBlank_cons (c := ',') rfl, hms]

lemma reads_array {vs : List Json} (h : ∀ v ∈ vs, Reads indent v) : Reads indent (.array vs) := by
  refine reads_of_succ fun depth fuel rest hfuel _ => ?_
  cases vs with
  | nil => simp [chars, readValue, skipBlank_cons (c := '[') rfl, skipBlank_cons (c := ']') rfl]
  | cons v vs =>
    obtain ⟨c, cs, hcs, hblank, hclose, -⟩ := exists_chars indent (depth + 1) v
    have hlen : (chars indent (depth + 1) v).length + (itemChars indent depth vs).length ≤
        fuel := by
      simp only [chars, List.length_append, List.length_cons] at hfuel
      omega
    have hitems := readItems_chars h hlen rest
    simp only [chars, List.cons_append, List.append_assoc]
    rw [readValue, skipBlank_cons (c := '[') rfl]
    rw [hcs, List.cons_append] at hitems ⊢
    simp [skipBlank_cons hblank, hclose, hitems]

lemma reads_object {ms : List (String × Json)} (hnames : (ms.map Prod.fst).Nodup)
    (h : ∀ m ∈ ms, Reads indent m.2) : Reads indent (.object ms) := by
  refine reads_of_succ fun depth fuel rest hfuel _ => ?_
  cases ms with
  | nil =>
    simp [chars, readValue, skipBlank_cons (c := '\x7b') rfl, skipBlank_cons (c := '\x7d') rfl]
  | cons m ms =>
    obtain ⟨k, v⟩ := m
    have hlen : (quote k.toList).length + 1 + (chars indent (depth + 1) v).length +
        (memberChars indent depth ms).length ≤ fuel := by
      simp only [chars, List.length_append, List.length_cons] at hfuel
      omega
    have hmembers := readMembers_chars h hlen rest
    simp only [chars, List.cons_append, List.append_assoc]
    rw [readValue, skipBlank_cons (c := '\x7b') rfl]
    simp only [quote, List.cons_append, List.append_assoc, List.nil_append] at hmembers ⊢
    simp [skipBlank_cons (c := '\x22') rfl, hmembers, lastOfEach_of_nodup hnames]

theorem Printable.reads {v : Json} (h : Printable v) : Reads indent v := by
  induction h with
  | null =>
    refine reads_of_succ fun depth fuel rest _ _ => ?_
    simp [chars, readValue, skipBlank_cons (c := 'n') rfl]
  | bool b =>
    refine reads_of_succ fun depth fuel rest _ _ => ?_
    cases b <;>
      simp [chars, readValue, skipBlank_cons (c := 't') rfl, skipBlank_cons (c := 'f') rfl]
  | integer h => exact reads_integer h
  | decimal h => exact reads_decimal h
  | string s =>
    refine reads_of_succ fun depth fuel rest _ _ => ?_
    simp [chars, quote, readValue, skipBlank_cons (c := '\x22') rfl, readString_flatMap_escape]
  | array _ ih => exact reads_array ih
  | object hnames _ ih => exact reads_object hnames ih

end Layout

/-- **A text is read back** as the value that it writes, in whatever layout and whatever strings and
nested values there are in it, if its numbers are finite and its names are different. -/
theorem parse_render (indent : Option ℕ) {v : Json} (h : Printable v) :
    parse (render indent v) = some v := by
  obtain ⟨c, cs, hcs, -, -, hmark⟩ := exists_chars indent 0 v
  have hskip : skipMark (chars indent 0 v) = chars indent 0 v := by
    rw [hcs, skipMark]
    simpa using hmark
  have hreads : Reads indent v := h.reads
  have hread := hreads 0 (2 * (chars indent 0 v).length + 2) [] (by omega) stops_nil
  rw [List.append_nil] at hread
  rw [parse, render, String.toList_ofList, parseChars, hskip, hread]
  rfl

end WatchWallet.Json
