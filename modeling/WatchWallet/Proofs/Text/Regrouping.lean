import Mathlib.Data.List.TakeWhile
import WatchWallet.Proofs.Text.BitGroups

/-!
Regrouping writes the groups of the stream, and one machine word is enough for it.

The values up to the first that has too many bits make a stream, and what is written is its
consecutive groups. A word of 32 bits that takes up each value from below, and is never cleared,
loses the oldest bits at its top; but of its low bits only those that wait are read, and these are
fewer than two groups.
-/

namespace WatchWallet.BitGroups

/-! ### The groups of a stream -/

/-- The number that bits write, the most significant first. -/
def number (bs : List Bool) : ℕ := bs.foldl (fun n b => 2 * n + b.toNat) 0

/-- The whole groups of `dst` bits at the head of a stream. -/
def groupsOf (dst : ℕ) (bs : List Bool) : Bytes :=
  (List.range (bs.length / dst)).map fun i => UInt8.ofNat (number ((bs.drop (i * dst)).take dst))

/-- The bits after the whole groups. -/
def leftOver (dst : ℕ) (bs : List Bool) : List Bool := bs.drop (bs.length / dst * dst)

/-- The stream, filled up with zeros to whole groups. -/
def filled (dst : ℕ) (bs : List Bool) : List Bool :=
  bs ++ List.replicate ((dst - bs.length % dst) % dst) false

lemma foldl_bits (w n a : ℕ) :
    (bits w n).foldl (fun m b => 2 * m + b.toNat) a = a * 2 ^ w + n % 2 ^ w := by
  induction w generalizing a with
  | zero => simp [Nat.mod_one]
  | succ w ih =>
    rw [bits, List.foldl_cons, ih, Nat.toNat_testBit, Nat.mod_pow_succ, pow_succ]
    ring

lemma number_bits {w n : ℕ} (h : n < 2 ^ w) : number (bits w n) = n := by
  rw [number, foldl_bits, zero_mul, zero_add, Nat.mod_eq_of_lt h]

section GroupsOf

variable {dst : ℕ} {head tail : List Bool}

lemma groupsOf_of_lt (h : tail.length < dst) : groupsOf dst tail = [] := by
  simp [groupsOf, Nat.div_eq_of_lt h]

lemma leftOver_of_lt (h : tail.length < dst) : leftOver dst tail = tail := by
  simp [leftOver, Nat.div_eq_of_lt h]

lemma length_append_div (hd0 : 0 < dst) (h : head.length = dst) :
    (head ++ tail).length / dst = tail.length / dst + 1 := by
  rw [List.length_append, h, Nat.add_div_left _ hd0]

lemma drop_append_mul (h : head.length = dst) (i : ℕ) :
    (head ++ tail).drop ((i + 1) * dst) = tail.drop (i * dst) := by
  rw [Nat.succ_mul, Nat.add_comm, List.drop_append, h]
  simp [h]

lemma groupsOf_append (hd0 : 0 < dst) (h : head.length = dst) :
    groupsOf dst (head ++ tail) = UInt8.ofNat (number head) :: groupsOf dst tail := by
  rw [groupsOf, length_append_div hd0 h, List.range_succ_eq_map, List.map_cons, List.map_map]
  simp only [Function.comp_def, Nat.succ_eq_add_one, drop_append_mul h]
  rw [zero_mul, List.drop_zero, List.take_left' h]
  rfl

lemma leftOver_append (hd0 : 0 < dst) (h : head.length = dst) :
    leftOver dst (head ++ tail) = leftOver dst tail := by
  rw [leftOver, length_append_div hd0 h, drop_append_mul h, leftOver]

/-- A stream is read off as the groups that it was written from, and what follows them. -/
theorem groupsOf_stream {gs : Bytes} (hg : Fits dst gs) (h : tail.length < dst) :
    groupsOf dst (stream dst gs ++ tail) = gs ∧ leftOver dst (stream dst gs ++ tail) = tail := by
  have hd0 : 0 < dst := Nat.zero_lt_of_lt h
  induction gs with
  | nil => exact ⟨groupsOf_of_lt h, leftOver_of_lt h⟩
  | cons g gs ih =>
    have hlen : (bits dst g.toNat).length = dst := length_bits dst g.toNat
    obtain ⟨hgroups, hleft⟩ := ih fun v hv => hg v (by simp [hv])
    rw [stream_cons, List.append_assoc, groupsOf_append hd0 hlen, leftOver_append hd0 hlen, hgroups,
      hleft, number_bits (hg g (by simp)), UInt8.ofNat_toNat]
    exact ⟨rfl, rfl⟩

end GroupsOf

/-! ### What regrouping writes -/

/-- Regrouping, said of the stream: the groups of the values up to the first that has too many
bits. If there is none, padding makes a last group of what is left over; without it, that must be
fewer bits than an input group has, and all of them zero. -/
def regroupStream (src dst : ℕ) (pad : Bool) (vs : Bytes) : Regrouped :=
  let taken := vs.takeWhile fun v => v.toNat < 2 ^ src
  let bs := stream src taken
  if taken ≠ vs then ⟨groupsOf dst bs, false⟩
  else if pad then ⟨groupsOf dst (filled dst bs), true⟩
  else ⟨groupsOf dst bs, (leftOver dst bs).length < src ∧ ∀ b ∈ leftOver dst bs, b = false⟩

section

variable {src dst : ℕ} {vs : Bytes}

lemma takeWhile_eq_of_fits (hv : Fits src vs) :
    (vs.takeWhile fun v => v.toNat < 2 ^ src) = vs :=
  List.takeWhile_eq_self_iff.mpr fun v h => by simpa using hv v h

/-- What has been written, and what waits, when the input ended. -/
lemma Ends.groupsOf_eq {gs : Bytes} {last rest : ℕ} (h : Ends src dst 0 0 vs gs last rest) :
    groupsOf dst (stream src vs) = gs ∧ leftOver dst (stream src vs) = bits last rest := by
  have hstream := h.stream_eq
  rw [bits_zero_width, List.nil_append] at hstream
  rw [← hstream]
  exact groupsOf_stream h.fits (by rw [length_bits]; exact h.last_lt)

lemma forall_bits_iff {w n : ℕ} (hn : n < 2 ^ w) : (∀ b ∈ bits w n, b = false) ↔ n = 0 := by
  constructor
  · intro h
    refine (eq_zero_of_bits_eq_replicate (k := w) hn ?_).2
    exact List.eq_replicate_iff.mpr ⟨length_bits w n, h⟩
  · rintro rfl
    simp

lemma regroup_of_fits (hd0 : 0 < dst) (hd : dst ≤ 8) (hv : Fits src vs) :
    regroup src dst false vs = ⟨groupsOf dst (stream src vs),
      (leftOver dst (stream src vs)).length < src ∧
        ∀ b ∈ leftOver dst (stream src vs), b = false⟩ := by
  obtain ⟨gs, last, rest, hends, heq⟩ := exists_regroup hd0 hd hv
  obtain ⟨hgroups, hleft⟩ := hends.groupsOf_eq
  simp only [heq, hgroups, hleft, length_bits, forall_bits_iff hends.rest_lt, Bool.decide_and,
    beq_eq_decide]

/-- So many bits are missing in the last group. -/
lemma missing_bits_eq {length k count : ℕ} (hk : k < dst) (h : length + k = dst * count) :
    (dst - length % dst) % dst = k := by
  rcases Nat.eq_zero_or_pos k with rfl | hpos
  · rw [Nat.add_zero] at h
    rw [h, Nat.mul_mod_right, Nat.sub_zero, Nat.mod_self]
  · obtain ⟨c, rfl⟩ : ∃ c, count = c + 1 :=
      Nat.exists_eq_succ_of_ne_zero (by rintro rfl; omega)
    have hlength : length = dst - k + dst * c := by
      rw [Nat.mul_succ] at h
      omega
    have hlt : dst - k < dst := by omega
    rw [hlength, Nat.add_mul_mod_self_left, Nat.mod_eq_of_lt hlt, Nat.sub_sub_self hk.le,
      Nat.mod_eq_of_lt hk]

lemma regroup_pad_of_fits (hd0 : 0 < dst) (hd : dst ≤ 8) (hv : Fits src vs) :
    regroup src dst true vs = ⟨groupsOf dst (filled dst (stream src vs)), true⟩ := by
  obtain ⟨gs, k, hk, heq, hfit, hstream⟩ := exists_regroup_pad hd0 hd hv
  have hlen : (stream src vs).length + k = dst * gs.length := by
    simpa using (congrArg List.length hstream).symm
  have hfilled : filled dst (stream src vs) = stream dst gs ++ [] := by
    rw [filled, missing_bits_eq hk hlen, hstream, List.append_nil]
  have hnil : ([] : List Bool).length < dst := hd0
  rw [heq, hfilled, (groupsOf_stream hfit hnil).1]

/-- The first value with too many bits ends the regrouping. -/
lemma regroup_of_stop (hd0 : 0 < dst) (hd : dst ≤ 8) (pad : Bool) (hv : Fits src vs) {v : UInt8}
    (h : 2 ^ src ≤ v.toNat) (rest : Bytes) :
    regroup src dst pad (vs ++ v :: rest) = ⟨groupsOf dst (stream src vs), false⟩ := by
  obtain ⟨gs, last, waiting, hends, heq⟩ :=
    regroupFrom_append hd0 hd pad hv (v :: rest) hd0 (Nat.two_pow_pos 0)
  have hstop : ¬v.toNat < span src := not_lt.mpr h
  rw [regroup, heq, regroupFrom, if_neg hstop, hends.groupsOf_eq.1, List.append_nil]

lemma exists_stop (h : ¬Fits src vs) :
    ∃ us v rest, vs = us ++ v :: rest ∧ Fits src us ∧ 2 ^ src ≤ v.toNat := by
  induction vs with
  | nil => exact absurd (by simp [Fits]) h
  | cons v vs ih =>
    rcases Nat.lt_or_ge v.toNat (2 ^ src) with hv | hv
    · have hvs : ¬Fits src vs := fun hvs => h (List.forall_mem_cons.mpr ⟨hv, hvs⟩)
      obtain ⟨us, w, rest, rfl, hus, hw⟩ := ih hvs
      exact ⟨v :: us, w, rest, rfl, List.forall_mem_cons.mpr ⟨hv, hus⟩, hw⟩
    · exact ⟨[], v, vs, rfl, by simp [Fits], hv⟩

lemma takeWhile_append_of_stop (hv : Fits src vs) {v : UInt8} (h : 2 ^ src ≤ v.toNat)
    (rest : Bytes) : ((vs ++ v :: rest).takeWhile fun v => v.toNat < 2 ^ src) = vs := by
  have hall : ∀ u ∈ vs, decide (u.toNat < 2 ^ src) = true := fun u hu => by simpa using hv u hu
  rw [List.takeWhile_append_of_pos hall, List.takeWhile_cons_of_neg (by simpa using h),
    List.append_nil]

/-- **What regrouping writes** is the groups of the stream. -/
theorem regroup_eq_regroupStream (hd0 : 0 < dst) (hd : dst ≤ 8) (pad : Bool) (vs : Bytes) :
    regroup src dst pad vs = regroupStream src dst pad vs := by
  by_cases hv : Fits src vs
  · rw [regroupStream, takeWhile_eq_of_fits hv]
    cases pad with
    | true => simp [regroup_pad_of_fits hd0 hd hv]
    | false => simp [regroup_of_fits hd0 hd hv]
  · obtain ⟨us, v, rest, rfl, hus, hstop⟩ := exists_stop hv
    rw [regroup_of_stop hd0 hd pad hus hstop, regroupStream, takeWhile_append_of_stop hus hstop]
    simp

end

/-! ### One machine word -/

/-- The low `dst` bits of a word. -/
def lowBits (dst : ℕ) (word : BitVec 32) : BitVec 32 := word &&& (1#32 <<< dst - 1#32)

/-- Writes groups as long as enough bits wait: how many wait after that, and what is written. -/
def drain (dst : ℕ) (word : BitVec 32) (count : ℕ) (out : Bytes) : ℕ × Bytes :=
  if 0 < dst ∧ dst ≤ count then
    drain dst word (count - dst) (out ++ [UInt8.ofNat (lowBits dst (word >>> (count - dst))).toNat])
  else (count, out)
termination_by count
decreasing_by omega

/-- A word takes up a value from below; what moves out at its top is lost. -/
def takeUp (src : ℕ) (word : BitVec 32) (v : UInt8) : BitVec 32 :=
  word <<< src ||| BitVec.ofNat 32 v.toNat

/-- Regroups behind what was written before. The word is never cleared. -/
def accumulateFrom (src dst : ℕ) (pad : Bool) (word : BitVec 32) (count : ℕ) (out : Bytes) :
    Bytes → Regrouped
  | [] =>
    let last := lowBits dst (word <<< (dst - count))
    if pad then ⟨if 0 < count then out ++ [UInt8.ofNat last.toNat] else out, true⟩
    else ⟨out, count < src && last == 0#32⟩
  | v :: vs =>
    if v.toNat >>> src = 0 then
      let next := takeUp src word v
      let (count, out) := drain dst next (count + src) out
      accumulateFrom src dst pad next count out vs
    else ⟨out, false⟩

def accumulate (src dst : ℕ) (pad : Bool) (vs out : Bytes) : Regrouped :=
  accumulateFrom src dst pad 0 0 out vs

section Word

variable {src dst count : ℕ}

lemma toNat_lowBits (hd : dst ≤ 8) (word : BitVec 32) :
    (lowBits dst word).toNat = word.toNat % span dst := by
  have hmask : ∀ d ≤ 8, (1#32 <<< d - 1#32).toNat = 2 ^ d - 1 := by decide
  rw [lowBits, BitVec.toNat_and, hmask dst hd, Nat.and_two_pow_sub_one_eq_mod]
  rfl

/-- Of a number that has more bits, only those that wait make groups. -/
lemma wholeGroups_mod (hd0 : 0 < dst) (hd : dst ≤ 8) (count n : ℕ) :
    wholeGroups dst count (n % span count) = wholeGroups dst count n := by
  have hlen : ∀ m, (wholeGroups dst count m).length = count / dst := by simp [wholeGroups]
  -- both are as many groups, and write the same bits
  have hsame := (stream_wholeGroups hd0 hd count (n % span count)).trans
    ((bits_mod le_rfl n).trans (stream_wholeGroups hd0 hd count n).symm)
  refine stream_inj (fits_wholeGroups hd _ _) (fits_wholeGroups hd _ _) (by rw [hlen, hlen]) ?_
  exact (List.append_inj hsame (by rw [length_stream, length_stream, hlen, hlen])).1

lemma drain_eq (hd0 : 0 < dst) (hd : dst ≤ 8) (word : BitVec 32) (count : ℕ) (out : Bytes) :
    drain dst word count out = (count % dst, out ++ wholeGroups dst count word.toNat) := by
  induction count using Nat.strongRecOn generalizing out with
  | _ count ih =>
    rcases Nat.lt_or_ge count dst with h | h
    · rw [drain, if_neg (by omega), Nat.mod_eq_of_lt h, wholeGroups_of_lt h, List.append_nil]
    · rw [drain, if_pos ⟨hd0, h⟩, ih _ (by omega), toNat_lowBits hd, BitVec.toNat_ushiftRight,
        Nat.shiftRight_eq_div_pow, ← Nat.mod_eq_sub_mod h, wholeGroups_of_le hd0 h,
        List.append_assoc]
      rfl

/-- The bits that wait, and those of the next value, are the low bits of the next word. -/
lemma toNat_takeUp {v : UInt8} (hv : v.toNat < 2 ^ src) (h : count + src ≤ 32)
    (word : BitVec 32) :
    (takeUp src word v).toNat % span (count + src) =
      word.toNat % span count * span src + v.toNat := by
  have hlt : v.toNat < 2 ^ (count + src) :=
    hv.trans_le (Nat.pow_le_pow_right (by omega) (by omega))
  have hlow : v.toNat % span (count + src) = v.toNat := Nat.mod_eq_of_lt hlt
  have hword : v.toNat < 2 ^ 32 := hlt.trans_le (Nat.pow_le_pow_right (by omega) h)
  have hor : (takeUp src word v).toNat = (word <<< src).toNat ||| v.toNat := by
    rw [takeUp, BitVec.toNat_or, BitVec.toNat_ofNat, Nat.mod_eq_of_lt hword]
  have hshift : (word <<< src).toNat % span (count + src) =
      word.toNat % span count * span src := by
    rw [BitVec.toNat_shiftLeft, span_eq, Nat.mod_mod_of_dvd _ (pow_dvd_pow 2 h),
      Nat.shiftLeft_eq, pow_add, Nat.mul_mod_mul_right]
    rfl
  calc (takeUp src word v).toNat % span (count + src)
      = (word <<< src).toNat % span (count + src) ||| v.toNat % span (count + src) := by
        rw [hor]
        exact Nat.or_mod_two_pow
    _ = word.toNat % span count * span src ||| v.toNat := by rw [hshift, hlow]
    _ = word.toNat % span count * span src + v.toNat := by
        rw [span_eq src, ← Nat.shiftLeft_eq, Nat.shiftLeft_add_eq_or_of_lt hv]

/-- What waits in the word, moved up to a whole group. -/
lemma toNat_moveUp (hd : dst ≤ 8) (hc : count ≤ dst) (word : BitVec 32) :
    (lowBits dst (word <<< (dst - count))).toNat =
      word.toNat % span count * span (dst - count) := by
  have hsplit : span dst = 2 ^ count * 2 ^ (dst - count) := by
    rw [span_eq, ← pow_add, Nat.add_sub_of_le hc]
  have hdvd : span dst ∣ 2 ^ 32 := pow_dvd_pow 2 (by omega)
  rw [toNat_lowBits hd, BitVec.toNat_shiftLeft, Nat.mod_mod_of_dvd _ hdvd, hsplit,
    Nat.shiftLeft_eq, Nat.mul_mod_mul_right]
  rfl

lemma accumulateFrom_cons (hd0 : 0 < dst) (hd : dst ≤ 8) (pad : Bool) (word : BitVec 32)
    (out : Bytes) {v : UInt8} (hv : v.toNat < 2 ^ src) (vs : Bytes) :
    accumulateFrom src dst pad word count out (v :: vs) =
      accumulateFrom src dst pad (takeUp src word v) ((count + src) % dst)
        (out ++ wholeGroups dst (count + src) (takeUp src word v).toNat) vs := by
  have hread : v.toNat >>> src = 0 := by rw [Nat.shiftRight_eq_div_pow, Nat.div_eq_of_lt hv]
  rw [accumulateFrom, if_pos hread]
  simp only [drain_eq hd0 hd]

/-- **One word is enough**: of all the bits that the word took up, those that wait are its low
ones, and only they are read. -/
theorem accumulateFrom_eq (hs : src ≤ 8) (hd0 : 0 < dst) (hd : dst ≤ 8) (pad : Bool) (vs : Bytes)
    (hc : count < dst) (word : BitVec 32) (out : Bytes) :
    accumulateFrom src dst pad word count out vs =
      ⟨out ++ (regroupFrom src dst pad count (word.toNat % span count) vs).groups,
        (regroupFrom src dst pad count (word.toNat % span count) vs).fits⟩ := by
  induction vs generalizing count word out with
  | nil =>
    have hlast := toNat_moveUp hd hc.le word
    have hzero : lowBits dst (word <<< (dst - count)) = 0#32 ↔ word.toNat % span count = 0 := by
      rw [← BitVec.toNat_inj, hlast, BitVec.toNat_ofNat, Nat.zero_mod, Nat.mul_eq_zero,
        or_iff_left (span_pos _).ne']
    rw [accumulateFrom, regroupFrom_nil, finish, hlast]
    cases pad with
    | true => rcases Nat.eq_zero_or_pos count with rfl | hpos <;> simp [*]
    | false => simp [hzero, beq_eq_decide]
  | cons v vs ih =>
    rcases Nat.lt_or_ge v.toNat (2 ^ src) with hv | hv
    · have htotal := toNat_takeUp hv (by omega : count + src ≤ 32) word
      -- what waits after the groups are written is again the low bits of the word
      have hwaits : (takeUp src word v).toNat % span (count + src) % span ((count + src) % dst) =
          (takeUp src word v).toNat % span ((count + src) % dst) :=
        Nat.mod_mod_of_dvd _ (pow_dvd_pow 2 (Nat.mod_le _ _))
      rw [accumulateFrom_cons hd0 hd pad word out hv, ih (Nat.mod_lt _ hd0),
        regroupFrom_cons dst pad count _ hv, ← htotal, hwaits, wholeGroups_mod hd0 hd,
        List.append_assoc]
    · have hstop : v.toNat >>> src ≠ 0 := by
        rw [Nat.shiftRight_eq_div_pow]
        exact (Nat.div_pos hv (Nat.two_pow_pos src)).ne'
      have hnot : ¬v.toNat < span src := not_lt.mpr hv
      rw [accumulateFrom, if_neg hstop, regroupFrom, if_neg hnot, List.append_nil]

lemma accumulate_eq (hs : src ≤ 8) (hd0 : 0 < dst) (hd : dst ≤ 8) (pad : Bool)
    (vs out : Bytes) : accumulate src dst pad vs out =
      ⟨out ++ (regroup src dst pad vs).groups, (regroup src dst pad vs).fits⟩ := by
  rw [accumulate, accumulateFrom_eq hs hd0 hd pad vs hd0, regroup]
  rfl

end Word

/-! ### Bytes in groups of five bits -/

/-- An input that was regrouped to its end has no value with too many bits. -/
lemma fits_of_regroup {src dst : ℕ} (hd0 : 0 < dst) (hd : dst ≤ 8) {pad : Bool} {vs : Bytes}
    (h : (regroup src dst pad vs).fits = true) : Fits src vs := by
  by_contra hv
  obtain ⟨us, v, rest, rfl, hus, hstop⟩ := exists_stop hv
  rw [regroup_of_stop hd0 hd pad hus hstop] at h
  cases h

lemma regroup_bytes (bs : Bytes) :
    regroup 5 8 false (regroup 8 5 true bs).groups = ⟨bs, true⟩ :=
  regroup_regroup_pad (by decide) (by decide) (by decide) (fits_eight bs)

lemma fits_regroup_iff (gs : Bytes) : (regroup 5 8 false gs).fits = true ↔
    regroup 8 5 true (regroup 5 8 false gs).groups = ⟨gs, true⟩ := by
  constructor
  · intro h
    refine regroup_pad_of_regroup (by decide) (by decide) (by decide)
      (fits_of_regroup (by decide) (by decide) h) ?_
    rw [← h]
  · intro h
    have hback := regroup_bytes (regroup 5 8 false gs).groups
    rw [h] at hback
    rw [hback]

/-- **Regrouping is exact.** What is written, behind what was there before, is the consecutive
groups of the stream of bits, up to the first value that does not fit; it is the same by one word
that loses bits, and without. Bytes in groups of five bits are read back, and groups of five bits
are read as bytes just if those are written as the same groups. -/
theorem regroups_exactly :
    (∀ {src dst : ℕ}, src ≤ 8 → 0 < dst → dst ≤ 8 → ∀ (pad : Bool) (vs out : Bytes),
      regroup src dst pad vs = regroupStream src dst pad vs ∧
      accumulate src dst pad vs out =
        ⟨out ++ (regroupStream src dst pad vs).groups, (regroupStream src dst pad vs).fits⟩) ∧
    (∀ bs : Bytes, (regroup 8 5 true bs).fits = true ∧
      regroup 5 8 false (regroup 8 5 true bs).groups = ⟨bs, true⟩) ∧
    ∀ gs : Bytes, (regroup 5 8 false gs).fits = true ↔
      regroup 8 5 true (regroup 5 8 false gs).groups = ⟨gs, true⟩ := by
  refine ⟨fun {src dst} hs hd0 hd pad vs out => ?_, fun bs => ⟨?_, regroup_bytes bs⟩,
    fits_regroup_iff⟩
  · have hstream : regroup src dst pad vs = regroupStream src dst pad vs :=
      regroup_eq_regroupStream hd0 hd pad vs
    exact ⟨hstream, by rw [accumulate_eq hs hd0 hd, hstream]⟩
  · rw [regroup_pad_of_fits (by decide) (by decide) (fits_eight bs)]

/-- More bits than a word has, behind a byte; a value that stops; and groups that are bytes. -/
theorem regroups_exactly_of_six_bytes :
    accumulate 8 5 true [255, 0, 255, 0, 255, 1] [7] =
      ⟨[7, 31, 28, 0, 15, 30, 0, 7, 31, 0, 4], true⟩ ∧
    accumulate 5 8 false [31, 31, 32, 1] [7] = ⟨[7, 255], false⟩ ∧
    regroup 8 5 true (regroup 5 8 false [31, 28]).groups = ⟨[31, 28], true⟩ := by
  obtain ⟨hexact, -, hback⟩ := regroups_exactly
  have hbytes : regroupStream 8 5 true [255, 0, 255, 0, 255, 1] =
      ⟨[31, 28, 0, 15, 30, 0, 7, 31, 0, 4], true⟩ := by decide
  have hstop : regroupStream 5 8 false [31, 31, 32, 1] = ⟨[255], false⟩ := by decide
  refine ⟨?_, ?_, (hback [31, 28]).mp (by decide)⟩
  · rw [(hexact (by decide) (by decide) (by decide) true _ [7]).2, hbytes]
    rfl
  · rw [(hexact (by decide) (by decide) (by decide) false _ [7]).2, hstop]
    rfl

end WatchWallet.BitGroups
