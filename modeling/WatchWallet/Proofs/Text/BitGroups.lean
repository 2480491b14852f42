import Mathlib.Data.Nat.Bitwise
import Mathlib.Tactic.Ring
import WatchWallet.Text.BitGroups

/-!
Regrouping keeps the stream of bits.

`stream w vs` is the bits of the values `vs`, `w` of each, the most significant first. Whole
groups and the bits that wait after them write the same stream as the input, so regrouping
with padding can be undone without it, and the other way round.
-/

namespace WatchWallet.BitGroups

lemma span_eq (w : ℕ) : span w = 2 ^ w := rfl

lemma span_pos (w : ℕ) : 0 < span w := Nat.two_pow_pos w

/-- The low `w` bits of a number, the most significant first. -/
def bits : (w n : ℕ) → List Bool
  | 0, _ => []
  | w + 1, n => n.testBit w :: bits w n

@[simp] lemma bits_zero_width (n : ℕ) : bits 0 n = [] := rfl

@[simp] lemma length_bits (w n : ℕ) : (bits w n).length = w := by
  induction w with
  | zero => rfl
  | succ w ih => simp [bits, ih]

@[simp] lemma bits_zero (w : ℕ) : bits w 0 = List.replicate w false := by
  induction w with
  | zero => rfl
  | succ w ih => simp [bits, ih, List.replicate_succ]

lemma bits_add (a b n : ℕ) : bits (a + b) n = bits a (n / 2 ^ b) ++ bits b n := by
  induction a with
  | zero => simp
  | succ a ih =>
    rw [Nat.succ_add, bits, ih, bits, Nat.testBit_div_two_pow]
    rfl

lemma bits_mod {w u : ℕ} (h : w ≤ u) (n : ℕ) : bits w (n % 2 ^ u) = bits w n := by
  induction w with
  | zero => rfl
  | succ w ih => simp [bits, ih (by omega), Nat.testBit_mod_two_pow, show w < u by omega]

lemma testBit_eq_of_bits_eq {w m n : ℕ} (h : bits w m = bits w n) :
    ∀ i < w, m.testBit i = n.testBit i := by
  induction w with
  | zero => simp
  | succ w ih =>
    obtain ⟨htop, hrest⟩ := List.cons.inj h
    intro i hi
    rcases Nat.lt_succ_iff_lt_or_eq.mp hi with hi | rfl
    · exact ih hrest i hi
    · exact htop

lemma bits_inj {w m n : ℕ} (hm : m < 2 ^ w) (hn : n < 2 ^ w) (h : bits w m = bits w n) :
    m = n := by
  refine Nat.eq_of_testBit_eq fun i => ?_
  rcases Nat.lt_or_ge i w with hi | hi
  · exact testBit_eq_of_bits_eq h i hi
  · have hp : 2 ^ w ≤ 2 ^ i := Nat.pow_le_pow_right (by omega) hi
    rw [Nat.testBit_lt_two_pow (by omega), Nat.testBit_lt_two_pow (by omega)]

/-- The bits of values, `w` of each. -/
def stream (w : ℕ) (vs : Bytes) : List Bool := vs.flatMap fun v => bits w v.toNat

@[simp] lemma stream_nil (w : ℕ) : stream w [] = [] := rfl
@[simp] lemma stream_cons (w : ℕ) (v : UInt8) (vs : Bytes) :
    stream w (v :: vs) = bits w v.toNat ++ stream w vs := rfl
@[simp] lemma stream_append (w : ℕ) (us vs : Bytes) :
    stream w (us ++ vs) = stream w us ++ stream w vs := by
  simp [stream]

@[simp] lemma length_stream (w : ℕ) (vs : Bytes) : (stream w vs).length = w * vs.length := by
  induction vs with
  | nil => rfl
  | cons v vs ih => simp [ih, Nat.mul_succ, Nat.add_comm]

/-- All values can be written with `w` bits. -/
def Fits (w : ℕ) (vs : Bytes) : Prop := ∀ v ∈ vs, v.toNat < 2 ^ w

lemma fits_eight (bs : Bytes) : Fits 8 bs := fun b _ => b.toNat_lt

lemma fits_append {w : ℕ} {us vs : Bytes} (hu : Fits w us) (hv : Fits w vs) :
    Fits w (us ++ vs) := by
  intro v h
  exact (List.mem_append.mp h).elim (hu v) (hv v)

lemma stream_inj {w : ℕ} {us vs : Bytes} (hu : Fits w us) (hv : Fits w vs)
    (hlen : us.length = vs.length) (h : stream w us = stream w vs) : us = vs := by
  induction us generalizing vs with
  | nil => exact (List.length_eq_zero_iff.mp hlen.symm).symm
  | cons u us ih =>
    cases vs with
    | nil => simp at hlen
    | cons v vs =>
      obtain ⟨hhead, htail⟩ := List.append_inj h (by simp)
      have huv : u.toNat = v.toNat := bits_inj (hu u (by simp)) (hv v (by simp)) hhead
      rw [UInt8.toNat_inj.mp huv,
        ih (fun x hx => hu x (by simp [hx])) (fun x hx => hv x (by simp [hx]))
          (by simpa using hlen) htail]

/-! ### What waits and what is written -/

lemma toNat_ofNat_lt {w n : ℕ} (hw : w ≤ 8) (h : n < 2 ^ w) : (UInt8.ofNat n).toNat = n := by
  have : 2 ^ w ≤ 2 ^ 8 := Nat.pow_le_pow_right (by omega) hw
  rw [UInt8.toNat_ofNat']
  exact Nat.mod_eq_of_lt (by omega)

lemma fits_wholeGroups {dst : ℕ} (hd : dst ≤ 8) (count n : ℕ) :
    Fits dst (wholeGroups dst count n) := by
  intro v hv
  obtain ⟨i, -, rfl⟩ := List.mem_map.mp hv
  have h : n / span (count - (i + 1) * dst) % span dst < 2 ^ dst := Nat.mod_lt _ (span_pos _)
  rw [toNat_ofNat_lt hd h]
  exact h

lemma wholeGroups_of_lt {dst count : ℕ} (h : count < dst) (n : ℕ) :
    wholeGroups dst count n = [] := by
  simp [wholeGroups, Nat.div_eq_of_lt h]

lemma wholeGroups_of_le {dst count : ℕ} (hd0 : 0 < dst) (h : dst ≤ count) (n : ℕ) :
    wholeGroups dst count n =
      UInt8.ofNat (n / span (count - dst) % span dst) :: wholeGroups dst (count - dst) n := by
  have hrest : ∀ i, count - (i + 1 + 1) * dst = count - dst - (i + 1) * dst := by
    intro i
    rw [Nat.sub_sub, Nat.succ_mul (i + 1), Nat.add_comm dst]
  rw [wholeGroups, Nat.div_eq_sub_div hd0 h, List.range_succ_eq_map, List.map_cons, List.map_map]
  simp only [Function.comp_def, Nat.succ_eq_add_one, hrest, zero_add, one_mul]
  rfl

/-- The whole groups of a number and its bits after them are all its bits. -/
lemma stream_wholeGroups {dst : ℕ} (hd0 : 0 < dst) (hd : dst ≤ 8) (count n : ℕ) :
    stream dst (wholeGroups dst count n) ++ bits (count % dst) n = bits count n := by
  induction count using Nat.strongRecOn with
  | _ count ih =>
    rcases Nat.lt_or_ge count dst with h | h
    · rw [wholeGroups_of_lt h, Nat.mod_eq_of_lt h, stream_nil, List.nil_append]
    · have hlt : n / span (count - dst) % span dst < 2 ^ dst := Nat.mod_lt _ (span_pos _)
      have hhead : bits dst (n / span (count - dst) % span dst) =
          bits dst (n / span (count - dst)) := bits_mod le_rfl _
      rw [wholeGroups_of_le hd0 h, stream_cons, toNat_ofNat_lt hd hlt, hhead, List.append_assoc,
        Nat.mod_eq_sub_mod h, ih (count - dst) (by omega)]
      nth_rewrite 3 [← Nat.add_sub_of_le h]
      exact (bits_add dst (count - dst) n).symm

lemma regroupFrom_cons {src : ℕ} (dst : ℕ) (pad : Bool) (count pending : ℕ) {v : UInt8}
    (hv : v.toNat < 2 ^ src) (vs : Bytes) :
    regroupFrom src dst pad count pending (v :: vs) =
      ⟨wholeGroups dst (count + src) (pending * span src + v.toNat) ++
          (regroupFrom src dst pad ((count + src) % dst)
            ((pending * span src + v.toNat) % span ((count + src) % dst)) vs).groups,
        (regroupFrom src dst pad ((count + src) % dst)
          ((pending * span src + v.toNat) % span ((count + src) % dst)) vs).fits⟩ := by
  have hlt : v.toNat < span src := hv
  rw [regroupFrom, if_pos hlt]

/-- Bits that wait, followed by those of the next value. -/
lemma bits_mul_span_add {src v : ℕ} (hv : v < 2 ^ src) (count pending : ℕ) :
    bits (count + src) (pending * span src + v) = bits count pending ++ bits src v := by
  have hdiv : (pending * span src + v) / 2 ^ src = pending := by
    rw [span_eq, Nat.add_comm, Nat.add_mul_div_right _ _ (Nat.two_pow_pos src),
      Nat.div_eq_of_lt hv, zero_add]
  have hmod : (pending * span src + v) % 2 ^ src = v := by
    rw [span_eq, Nat.add_comm, Nat.add_mul_mod_self_right, Nat.mod_eq_of_lt hv]
  rw [bits_add, hdiv, ← bits_mod le_rfl (pending * span src + v), hmod]

/-- How an input ended: the whole groups, and the bits that wait after them. -/
structure Ends (src dst count pending : ℕ) (vs gs : Bytes) (last rest : ℕ) : Prop where
  last_lt : last < dst
  rest_lt : rest < 2 ^ last
  fits : Fits dst gs
  stream_eq : stream dst gs ++ bits last rest = bits count pending ++ stream src vs

/-- Values that fit are written as whole groups up to a last wait of fewer than `dst` bits,
from where the rest of the input goes on. -/
theorem regroupFrom_append {src dst : ℕ} (hd0 : 0 < dst) (hd : dst ≤ 8) (pad : Bool) {us : Bytes}
    (hu : Fits src us) (vs : Bytes) {count pending : ℕ} (hc : count < dst)
    (hp : pending < 2 ^ count) :
    ∃ gs last rest, Ends src dst count pending us gs last rest ∧
      regroupFrom src dst pad count pending (us ++ vs) =
        ⟨gs ++ (regroupFrom src dst pad last rest vs).groups,
          (regroupFrom src dst pad last rest vs).fits⟩ := by
  induction us generalizing count pending with
  | nil => exact ⟨[], count, pending, ⟨hc, hp, by simp [Fits], by simp⟩, rfl⟩
  | cons u us ih =>
    have hlt : u.toNat < 2 ^ src := hu u (by simp)
    rw [List.cons_append, regroupFrom_cons dst pad count pending hlt]
    set total := count + src
    set n := pending * span src + u.toNat
    have hmod : n % span (total % dst) < 2 ^ (total % dst) := Nat.mod_lt _ (span_pos _)
    obtain ⟨gs, last, rest, hends, heq⟩ :=
      ih (fun x hx => hu x (by simp [hx])) (Nat.mod_lt total hd0) hmod
    refine ⟨wholeGroups dst total n ++ gs, last, rest, ⟨hends.last_lt, hends.rest_lt,
      fits_append (fits_wholeGroups hd total n) hends.fits, ?_⟩, ?_⟩
    · have hm : bits (total % dst) (n % span (total % dst)) = bits (total % dst) n :=
        bits_mod le_rfl n
      rw [stream_append, List.append_assoc, hends.stream_eq, ← List.append_assoc, hm,
        stream_wholeGroups hd0 hd, bits_mul_span_add hlt, stream_cons, List.append_assoc]
    · rw [heq, List.append_assoc]

lemma regroup_eq {src dst : ℕ} (hd0 : 0 < dst) (hd : dst ≤ 8) (pad : Bool) {vs : Bytes}
    (hv : Fits src vs) :
    ∃ gs last rest, Ends src dst 0 0 vs gs last rest ∧ regroup src dst pad vs =
      ⟨gs ++ (finish src dst pad last rest).groups, (finish src dst pad last rest).fits⟩ := by
  have h := regroupFrom_append hd0 hd pad hv [] hd0 (Nat.two_pow_pos 0)
  rwa [List.append_nil] at h

/-! ### There and back -/

/-- With padding the last group is filled up with zeros. -/
lemma exists_regroup_pad {src dst : ℕ} (hd0 : 0 < dst) (hd : dst ≤ 8) {vs : Bytes}
    (hv : Fits src vs) :
    ∃ gs k, k < dst ∧ regroup src dst true vs = ⟨gs, true⟩ ∧ Fits dst gs ∧
      stream dst gs = stream src vs ++ List.replicate k false := by
  obtain ⟨gs, last, rest, hends, heq⟩ := regroup_eq hd0 hd true hv
  have hlast := hends.last_lt
  have hstream := hends.stream_eq
  rw [bits_zero_width, List.nil_append] at hstream
  rw [heq]
  rcases Nat.eq_zero_or_pos last with rfl | hpos
  · refine ⟨gs, 0, hd0, by simp [finish], hends.fits, ?_⟩
    simpa using hstream
  · have hpow : 2 ^ dst = 2 ^ last * 2 ^ (dst - last) := by
      rw [← pow_add]; congr 1; omega
    have hlt : rest * span (dst - last) < 2 ^ dst := by
      rw [hpow]
      exact Nat.mul_lt_mul_of_pos_right hends.rest_lt (Nat.two_pow_pos _)
    refine ⟨gs ++ [UInt8.ofNat (rest * span (dst - last))], dst - last, by omega, ?_,
      fits_append hends.fits ?_, ?_⟩
    · simp [finish, hpos]
    · intro v hv
      obtain rfl := List.mem_singleton.mp hv
      rwa [toNat_ofNat_lt hd hlt]
    · have hz : 0 < 2 ^ (dst - last) := Nat.two_pow_pos _
      have hb := bits_mul_span_add hz last rest
      rw [Nat.add_sub_of_le hlast.le, Nat.add_zero, bits_zero] at hb
      rw [stream_append, stream_cons, toNat_ofNat_lt hd hlt, hb, stream_nil, List.append_nil,
        ← List.append_assoc, hstream]

/-- Without padding an input that fits leaves fewer bits than an input group, all zero. -/
lemma exists_regroup {src dst : ℕ} (hd0 : 0 < dst) (hd : dst ≤ 8) {vs : Bytes}
    (hv : Fits src vs) :
    ∃ gs last rest, Ends src dst 0 0 vs gs last rest ∧
      regroup src dst false vs = ⟨gs, last < src && rest == 0⟩ := by
  obtain ⟨gs, last, rest, hends, heq⟩ := regroup_eq hd0 hd false hv
  exact ⟨gs, last, rest, hends, by rw [heq]; simp [finish]⟩

lemma eq_of_mul_add_eq {w a b x y : ℕ} (hx : x < w) (hy : y < w) (h : w * a + x = w * b + y) :
    a = b := by
  have h' := congrArg (· / w) h
  simpa [Nat.mul_add_div (by omega : w > 0), Nat.div_eq_of_lt hx, Nat.div_eq_of_lt hy] using h'

lemma eq_zero_of_bits_eq_replicate {w k n : ℕ} (hn : n < 2 ^ w)
    (h : bits w n = List.replicate k false) : w = k ∧ n = 0 := by
  have hw : w = k := by simpa using congrArg List.length h
  subst hw
  exact ⟨rfl, bits_inj hn (Nat.two_pow_pos w) (by rw [h, bits_zero])⟩

/-- **There and back**: what was regrouped with padding is regrouped back without. -/
theorem regroup_regroup_pad {src dst : ℕ} (hd0 : 0 < dst) (hds : dst ≤ src) (hs : src ≤ 8)
    {vs : Bytes} (hv : Fits src vs) :
    regroup dst src false (regroup src dst true vs).groups = ⟨vs, true⟩ := by
  obtain ⟨gs, k, hk, hgs, hfit, hstream⟩ := exists_regroup_pad hd0 (by omega) hv
  obtain ⟨ws, last, rest, hends, heq⟩ := exists_regroup (by omega) hs hfit
  have hlast := hends.last_lt
  have hsplit : stream src ws ++ bits last rest = stream src vs ++ List.replicate k false := by
    simpa [hstream] using hends.stream_eq
  have hlen : ws.length = vs.length :=
    eq_of_mul_add_eq hlast (by omega : k < src) (by simpa using congrArg List.length hsplit)
  obtain ⟨hvs, hpad⟩ := List.append_inj hsplit (by simp [hlen])
  obtain ⟨rfl, rfl⟩ := eq_zero_of_bits_eq_replicate hends.rest_lt hpad
  rw [hgs, heq, stream_inj hends.fits hv hlen hvs]
  simp [hk]

/-- **Back and there**: an input that was accepted without padding is regrouped back with it. -/
theorem regroup_pad_of_regroup {src dst : ℕ} (hd0 : 0 < dst) (hds : dst ≤ src) (hs : src ≤ 8)
    {vs gs : Bytes} (hg : Fits dst gs) (h : regroup dst src false gs = ⟨vs, true⟩) :
    regroup src dst true vs = ⟨gs, true⟩ := by
  obtain ⟨ws, last, rest, hends, heq⟩ := exists_regroup (by omega) hs hg
  rw [heq, Regrouped.mk.injEq] at h
  obtain ⟨rfl, hfits⟩ := h
  obtain ⟨hlast, rfl⟩ : last < dst ∧ rest = 0 := by simpa using hfits
  obtain ⟨us, k, hk, hus, hfit, hstream⟩ := exists_regroup_pad hd0 (by omega) hends.fits
  have hsplit : stream src ws ++ List.replicate last false = stream dst gs := by
    simpa using hends.stream_eq
  have hlen : dst * us.length = src * ws.length + k := by
    simpa using congrArg List.length hstream
  have hlen' : src * ws.length + last = dst * gs.length := by
    simpa using congrArg List.length hsplit
  have hug : us.length = gs.length := eq_of_mul_add_eq hlast hk (by omega)
  have hk' : k = last := by rw [hug] at hlen; omega
  rw [hus, stream_inj hfit hg hug (by rw [hstream, hk', hsplit])]

end WatchWallet.BitGroups
