import Mathlib.Data.Nat.Bitwise
import Mathlib.Tactic.Lemma
import WatchWallet.Proofs.Radix

/-!
Many words at once: the same map of bits, linear in exclusive or, applied to words that stand side
by side in one number.

To clear a word is to apply a map that takes it to zero; what was zero before stays so. Clearing
one word after another shows which words the others do not make up: those that are not zero in the
end.
-/

namespace WatchWallet

lemma add_mul_xor {k a b : ℕ} (ha : a < 2 ^ k) (hb : b < 2 ^ k) (m n : ℕ) :
    (a + 2 ^ k * m) ^^^ (b + 2 ^ k * n) = (a ^^^ b) + 2 ^ k * (m ^^^ n) := by
  have hmod : ((a + 2 ^ k * m) ^^^ (b + 2 ^ k * n)) % 2 ^ k = a ^^^ b := by
    rw [Nat.xor_mod_two_pow, Nat.add_mul_mod_self_left, Nat.add_mul_mod_self_left,
      Nat.mod_eq_of_lt ha, Nat.mod_eq_of_lt hb]
  have hdiv : ((a + 2 ^ k * m) ^^^ (b + 2 ^ k * n)) / 2 ^ k = m ^^^ n := by
    rw [Nat.xor_div_two_pow, Nat.add_mul_div_left _ _ (Nat.two_pow_pos k),
      Nat.add_mul_div_left _ _ (Nat.two_pow_pos k), Nat.div_eq_of_lt ha, Nat.div_eq_of_lt hb,
      Nat.zero_add, Nat.zero_add]
  rw [← Nat.mod_add_div ((a + 2 ^ k * m) ^^^ (b + 2 ^ k * n)) (2 ^ k), hmod, hdiv]

lemma xor_low {a b k : ℕ} (hb : b < 2 ^ k) : a * 2 ^ k ^^^ b = b + 2 ^ k * a := by
  have h := add_mul_xor (Nat.two_pow_pos k) hb a 0
  rw [Nat.zero_add, Nat.mul_zero, Nat.add_zero, Nat.zero_xor, Nat.xor_zero] at h
  rw [Nat.mul_comm a, h]

/-! ### Maps of bits -/

/-- The map goes through exclusive or. -/
def Linear (f : ℕ → ℕ) : Prop := ∀ x y, f (x ^^^ y) = f x ^^^ f y

namespace Linear

variable {f g : ℕ → ℕ}

lemma map_zero (hf : Linear f) : f 0 = 0 := by
  have h := hf 0 0
  rwa [Nat.xor_self, Nat.xor_self] at h

lemma comp (hf : Linear f) (hg : Linear g) : Linear (f ∘ g) := by
  intro x y
  rw [Function.comp_apply, hg, hf, Function.comp_apply, Function.comp_apply]

lemma iterate (hf : Linear f) (n : ℕ) : Linear f^[n] := by
  induction n with
  | zero => exact fun _ _ => rfl
  | succ n ih => exact ih.comp hf

lemma xor (hf : Linear f) (hg : Linear g) : Linear fun x => f x ^^^ g x := by
  intro x y
  simp only [hf x y, hg x y]
  ac_rfl

/-- Linear maps that agree on the single bits agree. -/
lemma eq_of_two_pow (hf : Linear f) (hg : Linear g) {n : ℕ} (h : ∀ i < n, f (2 ^ i) = g (2 ^ i)) :
    ∀ x < 2 ^ n, f x = g x := by
  induction n with
  | zero =>
    intro x hx
    obtain rfl : x = 0 := by simpa using hx
    rw [hf.map_zero, hg.map_zero]
  | succ n ih =>
    have ih := ih fun i hi => h i (by omega)
    intro x hx
    rcases Nat.lt_or_ge x (2 ^ n) with hlt | hge
    · exact ih x hlt
    · have hrest : x - 2 ^ n < 2 ^ n := by
        rw [Nat.pow_succ] at hx
        omega
      have hsplit : x = 2 ^ n ^^^ (x - 2 ^ n) := by
        have hxor := xor_low (a := 1) hrest
        rw [Nat.one_mul] at hxor
        omega
      rw [hsplit, hf, hg, h n (by omega), ih _ hrest]

end Linear

/-- The word `v` if a bit of `x` is set. -/
def select (t v x : ℕ) : ℕ := (x >>> t &&& 1) * v

lemma select_eq (t v x : ℕ) : select t v x = if x.testBit t then v else 0 := by
  rw [select, Nat.and_one_is_mod, Nat.shiftRight_eq_div_pow, ← Nat.toNat_testBit]
  cases x.testBit t <;> simp

lemma linear_select (t v : ℕ) : Linear (select t v) := by
  intro x y
  simp only [select_eq, Nat.testBit_xor]
  cases x.testBit t <;> cases y.testBit t <;> simp

lemma select_lt {n v : ℕ} (hv : v < 2 ^ n) (t x : ℕ) : select t v x < 2 ^ n := by
  rw [select_eq]
  split_ifs
  · exact hv
  · exact Nat.two_pow_pos n

/-- Takes the word `v` to zero, by its highest bit. -/
def clear (v x : ℕ) : ℕ := x ^^^ select v.log2 v x

lemma linear_clear (v : ℕ) : Linear (clear v) :=
  Linear.xor (fun _ _ => rfl) (linear_select v.log2 v)

lemma clear_self (v : ℕ) : clear v v = 0 := by
  rcases eq_or_ne v 0 with rfl | hv
  · rfl
  · rw [clear, select_eq, Nat.testBit_log2 hv, if_pos rfl, Nat.xor_self]

lemma clear_lt {n v x : ℕ} (hv : v < 2 ^ n) (hx : x < 2 ^ n) : clear v x < 2 ^ n :=
  Nat.xor_lt_two_pow hx (select_lt hv _ _)

/-! ### Words side by side -/

/-- Words side by side, in lanes of 32 bits. -/
def pack (ws : List ℕ) : ℕ := Radix.value (2 ^ 32) ws

@[simp] lemma pack_nil : pack [] = 0 := rfl
@[simp] lemma pack_cons (w : ℕ) (ws : List ℕ) : pack (w :: ws) = w + 2 ^ 32 * pack ws := rfl

section Pack

variable {ws : List ℕ} {f g : ℕ → ℕ}

lemma pack_map_xor (hf : ∀ w ∈ ws, f w < 2 ^ 32) (hg : ∀ w ∈ ws, g w < 2 ^ 32) :
    pack (ws.map f) ^^^ pack (ws.map g) = pack (ws.map fun w => f w ^^^ g w) := by
  induction ws with
  | nil => exact Nat.xor_self 0
  | cons w ws ih =>
    simp only [List.map_cons, pack_cons]
    rw [add_mul_xor (hf w (by simp)) (hg w (by simp)),
      ih (fun w hw => hf w (by simp [hw])) fun w hw => hg w (by simp [hw])]

lemma pack_map_mul (v : ℕ) : pack (ws.map f) * v = pack (ws.map fun w => f w * v) := by
  induction ws with
  | nil => exact Nat.zero_mul v
  | cons w ws ih => simp only [List.map_cons, pack_cons, ← ih, Nat.add_mul, Nat.mul_assoc]

lemma pack_map_add : pack (ws.map f) + pack (ws.map g) = pack (ws.map fun w => f w + g w) := by
  induction ws with
  | nil => rfl
  | cons w ws ih =>
    simp only [List.map_cons, pack_cons, ← ih]
    omega

lemma bit_add_mul {t : ℕ} (ht : t < 32) {a : ℕ} (ha : a < 2 ^ 32) (m n : ℕ) :
    (a + 2 ^ 32 * m) >>> t &&& (1 + 2 ^ 32 * n) = (a >>> t &&& 1) + 2 ^ 32 * (m >>> t &&& n) := by
  have hbit : a >>> t &&& 1 < 2 ^ 32 := Nat.and_lt_two_pow _ (by decide)
  refine Nat.eq_of_testBit_eq fun i => ?_
  rw [Nat.add_comm a, Nat.add_comm 1, Nat.add_comm (a >>> t &&& 1), Nat.testBit_and,
    Nat.testBit_shiftRight, Nat.testBit_two_pow_mul_add _ ha,
    Nat.testBit_two_pow_mul_add _ (by decide), Nat.testBit_two_pow_mul_add _ hbit]
  rcases Nat.lt_or_ge i 32 with hi | hi
  · rcases Nat.eq_zero_or_pos i with rfl | hpos
    · simp [ht]
    · have hone : (1 : ℕ).testBit i = false := Nat.testBit_lt_two_pow (Nat.one_lt_two_pow hpos.ne')
      rw [if_pos hi, if_pos hi, hone, Bool.and_false, Nat.testBit_and, hone, Bool.and_false]
  · rw [if_neg (by omega), if_neg (by omega), if_neg (by omega), Nat.testBit_and,
      Nat.testBit_shiftRight, Nat.add_sub_assoc hi]

/-- One bit of every lane. -/
lemma pack_map_bit {t : ℕ} (ht : t < 32) (hf : ∀ w ∈ ws, f w < 2 ^ 32) :
    pack (ws.map f) >>> t &&& pack (ws.map fun _ => 1) =
      pack (ws.map fun w => f w >>> t &&& 1) := by
  induction ws with
  | nil => exact Nat.and_zero _
  | cons w ws ih =>
    simp only [List.map_cons, pack_cons]
    rw [bit_add_mul ht (hf w (by simp)), ih fun w hw => hf w (by simp [hw])]

lemma eq_of_pack_map_eq (hf : ∀ w ∈ ws, f w < 2 ^ 32) (hg : ∀ w ∈ ws, g w < 2 ^ 32)
    (h : pack (ws.map f) = pack (ws.map g)) : ∀ w ∈ ws, f w = g w := by
  induction ws with
  | nil => simp
  | cons w ws ih =>
    have hfw := hf w (by simp)
    have hgw := hg w (by simp)
    simp only [List.map_cons, pack_cons] at h
    refine List.forall_mem_cons.mpr ⟨by omega, ih ?_ ?_ (by omega)⟩
    · exact fun w hw => hf w (by simp [hw])
    · exact fun w hw => hg w (by simp [hw])

lemma pack_shiftRight (h : ∀ w ∈ ws, w < 2 ^ 32) (r : ℕ) :
    pack ws >>> (32 * r) = pack (ws.drop r) := by
  induction r generalizing ws with
  | zero => rfl
  | succ r ih =>
    cases ws with
    | nil => simp
    | cons w ws =>
      rw [Nat.mul_succ, Nat.add_comm, Nat.shiftRight_add, List.drop_succ_cons,
        ← ih fun w hw => h w (by simp [hw])]
      congr 1
      have hw := h w (by simp)
      rw [Nat.shiftRight_eq_div_pow, pack_cons]
      omega

end Pack

/-! ### Clearing words -/

def lane (m r : ℕ) : ℕ := m >>> (32 * r) % 2 ^ 32

/-- Clears the word in a lane, in all lanes at once; `ones` has a one in every lane. -/
def clearLane (ones m r : ℕ) : ℕ := m ^^^ (m >>> (lane m r).log2 &&& ones) * lane m r

/-- Whether no lane is zero: where none is, adding the rest carries into bit 30. -/
def noneZero (ones m : ℕ) : Bool := (m + ones * (2 ^ 30 - 1)) >>> 30 &&& ones = ones

/-- The number is that of the words under a linear map. -/
structure Holds (ws : List ℕ) (f : ℕ → ℕ) (m : ℕ) : Prop where
  linear : Linear f
  lt : ∀ w < 2 ^ 30, f w < 2 ^ 30
  eq_pack : m = pack (ws.map f)

section Holds

variable {ws : List ℕ} (hws : ∀ w ∈ ws, w < 2 ^ 30) {f : ℕ → ℕ} {m : ℕ}
include hws

lemma Holds.map_lt (h : Holds ws f m) : ∀ w ∈ ws, f w < 2 ^ 32 :=
  fun w hw => (h.lt w (hws w hw)).trans (by decide)

lemma Holds.map_getD_lt (h : Holds ws f m) (r : ℕ) : f (ws.getD r 0) < 2 ^ 30 := by
  refine h.lt _ ?_
  rcases Nat.lt_or_ge r ws.length with hr | hr
  · rw [List.getD_eq_getElem _ _ hr]
    exact hws _ (List.getElem_mem hr)
  · rw [List.getD_eq_default _ _ hr]
    decide

lemma Holds.shiftRight_eq (h : Holds ws f m) (r : ℕ) :
    m >>> (32 * r) = pack ((ws.drop r).map f) := by
  rw [h.eq_pack, pack_shiftRight, List.map_drop]
  simp only [List.forall_mem_map]
  exact h.map_lt hws

lemma Holds.lane_eq (h : Holds ws f m) (r : ℕ) : lane m r = f (ws.getD r 0) := by
  have hlt := h.map_getD_lt hws r
  rw [lane, h.shiftRight_eq hws]
  rcases Nat.lt_or_ge r ws.length with hr | hr
  · rw [List.getD_eq_getElem _ _ hr] at hlt ⊢
    rw [List.drop_eq_getElem_cons hr, List.map_cons, pack_cons, Nat.add_mul_mod_self_left,
      Nat.mod_eq_of_lt (by omega)]
  · rw [List.drop_eq_nil_of_le hr, List.getD_eq_default _ _ hr, h.linear.map_zero]
    rfl

/-- Clearing a lane applies a map that takes its word to zero. -/
lemma Holds.clear (h : Holds ws f m) (r : ℕ) :
    Holds ws (clear (f (ws.getD r 0)) ∘ f) (clearLane (pack (ws.map fun _ => 1)) m r) := by
  have hv := h.map_getD_lt hws r
  rw [clearLane, h.lane_eq hws]
  set v := f (ws.getD r 0)
  refine ⟨(linear_clear v).comp h.linear, fun w hw => clear_lt hv (h.lt w hw), ?_⟩
  have hlog : v.log2 < 32 := by
    rcases eq_or_ne v 0 with hzero | hne
    · rw [hzero]
      decide
    · exact (Nat.log2_lt hne).mpr (by omega)
  have hselect : ∀ w ∈ ws, (f w >>> v.log2 &&& 1) * v < 2 ^ 32 :=
    fun w _ => select_lt (hv.trans (by decide)) v.log2 (f w)
  rw [h.eq_pack, pack_map_bit hlog (h.map_lt hws), pack_map_mul,
    pack_map_xor (h.map_lt hws) hselect]
  rfl

lemma Holds.exists_clear (h : Holds ws f m) (rs : List ℕ) :
    ∃ g, Holds ws g (rs.foldl (clearLane (pack (ws.map fun _ => 1))) m) ∧
      (∀ w, f w = 0 → g w = 0) ∧ ∀ r ∈ rs, g (ws.getD r 0) = 0 := by
  induction rs generalizing f m with
  | nil => exact ⟨f, h, fun _ hw => hw, by simp⟩
  | cons r rs ih =>
    obtain ⟨g, hg, hkept, hcleared⟩ := ih (h.clear hws r)
    refine ⟨g, hg, fun w hw => hkept w ?_, List.forall_mem_cons.mpr ⟨hkept _ ?_, hcleared⟩⟩
    · rw [Function.comp_apply, hw]
      exact (linear_clear _).map_zero
    · exact clear_self _

lemma Holds.ne_zero_of_noneZero (h : Holds ws f m) {k : ℕ}
    (hnone : noneZero (pack (ws.map fun _ => 1) >>> (32 * k)) (m >>> (32 * k)) = true) :
    ∀ w ∈ ws.drop k, f w ≠ 0 := by
  have hones : pack (ws.map fun _ => 1) >>> (32 * k) = pack ((ws.drop k).map fun _ => 1) := by
    rw [pack_shiftRight (by simp), List.map_drop]
  have hlt : ∀ w ∈ ws.drop k, f w < 2 ^ 30 :=
    fun w hw => h.lt w (hws w (List.mem_of_mem_drop hw))
  have hsum : ∀ w ∈ ws.drop k, f w + 1 * (2 ^ 30 - 1) < 2 ^ 32 := by
    intro w hw
    have := hlt w hw
    omega
  rw [hones, noneZero, decide_eq_true_iff, h.shiftRight_eq hws, pack_map_mul, pack_map_add,
    pack_map_bit (by decide) hsum] at hnone
  intro w hw hzero
  have hbit := eq_of_pack_map_eq (fun w _ => Nat.and_lt_two_pow _ (by decide))
    (fun _ _ => by decide) hnone w hw
  rw [hzero] at hbit
  exact absurd hbit (by decide)

end Holds

end WatchWallet
