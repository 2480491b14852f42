import WatchWallet.Proofs.Text.Checksum
import WatchWallet.Proofs.Text.Lanes

/-!
Up to four wrong symbols do not cancel out.

What wrong symbols add to the checksum is their syndrome: each moves up from its position, and the
results are added. It is linear, and to multiply all errors by the same symbol multiplies it; so it
is enough to look at errors of which the last is one. For each two positions, and the first, there
is a map that takes every error there to zero, and a one at any later position to something else.
-/

namespace WatchWallet.Bech32

/-! ### The step on numbers -/

/-- What the bits that moved out add to the state. -/
def feed (top : ℕ) : ℕ :=
  select 0 0x3b6a57b2 top ^^^ select 1 0x26508e6d top ^^^ select 2 0x1ea119fa top ^^^
    select 3 0x3d4233dd top ^^^ select 4 0x2a1462b3 top

/-- The state moved up by one position. -/
def up (s : ℕ) : ℕ := (s % 2 ^ 25) <<< 5 ^^^ feed (s >>> 25)

lemma linear_feed : Linear feed :=
  ((((linear_select 0 _).xor (linear_select 1 _)).xor (linear_select 2 _)).xor
    (linear_select 3 _)).xor (linear_select 4 _)

lemma linear_up : Linear up := by
  intro x y
  simp only [up, Nat.xor_mod_two_pow, Nat.shiftLeft_xor_distrib, Nat.shiftRight_xor_distrib,
    linear_feed _ _]
  ac_rfl

lemma feed_lt (top : ℕ) : feed top < 2 ^ 30 := by
  refine Nat.xor_lt_two_pow (Nat.xor_lt_two_pow (Nat.xor_lt_two_pow (Nat.xor_lt_two_pow ?_ ?_) ?_)
    ?_) ?_
  all_goals exact select_lt (by decide) _ _

lemma up_lt (s : ℕ) : up s < 2 ^ 30 := by
  refine Nat.xor_lt_two_pow ?_ (feed_lt _)
  rw [Nat.shiftLeft_eq]
  omega

/-- No state but zero moves up to zero: the bits that move out leave a trace in the low five. -/
lemma eq_zero_of_up_eq_zero {s : ℕ} (hs : s < 2 ^ 30) (h : up s = 0) : s = 0 := by
  have htrace : ∀ top < 32, feed top % 2 ^ 5 = 0 → top = 0 := by decide
  have htop : s >>> 25 < 32 := by
    rw [Nat.shiftRight_eq_div_pow]
    omega
  have hlow : up s % 2 ^ 5 = feed (s >>> 25) % 2 ^ 5 := by
    rw [up, Nat.xor_mod_two_pow, Nat.shiftLeft_eq, Nat.mul_mod_left, Nat.zero_xor]
  have hzero := htrace _ htop (by rw [← hlow, h, Nat.zero_mod])
  rw [up, hzero, linear_feed.map_zero, Nat.xor_zero, Nat.shiftLeft_eq] at h
  rw [Nat.shiftRight_eq_div_pow] at hzero
  omega

lemma toNat_polymodStep (s v : UInt32) : (polymodStep s v).toNat = v.toNat ^^^ up s.toNat := by
  have htop : (s >>> 25).toNat = s.toNat >>> 25 := UInt32.toNat_shiftRight s 25
  have hreduce : ∀ (mask : UInt32) (i : ℕ) (generator : UInt32), mask.toNat = 2 ^ i →
      (reduce (s >>> 25) mask generator).toNat = select i generator.toNat (s.toNat >>> 25) := by
    intro mask i generator hmask
    rw [reduce_eq hmask, select_eq, htop]
    split_ifs <;> rfl
  rw [polymodStep_eq, up, feed, Nat.shiftLeft_eq, ← toNat_low]
  simp only [UInt32.toNat_xor, hreduce 1 0 _ rfl, hreduce 2 1 _ rfl, hreduce 4 2 _ rfl,
    hreduce 8 3 _ rfl, hreduce 16 4 _ rfl, UInt32.reduceToNat]
  ac_rfl

/-! ### Syndromes -/

/-- What errors add to the state, the last symbol first. -/
def syndrome (es : List ℕ) : ℕ := es.foldr (fun e s => e ^^^ up s) 0

@[simp] lemma syndrome_nil : syndrome [] = 0 := rfl
@[simp] lemma syndrome_cons (e : ℕ) (es : List ℕ) :
    syndrome (e :: es) = e ^^^ up (syndrome es) := rfl

lemma toNat_polymodFrom_zero_eq (vs : Bytes) :
    (polymodFrom 0 vs).toNat = syndrome (Bytes.digits vs).reverse := by
  induction vs using List.reverseRecOn with
  | nil => rfl
  | append_singleton vs v ih =>
    rw [polymodFrom_append, polymodFrom_cons, polymodFrom_nil, toNat_polymodStep, ih]
    simp [Bytes.digits]

lemma syndrome_lt {es : List ℕ} (h : ∀ e ∈ es, e < 32) : syndrome es < 2 ^ 30 := by
  cases es with
  | nil => decide
  | cons e es => exact Nat.xor_lt_two_pow ((h e (by simp)).trans (by decide)) (up_lt _)

lemma syndrome_append (es fs : List ℕ) :
    syndrome (es ++ fs) = syndrome es ^^^ up^[es.length] (syndrome fs) := by
  induction es with
  | nil => simp
  | cons e es ih =>
    rw [List.cons_append, syndrome_cons, ih, linear_up, syndrome_cons, List.length_cons,
      Function.iterate_succ_apply', Nat.xor_assoc]

/-- The map takes every error at a position to zero. -/
def Kills (f : ℕ → ℕ) (q : ℕ) : Prop := ∀ e < 32, f (up^[q] e) = 0

lemma map_syndrome_eq_zero {f : ℕ → ℕ} (hf : Linear f) {es : List ℕ} (hes : ∀ e ∈ es, e < 32)
    {q : ℕ} (h : ∀ i e, es[i]? = some e → e = 0 ∨ Kills f (q + i)) :
    f (up^[q] (syndrome es)) = 0 := by
  induction es generalizing q with
  | nil => rw [syndrome_nil, (linear_up.iterate q).map_zero, hf.map_zero]
  | cons e es ih =>
    have hrest := ih (fun e he => hes e (by simp [he])) (q := q + 1) fun i e he => by
      rw [Nat.add_assoc, Nat.add_comm 1]
      exact h (i + 1) e he
    have hfirst : f (up^[q] e) = 0 := by
      rcases h 0 e rfl with rfl | hkills
      · rw [(linear_up.iterate q).map_zero, hf.map_zero]
      · exact hkills e (hes e (by simp))
    rw [syndrome_cons, linear_up.iterate q, hf, hfirst, ← Function.iterate_succ_apply, hrest,
      Nat.xor_self]

/-! ### Multiplying by a symbol -/

/-- Each symbol, as a polynomial modulo `x ^ 5 + x ^ 3 + 1`, is multiplied by `x`. -/
def double (s : ℕ) : ℕ :=
  (s &&& 0x1ef7bdef) <<< 1 ^^^ (s >>> 4 &&& 0x02108421) ^^^ (s >>> 4 &&& 0x02108421) <<< 3

lemma linear_double : Linear double := by
  intro x y
  simp only [double, Nat.and_xor_distrib_right, Nat.shiftLeft_xor_distrib,
    Nat.shiftRight_xor_distrib]
  ac_rfl

lemma double_lt (s : ℕ) : double s < 2 ^ 30 := by
  have hlow : s &&& 0x1ef7bdef < 2 ^ 29 := Nat.and_lt_two_pow _ (by decide)
  have hhigh : s >>> 4 &&& 0x02108421 < 2 ^ 26 := Nat.and_lt_two_pow _ (by decide)
  refine Nat.xor_lt_two_pow (Nat.xor_lt_two_pow ?_ ?_) ?_
  · rw [Nat.shiftLeft_eq]
    omega
  · omega
  · rw [Nat.shiftLeft_eq]
    omega

lemma iterate_double_lt {e : ℕ} (he : e < 32) (n : ℕ) : double^[n] e < 32 := by
  have hsymbol : ∀ e < 32, double e < 32 := by decide
  induction n with
  | zero => exact he
  | succ n ih =>
    rw [Function.iterate_succ_apply']
    exact hsymbol _ ih

lemma double_up : ∀ s < 2 ^ 30, double (up s) = up (double s) :=
  (linear_double.comp linear_up).eq_of_two_pow (linear_up.comp linear_double) (by decide)

lemma iterate_double_up (n : ℕ) {s : ℕ} (hs : s < 2 ^ 30) :
    double^[n] (up s) = up (double^[n] s) := by
  induction n generalizing s with
  | zero => rfl
  | succ n ih =>
    rw [Function.iterate_succ_apply, double_up s hs, ih (double_lt s), Function.iterate_succ_apply]

/-- Every symbol but zero can be brought to one. -/
lemma exists_iterate_double_eq_one : ∀ v < 32, v ≠ 0 → ∃ n < 31, double^[n] v = 1 := by
  decide +kernel

lemma syndrome_map {h : ℕ → ℕ} (hlinear : Linear h) (hup : ∀ s < 2 ^ 30, h (up s) = up (h s))
    {es : List ℕ} (hes : ∀ e ∈ es, e < 32) : syndrome (es.map h) = h (syndrome es) := by
  induction es with
  | nil => exact hlinear.map_zero.symm
  | cons e es ih =>
    have htail : ∀ e ∈ es, e < 32 := fun e he => hes e (by simp [he])
    rw [List.map_cons, syndrome_cons, ih htail, syndrome_cons, hlinear, hup _ (syndrome_lt htail)]

/-! ### Independent positions -/

/-- The words at one position, and what they become at the next ones. -/
def words : (count : ℕ) → List ℕ → List ℕ
  | 0, _ => []
  | count + 1, ws => ws ++ words count (ws.map up)

lemma length_words (count : ℕ) (ws : List ℕ) : (words count ws).length = count * ws.length := by
  induction count generalizing ws with
  | zero => simp [words]
  | succ count ih => rw [words, List.length_append, ih, List.length_map, Nat.succ_mul, Nat.add_comm]

lemma getElem?_words {count q b : ℕ} {ws : List ℕ} (hq : q < count) (hb : b < ws.length) :
    (words count ws)[ws.length * q + b]? = ws[b]?.map up^[q] := by
  induction count generalizing q ws with
  | zero => omega
  | succ count ih =>
    rw [words]
    cases q with
    | zero => rw [Nat.mul_zero, Nat.zero_add, List.getElem?_append_left hb]; simp
    | succ q =>
      have hindex : ws.length * (q + 1) + b - ws.length = (ws.map up).length * q + b := by
        rw [List.length_map, Nat.mul_succ]
        omega
      rw [List.getElem?_append_right (by rw [Nat.mul_succ]; omega), hindex,
        ih (by omega) (by simpa using hb), List.getElem?_map, Option.map_map]
      rfl

lemma words_lt {count : ℕ} {ws : List ℕ} (h : ∀ w ∈ ws, w < 2 ^ 30) :
    ∀ w ∈ words count ws, w < 2 ^ 30 := by
  induction count generalizing ws with
  | zero => simp [words]
  | succ count ih =>
    rw [words, List.forall_mem_append]
    refine ⟨h, ih ?_⟩
    simp only [List.forall_mem_map]
    exact fun w _ => up_lt w

/-- The single bits at each position that the data of a program can have. -/
def table : List ℕ := words 59 [1, 2, 4, 8, 16]

lemma table_lt : ∀ w ∈ table, w < 2 ^ 30 := words_lt (by decide)

lemma table_getD {q b : ℕ} (hq : q < 59) (hb : b < 5) :
    table.getD (5 * q + b) 0 = up^[q] (2 ^ b) := by
  have hbit : ∀ b < 5, [1, 2, 4, 8, 16][b]? = some (2 ^ b) := by decide
  have h := getElem?_words hq (show b < [1, 2, 4, 8, 16].length from hb)
  rw [hbit b hb] at h
  rw [List.getD_eq_getElem?_getD, table]
  exact congrArg (Option.getD · 0) h

def ones : ℕ := pack (table.map fun _ => 1)

def clearColumn (m q : ℕ) : ℕ :=
  [5 * q, 5 * q + 1, 5 * q + 2, 5 * q + 3, 5 * q + 4].foldl (clearLane ones) m

/-- Whether nothing is zero after a position, when all words there, at one before it and at the
first are cleared. -/
def independentAfter (i j : ℕ) : Bool :=
  noneZero (ones >>> (32 * (5 * (j + 1))))
    (clearColumn (clearColumn (clearColumn (pack table) 0) i) j >>> (32 * (5 * (j + 1))))

def independent : Bool :=
  (List.range 58).all fun i => (List.range 58).all fun j => j < i || independentAfter i j

/-- The one fact about the five generators that no argument gives: it is computed. -/
theorem independent_eq_true : independent = true := by decide +kernel

lemma independentAfter_eq_true {i j : ℕ} (hij : i ≤ j) (hj : j < 58) :
    independentAfter i j = true := by
  have hall := independent_eq_true
  simp only [independent, List.all_eq_true, List.mem_range, Bool.or_eq_true,
    decide_eq_true_eq] at hall
  exact (hall i (by omega) j hj).resolve_left (by omega)

lemma exists_clearColumn {f : ℕ → ℕ} {m q : ℕ} (h : Holds table f m) (hq : q < 59) :
    ∃ g, Holds table g (clearColumn m q) ∧ (∀ w, f w = 0 → g w = 0) ∧ Kills g q := by
  obtain ⟨g, hg, hkept, hcleared⟩ :=
    h.exists_clear table_lt [5 * q, 5 * q + 1, 5 * q + 2, 5 * q + 3, 5 * q + 4]
  refine ⟨g, hg, hkept, ?_⟩
  have hzero : Linear fun _ => 0 := fun _ _ => (Nat.xor_self 0).symm
  refine (hg.linear.comp (linear_up.iterate q)).eq_of_two_pow (n := 5) hzero fun b hb => ?_
  rw [Function.comp_apply, ← table_getD hq hb]
  refine hcleared _ ?_
  simp only [List.mem_cons, List.not_mem_nil, or_false]
  omega

lemma Kills.mono {f g : ℕ → ℕ} {q : ℕ} (h : Kills f q) (hkept : ∀ w, f w = 0 → g w = 0) :
    Kills g q :=
  fun e he => hkept _ (h e he)

/-- Errors at any two positions and the first can be taken to zero, but not those at a later one. -/
lemma exists_kills {i j k : ℕ} (hij : i ≤ j) (hjk : j < k) (hk : k < 59) :
    ∃ f, Linear f ∧ Kills f 0 ∧ Kills f i ∧ Kills f j ∧ f (up^[k] 1) ≠ 0 := by
  have hstart : Holds table id (pack table) :=
    ⟨fun _ _ => rfl, fun _ hw => hw, by rw [List.map_id]⟩
  obtain ⟨f₁, h₁, -, hfirst⟩ := exists_clearColumn hstart (q := 0) (by omega)
  obtain ⟨f₂, h₂, hkept₂, hi⟩ := exists_clearColumn h₁ (q := i) (by omega)
  obtain ⟨f, h, hkept, hj⟩ := exists_clearColumn h₂ (q := j) (by omega)
  refine ⟨f, h.linear, (hfirst.mono hkept₂).mono hkept, hi.mono hkept, hj, ?_⟩
  have hword : up^[k] 1 = table.getD (5 * k + 0) 0 := (table_getD hk (b := 0) (by decide)).symm
  have hlen : table.length = 295 := length_words 59 _
  rw [hword, List.getD_eq_getElem _ _ (by omega)]
  refine h.ne_zero_of_noneZero table_lt (independentAfter_eq_true hij (by omega)) _ ?_
  rw [List.mem_drop_iff_getElem]
  exact ⟨5 * (k - (j + 1)), by omega, by congr 1; omega⟩

/-! ### Four errors -/

lemma syndrome_append_zero (es : List ℕ) : syndrome (es ++ [0]) = syndrome es := by
  rw [syndrome_append, syndrome_cons, syndrome_nil, linear_up.map_zero, Nat.xor_self,
    (linear_up.iterate _).map_zero, Nat.xor_zero]

lemma syndrome_append_one (es : List ℕ) :
    syndrome (es ++ [1]) = syndrome es ^^^ up^[es.length] 1 := by
  rw [syndrome_append, syndrome_cons, syndrome_nil, linear_up.map_zero, Nat.xor_zero]

/-- Two positions cover up to two errors; they are counted from one, for those after the first. -/
lemma exists_cover {es : List ℕ} (h : es.countP (· ≠ 0) ≤ 2) :
    ∃ i j, i ≤ j ∧ j ≤ es.length ∧ ∀ p ∈ es.findIdxs (· ≠ 0) 1, p = i ∨ p = j := by
  have hlt : ∀ p ∈ es.findIdxs (· ≠ 0) 1, p < es.length + 1 := List.lt_add_of_mem_findIdxs
  have hpairwise : (es.findIdxs (· ≠ 0) 1).Pairwise (· < ·) := List.pairwise_findIdxs
  rw [← List.length_findIdxs (s := 1)] at h
  generalize es.findIdxs (· ≠ 0) 1 = ps at h hlt hpairwise
  rcases ps with _ | ⟨i, _ | ⟨j, _ | ⟨k, ps⟩⟩⟩
  · exact ⟨0, 0, le_refl _, by omega, by simp⟩
  · have hi := hlt i (by simp)
    exact ⟨i, i, le_refl _, by omega, by simp⟩
  · have hij : i < j := by simpa using hpairwise
    have hj := hlt j (by simp)
    exact ⟨i, j, by omega, by omega, by simp⟩
  · simp at h

/-- Errors of which the last is one, with up to two between it and the first, do not cancel out. -/
lemma syndrome_ne_zero_of_one {e : ℕ} {es : List ℕ} (hes : ∀ d ∈ e :: es, d < 32)
    (hlen : es.length < 58) (h : es.countP (· ≠ 0) ≤ 2) : syndrome (e :: es ++ [1]) ≠ 0 := by
  obtain ⟨i, j, hij, hj, hcover⟩ := exists_cover h
  obtain ⟨f, hf, h0, hi, hj, hone⟩ :=
    exists_kills hij (by omega : j < es.length + 1) (by omega)
  have hkilled : f (syndrome (e :: es)) = 0 := by
    refine map_syndrome_eq_zero hf hes (q := 0) fun p d hd => ?_
    rw [Nat.zero_add]
    rcases eq_or_ne d 0 with hzero | hne
    · exact Or.inl hzero
    · refine Or.inr ?_
      cases p with
      | zero => exact h0
      | succ p =>
        have hmem : p + 1 ∈ es.findIdxs (· ≠ 0) 1 := by
          rw [List.getElem?_cons_succ] at hd
          obtain ⟨hp, rfl⟩ := List.getElem?_eq_some_iff.mp hd
          rw [List.mem_findIdxs_iff_getElem_sub_pos]
          exact ⟨by omega, hp, by simpa using hne⟩
        rcases hcover _ hmem with heq | heq
        · rwa [heq]
        · rwa [heq]
  intro hzero
  rw [syndrome_append_one] at hzero
  have hsum := congrArg f hzero
  rw [hf, hkilled, hf.map_zero, Nat.zero_xor] at hsum
  exact hone hsum

/-- The last error may be any: all errors are brought to a multiple of which it is one. -/
lemma syndrome_ne_zero_of_last {e v : ℕ} {es : List ℕ} (hes : ∀ d ∈ e :: es ++ [v], d < 32)
    (hv : v ≠ 0) (hlen : es.length < 58) (h : es.countP (· ≠ 0) ≤ 2) :
    syndrome (e :: es ++ [v]) ≠ 0 := by
  obtain ⟨n, -, hn⟩ := exists_iterate_double_eq_one v (hes v (by simp)) hv
  have hdouble : Linear double^[n] := linear_double.iterate n
  intro hzero
  have hscaled := syndrome_map hdouble (fun s hs => iterate_double_up n hs) hes
  rw [hzero, hdouble.map_zero, List.map_append, List.map_cons, List.map_singleton, hn] at hscaled
  refine syndrome_ne_zero_of_one ?_ ?_ ?_ hscaled
  · rw [← List.map_cons, List.forall_mem_map]
    exact fun d hd => iterate_double_lt (hes d (List.mem_append_left _ hd)) n
  · rwa [List.length_map]
  · refine le_trans ?_ h
    rw [List.countP_map]
    refine List.countP_mono_left fun d _ hd => ?_
    rw [decide_eq_true_iff]
    rintro rfl
    exact (decide_eq_true_iff.mp hd) hdouble.map_zero

/-- The errors end at the last that is not zero. -/
lemma syndrome_ne_zero_of_first {e : ℕ} {es : List ℕ} (hes : ∀ d ∈ e :: es, d < 32) (he : e ≠ 0)
    (hlen : es.length ≤ 58) (h : es.countP (· ≠ 0) ≤ 3) : syndrome (e :: es) ≠ 0 := by
  induction es using List.reverseRecOn with
  | nil =>
    rw [syndrome_cons, syndrome_nil, linear_up.map_zero, Nat.xor_zero]
    exact he
  | append_singleton es v ih =>
    rw [← List.cons_append] at hes ⊢
    rw [List.length_append, List.length_singleton] at hlen
    rw [List.countP_append, List.countP_singleton] at h
    rcases eq_or_ne v 0 with rfl | hv
    · -- A symbol without an error at the other end adds nothing.
      rw [syndrome_append_zero]
      exact ih (fun d hd => hes d (List.mem_append_left _ hd)) (by omega) (by simpa using h)
    · rw [if_pos (by simpa using hv)] at h
      exact syndrome_ne_zero_of_last hes hv (by omega) (by omega)

/-- **Distance**: one to four errors, at positions that the data of a program can have, do not
cancel out. -/
theorem syndrome_ne_zero {es : List ℕ} (hes : ∀ e ∈ es, e < 32) (hlen : es.length ≤ 59)
    (hpos : 0 < es.countP (· ≠ 0)) (hfour : es.countP (· ≠ 0) ≤ 4) : syndrome es ≠ 0 := by
  induction es with
  | nil => simp at hpos
  | cons e es ih =>
    rw [List.length_cons] at hlen
    rcases eq_or_ne e 0 with rfl | he
    · rw [List.countP_cons_of_neg (by simp)] at hpos hfour
      have htail : ∀ e ∈ es, e < 32 := fun e he => hes e (by simp [he])
      intro hzero
      rw [syndrome_cons, Nat.zero_xor] at hzero
      -- Without an error in the last symbol, the others move up as they are.
      exact ih htail (by omega) hpos hfour (eq_zero_of_up_eq_zero (syndrome_lt htail) hzero)
    · rw [List.countP_cons_of_pos (by simpa using he)] at hfour
      exact syndrome_ne_zero_of_first hes he (by omega) (by omega)

end WatchWallet.Bech32
