import Mathlib.Data.List.Pairwise
import WatchWallet.Oracle.Node
import WatchWallet.Proofs.Action
import WatchWallet.Proofs.Json.Codec

/-!
The fees of a node.

Each of a hundred buckets is served by one of the percentiles that a node reports. They can be
served in one pass, since what is passed over for one bucket is below all that follow.
-/

namespace WatchWallet.Node

open WatchWallet.Action

/-! ### One pass -/

/-- Goes on past the percentiles below a bucket, but not past the last one. -/
def advance (i : ℕ) : List (ℕ × UInt64) → List (ℕ × UInt64)
  | e :: f :: left => if e.1 < i then advance i (f :: left) else e :: f :: left
  | left => left

/-- The fee where the pass stands. -/
def charge : List (ℕ × UInt64) → UInt64
  | e :: _ => e.2 * 1000
  | [] => 0

/-- The fees of buckets in their order; each goes on from where the one before stood. -/
def sweep : List (ℕ × UInt64) → List ℕ → List UInt64
  | _, [] => []
  | left, i :: is => charge (advance i left) :: sweep (advance i left) is

/-- What is passed over for one bucket would be for any that follows. -/
lemma advance_advance {i j : ℕ} (h : i ≤ j) (left : List (ℕ × UInt64)) :
    advance j (advance i left) = advance j left := by
  fun_induction advance i left with
  | case1 e f left hlt ih => rw [ih, advance, if_pos (hlt.trans_le h)]
  | case2 => rfl
  | case3 => rfl

/-- **One pass** serves each bucket as a search from the start would. -/
theorem sweep_eq_map {is : List ℕ} (h : is.Pairwise (· ≤ ·)) (left : List (ℕ × UInt64)) :
    sweep left is = is.map fun i => charge (advance i left) := by
  induction is generalizing left with
  | nil => rfl
  | cons i is ih =>
    obtain ⟨hi, his⟩ := List.pairwise_cons.mp h
    rw [sweep, List.map_cons, ih his]
    refine congrArg (charge (advance i left) :: ·) (List.map_congr_left fun j hj => ?_)
    rw [advance_advance (hi j hj)]

/-- Where a bucket is served: all before is below it, and it is not below, or nothing is left. -/
structure Stops (i : ℕ) (all passed : List (ℕ × UInt64)) (e : ℕ × UInt64)
    (left : List (ℕ × UInt64)) : Prop where
  all_eq : all = passed ++ e :: left
  passed_lt : ∀ f ∈ passed, f.1 < i
  le_or_last : i ≤ e.1 ∨ left = []

lemma exists_stops (i : ℕ) {all : List (ℕ × UInt64)} (h : all ≠ []) :
    ∃ passed e left, Stops i all passed e left ∧ advance i all = e :: left := by
  fun_induction advance i all with
  | case1 e f left hlt ih =>
    obtain ⟨passed, g, rest, ⟨hall, hpassed, hstop⟩, hadvance⟩ := ih (List.cons_ne_nil f left)
    refine ⟨e :: passed, g, rest, ⟨by rw [hall, List.cons_append], ?_, hstop⟩, hadvance⟩
    exact List.forall_mem_cons.mpr ⟨hlt, hpassed⟩
  | case2 e f left hge =>
    exact ⟨[], e, f :: left, ⟨rfl, by simp, Or.inl (not_lt.mp hge)⟩, rfl⟩
  | case3 left hshort =>
    -- a single percentile serves every bucket
    obtain ⟨e, left, rfl⟩ := List.exists_cons_of_ne_nil h
    obtain rfl : left = [] := by
      cases left with
      | nil => rfl
      | cons f left => exact (hshort e f left rfl).elim
    exact ⟨[], e, [], ⟨rfl, by simp, Or.inr rfl⟩, rfl⟩

/-! ### What serves a bucket -/

/-- The value of the least reported percentile that is not below a bucket, or of the 90th where
there is none. -/
def Serves (values : List UInt64) (i : ℕ) (v : UInt64) : Prop :=
  ∃ p, (p, v) ∈ reported.zip values ∧
    (i ≤ p ∧ (∀ q ∈ reported, i ≤ q → p ≤ q) ∨ (∀ q ∈ reported, q < i) ∧ p = 90)

section Values

variable {values : List UInt64} (hlen : values.length = reported.length)
include hlen

lemma map_fst_zip : (reported.zip values).map Prod.fst = reported :=
  List.map_fst_zip hlen.ge

lemma map_snd_zip : (reported.zip values).map Prod.snd = values :=
  List.map_snd_zip hlen.le

lemma zip_ne_nil : reported.zip values ≠ [] := by
  intro h
  have := map_fst_zip hlen
  rw [h] at this
  cases this

lemma feeAt_eq {i : ℕ} {passed left : List (ℕ × UInt64)} {e : ℕ × UInt64}
    (h : Stops i (reported.zip values) passed e left) : feeAt values i = e.2 * 1000 := by
  have hpassed : passed.find? (fun f => decide (i ≤ f.1)) = none := by
    rw [List.find?_eq_none]
    intro f hf
    simpa using h.passed_lt f hf
  have hfind : (reported.zip values).find? (fun f => decide (i ≤ f.1)) =
      (e :: left).find? fun f => decide (i ≤ f.1) := by
    rw [h.all_eq, List.find?_append, hpassed, Option.none_or]
  by_cases hle : i ≤ e.1
  · rw [List.find?_cons_of_pos (by simpa using hle)] at hfind
    simp [feeAt, hfind]
  · obtain rfl := h.le_or_last.resolve_left hle
    rw [List.find?_cons_of_neg (by simpa using hle), List.find?_nil] at hfind
    have hlast : values.getLast?.getD 0 = e.2 := by
      rw [← map_snd_zip hlen, h.all_eq]
      simp
    simp [feeAt, hfind, hlast]

lemma feeAt_eq_charge (i : ℕ) : feeAt values i = charge (advance i (reported.zip values)) := by
  obtain ⟨passed, e, left, hstops, hadvance⟩ := exists_stops i (zip_ne_nil hlen)
  rw [feeAt_eq hlen hstops, hadvance, charge]

lemma serves_of_stops {i : ℕ} {passed left : List (ℕ × UInt64)} {e : ℕ × UInt64}
    (h : Stops i (reported.zip values) passed e left) : Serves values i e.2 := by
  have hmem : e ∈ reported.zip values := by rw [h.all_eq]; simp
  have hall : reported = passed.map Prod.fst ++ e.1 :: left.map Prod.fst := by
    rw [← map_fst_zip hlen, h.all_eq, List.map_append, List.map_cons]
  have hpassed : ∀ q ∈ passed.map Prod.fst, q < i := by
    intro q hq
    obtain ⟨f, hf, rfl⟩ := List.mem_map.mp hq
    exact h.passed_lt f hf
  refine ⟨e.1, hmem, ?_⟩
  by_cases hle : i ≤ e.1
  · refine Or.inl ⟨hle, fun q hq hiq => ?_⟩
    have hsorted : reported.Pairwise (· < ·) := by decide
    rw [hall] at hq hsorted
    obtain ⟨-, hsorted, -⟩ := List.pairwise_append.mp hsorted
    rcases List.mem_append.mp hq with hq | hq
    · exact absurd (hpassed q hq) (not_lt.mpr hiq)
    · rcases List.mem_cons.mp hq with rfl | hq
      · exact le_rfl
      · exact ((List.pairwise_cons.mp hsorted).1 q hq).le
  · obtain rfl := h.le_or_last.resolve_left hle
    refine Or.inr ⟨fun q hq => ?_, ?_⟩
    · rw [hall, List.map_nil] at hq
      rcases List.mem_append.mp hq with hq | hq
      · exact hpassed q hq
      · rw [List.mem_singleton.mp hq]
        exact not_le.mp hle
    · have hlast := congrArg List.getLast? hall
      rw [List.map_nil, List.getLast?_concat] at hlast
      exact (Option.some.inj hlast).symm

/-- Later buckets are served further on. -/
lemma le_of_stops {i j : ℕ} (h : i ≤ j) (hsorted : values.Pairwise (· ≤ ·))
    {passed left left' : List (ℕ × UInt64)} {e e' : ℕ × UInt64}
    (hi : Stops i (reported.zip values) passed e left)
    (hadvance : advance i (reported.zip values) = e :: left)
    (hadvance' : advance j (reported.zip values) = e' :: left') : e.2 ≤ e'.2 := by
  obtain ⟨passed'', f, left'', hj, hf⟩ := exists_stops j (List.cons_ne_nil e left)
  rw [← advance_advance h, hadvance, hf] at hadvance'
  obtain rfl := (List.cons.inj hadvance').1
  have hmem : f ∈ e :: left := by rw [hj.all_eq]; simp
  have hpairs : (e :: left).Pairwise fun a b => a.2 ≤ b.2 := by
    rw [← map_snd_zip hlen, hi.all_eq, List.pairwise_map] at hsorted
    exact (List.pairwise_append.mp hsorted).2.1
  rcases List.mem_cons.mp hmem with rfl | hmem
  · exact UInt64.le_refl _
  · exact (List.pairwise_cons.mp hpairs).1 f hmem

/-- Below the bound nothing is lost. -/
lemma toNat_feeAt (hbound : ∀ v ∈ values, v.toNat ≤ (2 ^ 64 - 1) / 1000) {i : ℕ}
    {passed left : List (ℕ × UInt64)} {e : ℕ × UInt64}
    (h : Stops i (reported.zip values) passed e left) :
    (feeAt values i).toNat = 1000 * e.2.toNat := by
  have hmem : e.2 ∈ values := by
    rw [← map_snd_zip hlen, h.all_eq]
    simp
  have hle := hbound _ hmem
  rw [feeAt_eq hlen h, UInt64.toNat_mul]
  have hk : (1000 : UInt64).toNat = 1000 := rfl
  rw [hk, Nat.mod_eq_of_lt (by omega), Nat.mul_comm]

lemma feeAt_le_feeAt (hbound : ∀ v ∈ values, v.toNat ≤ (2 ^ 64 - 1) / 1000)
    (hsorted : values.Pairwise (· ≤ ·)) {i j : ℕ} (h : i ≤ j) :
    feeAt values i ≤ feeAt values j := by
  obtain ⟨_, e, _, hi, hadvance⟩ := exists_stops i (zip_ne_nil hlen)
  obtain ⟨_, e', _, hj, hadvance'⟩ := exists_stops j (zip_ne_nil hlen)
  have hle := UInt64.le_iff_toNat_le.mp (le_of_stops hlen h hsorted hi hadvance hadvance')
  rw [UInt64.le_iff_toNat_le, toNat_feeAt hlen hbound hi, toNat_feeAt hlen hbound hj]
  omega

lemma expandPercentiles_eq : expandPercentiles (Json.ofList Json.ofUInt64 values) =
    .ok ((List.range 100).map (feeAt values)) := by
  have hread : (values.map Json.ofUInt64).mapM Json.uint64 = .ok values :=
    (Json.faithful_listOf Json.faithful_uint64).read_write values
  have hcount : ¬(values.map Json.ofUInt64).length ≠ reported.length := by simp [hlen]
  rw [expandPercentiles, Json.ofList, Json.items?]
  simp only [if_neg hcount, hread]

end Values

/-! ### A hundred buckets -/

/-- The fees of a hundred buckets, in thousandths, where a node reports `values`. -/
structure Expanded (values fees : List UInt64) : Prop where
  length_eq : fees.length = 100
  sorted : fees.Pairwise (· ≤ ·)
  swept : fees = sweep (reported.zip values) (List.range 100)
  bucket : ∀ i < 100, ∃ v fee, Serves values i v ∧ fees[i]? = some fee ∧
    fee.toNat = 1000 * v.toNat

lemma expanded {values : List UInt64} (hlen : values.length = reported.length)
    (hsorted : values.Pairwise (· ≤ ·))
    (hbound : ∀ v ∈ values, v.toNat ≤ (2 ^ 64 - 1) / 1000) :
    Expanded values ((List.range 100).map (feeAt values)) where
  length_eq := by rw [List.length_map, List.length_range]
  sorted := by
    rw [List.pairwise_map]
    exact List.pairwise_le_range.imp fun h => feeAt_le_feeAt hlen hbound hsorted h
  swept := by
    rw [sweep_eq_map List.pairwise_le_range]
    exact List.map_congr_left fun i _ => feeAt_eq_charge hlen i
  bucket := by
    intro i hi
    obtain ⟨_, e, _, hstops, -⟩ := exists_stops i (zip_ne_nil hlen)
    exact ⟨e.2, feeAt values i, serves_of_stops hlen hstops, by simp [hi],
      toNat_feeAt hlen hbound hstops⟩

-- a bucket at a reported percentile is still served by it, and those behind the last one by that
example : [0, 10, 11, 25, 26, 90, 91].map (feeAt [1, 2, 5, 10, 20]) =
    [1000, 1000, 2000, 2000, 5000, 20000, 20000] := by decide

/-! ### The node -/

/-- A node that answers what it is asked, and reports `values` for its last block. -/
def Reporting {ω : Type} (cfg : Config) (shell : Shell ω) (s : ω) (values : List UInt64) : Prop :=
  ∃ height t stats u, Yields (execute cfg shell "getblockcount") s height t ∧
    Yields (executeJson cfg shell (statsCommand height)) t stats u ∧
    stats.member? "feerate_percentiles" = some (Json.ofList Json.ofUInt64 values)

section Reporting

variable {ω : Type} {cfg : Config} {shell : Shell ω} {s t : ω}

/-- A command that ends well and shows something, without a NUL in it. -/
lemma yields_execute {command output text : String}
    (hshell : shell (commandLine cfg command) s = (some ⟨output, 0⟩, t))
    (hnul : '\x00' ∉ output.toList) (htext : trimLineEnds output = text)
    (hne : text.isEmpty = false) : Yields (execute cfg shell command) s text t := by
  have hreply : Yields (modifyGet (shell (commandLine cfg command)) : Action ω (Option Reply)) s
      (some ⟨output, 0⟩) t := by simp [Yields, hshell]
  refine yields_bind ⟨rfl, rfl⟩ (yields_bind hreply ?_)
  subst htext
  simp [LineBuffer.arriving_of_no_nul hnul, hne, Yields]

lemma yields_executeJson {command : String} {v : Json} (hv : v.Printable) {indent : Option ℕ}
    (h : Yields (execute cfg shell command) s (v.render indent) t) :
    Yields (executeJson cfg shell command) s v t := by
  refine yields_bind h ?_
  simp [Json.parse_render indent hv, Yields]

lemma yields_fees {values fees : List UInt64} (h : Reporting cfg shell s values)
    (hfees : expandPercentiles (Json.ofList Json.ofUInt64 values) = .ok fees) :
    ∃ u, Yields ((oracle cfg shell).fees cfg.network) s fees u := by
  obtain ⟨height, t, stats, u, hheight, hstats, hmember⟩ := h
  have hnetwork : Yields (checkNetwork cfg cfg.network) s () s := by
    rw [checkNetwork, if_pos rfl]
    exact ⟨rfl, rfl⟩
  refine ⟨u, yields_bind hnetwork (yields_bind hheight (yields_bind hstats ?_))⟩
  simp only [hmember, hfees]
  exact ⟨rfl, rfl⟩

end Reporting

end WatchWallet.Node
