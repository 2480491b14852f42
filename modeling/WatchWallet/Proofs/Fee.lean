import WatchWallet.Fee
import WatchWallet.Oracle.Fixed
import WatchWallet.Proofs.Oracle.Percentiles

/-!
The fee that a request gets.

A request asks for the fee at one percentile. It is refused if that is too high, or if the oracle
has no fee there, and for no other reason of its own.
-/

namespace WatchWallet.FeeRequest

open WatchWallet.Action

/-- The percentile that a request is for. -/
def wanted : FeeRequest → ℕ
  | slow => 25
  | standard => 50
  | fast => 75
  | percentile value => value.toNat

lemma index_of_le {r : FeeRequest} (h : r.wanted ≤ 99) : r.index = .ok r.wanted := by
  cases r with
  | percentile value =>
    have hle : value ≤ 99 := UInt8.le_iff_toNat_le.mpr h
    exact if_pos hle
  | _ => rfl

lemma index_of_lt {r : FeeRequest} (h : 99 < r.wanted) :
    ∃ e : Error, r.index = .error e ∧ e.kind = .invalidPercentile := by
  cases r with
  | percentile value =>
    have hlt : ¬value ≤ 99 := fun hle => not_lt.mpr (UInt8.le_iff_toNat_le.mp hle) h
    exact ⟨_, if_neg hlt, rfl⟩
  | _ => exact absurd h (by decide)

section LookUp

variable {ω : Type} {o : Oracle ω} {n : Network} {s : ω} {fees : List UInt64} {r : FeeRequest}

lemma result_lookUp (hfees : (run (o.fees n) s).result = .ok fees) (h : r.wanted ≤ 99) :
    (run (r.lookUp o n) s).result =
      match fees[r.wanted]? with
      | some fee => .ok fee
      | none => .error (.percentileMissing fees.length) := by
  rw [lookUp, index_of_le h, run_bind, run_monadLift]
  simp only [run_bind]
  rcases hrun : run (o.fees n) s with ⟨result, t, es⟩
  obtain rfl : result = .ok fees := by rw [← hfees, hrun]
  cases hfee : fees[r.wanted]? <;> simp [hfee]

/-- Too high a request is refused before the oracle is asked. -/
lemma result_lookUp_of_lt (h : 99 < r.wanted) :
    ∃ e : Error, (run (r.lookUp o n) s).result = .error e ∧ e.kind = .invalidPercentile := by
  obtain ⟨e, he, hkind⟩ := index_of_lt h
  refine ⟨e, ?_, hkind⟩
  rw [lookUp, he, run_bind, run_monadLift]

lemma result_lookUp_eq_ok_iff (hfees : (run (o.fees n) s).result = .ok fees) {fee : UInt64} :
    (run (r.lookUp o n) s).result = .ok fee ↔ r.wanted ≤ 99 ∧ fees[r.wanted]? = some fee := by
  rcases le_or_gt r.wanted 99 with h | h
  · rw [result_lookUp hfees h]
    cases fees[r.wanted]? <;> simp [h]
  · obtain ⟨e, he, -⟩ := result_lookUp_of_lt (o := o) (n := n) (s := s) h
    simp [he, not_le.mpr h]

lemma refused_iff (hfees : (run (o.fees n) s).result = .ok fees) :
    (∃ e : Error, (run (r.lookUp o n) s).result = .error e ∧ e.kind = .invalidPercentile) ↔
      99 < r.wanted ∨ fees.length ≤ r.wanted := by
  rcases le_or_gt r.wanted 99 with h | h
  · rw [result_lookUp hfees h, or_iff_right (not_lt.mpr h), ← List.getElem?_eq_none_iff]
    cases fees[r.wanted]? with
    | none => exact iff_of_true ⟨_, rfl, rfl⟩ rfl
    | some fee => simp
  · exact iff_of_true (result_lookUp_of_lt h) (Or.inl h)

end LookUp

/-- **The fee at a percentile.** Five values that do not fall, and are small enough to be counted in
thousandths, are expanded to a hundred fees that do not fall either; a node that reports the values
asks no lower fee of a request for no lower percentile. Of any oracle the request gets the fee at
its percentile, and is refused just if it is too high or there is none. -/
theorem fee_at_percentile :
    (∀ values : List UInt64, values.length = 5 → values.Pairwise (· ≤ ·) →
      (∀ v ∈ values, v.toNat ≤ (2 ^ 64 - 1) / 1000) →
      ∃ fees, Node.expandPercentiles (Json.ofList Json.ofUInt64 values) = .ok fees ∧
        Node.Expanded values fees ∧
        ∀ {ω : Type} (cfg : Node.Config) (shell : Node.Shell ω) (s : ω),
          Node.Reporting cfg shell s values → ∀ low high : FeeRequest,
            low.wanted ≤ high.wanted → high.wanted ≤ 99 → ∃ fee fee' : UInt64,
              (run (low.lookUp (Node.oracle cfg shell) cfg.network) s).result = .ok fee ∧
              (run (high.lookUp (Node.oracle cfg shell) cfg.network) s).result = .ok fee' ∧
              fee ≤ fee') ∧
    ∀ {ω : Type} (o : Oracle ω) (n : Network) (s : ω) (fees : List UInt64),
      (run (o.fees n) s).result = .ok fees → ∀ r : FeeRequest,
        (∀ fee, (run (r.lookUp o n) s).result = .ok fee ↔
          r.wanted ≤ 99 ∧ fees[r.wanted]? = some fee) ∧
        ((∃ e : Error, (run (r.lookUp o n) s).result = .error e ∧
          e.kind = .invalidPercentile) ↔ 99 < r.wanted ∨ fees.length ≤ r.wanted) := by
  refine ⟨fun values hlen hsorted hbound => ?_, ?_⟩
  · have hfees := Node.expandPercentiles_eq hlen
    refine ⟨_, hfees, Node.expanded hlen hsorted hbound, ?_⟩
    intro ω cfg shell s hreporting low high hle hhigh
    obtain ⟨u, hresult, -⟩ := Node.yields_fees hreporting hfees
    have hanswer (r : FeeRequest) (hr : r.wanted ≤ 99) :
        (run (r.lookUp (Node.oracle cfg shell) cfg.network) s).result =
          .ok (Node.feeAt values r.wanted) := by
      refine (result_lookUp_eq_ok_iff hresult).mpr ⟨hr, ?_⟩
      simp [Nat.lt_succ_of_le hr]
    exact ⟨_, _, hanswer low (hle.trans hhigh), hanswer high hhigh,
      Node.feeAt_le_feeAt hlen hbound hsorted hle⟩
  · intro ω o n s fees hfees r
    exact ⟨fun fee => result_lookUp_eq_ok_iff hfees, refused_iff hfees⟩

/-- Five values that a node reports, and an oracle with a single fee. -/
theorem fee_at_percentile_of_five_values :
    let values : List UInt64 := [1, 2, 5, 10, 20]
    let stats : Json := .object [("feerate_percentiles", Json.ofList Json.ofUInt64 values)]
    let cfg : Node.Config := { network := .regtest }
    let shell : Node.Shell Unit := fun line s =>
      let output :=
        if line = Node.commandLine cfg "getblockcount" then "120\n" else stats.render none
      (some ⟨output, 0⟩, s)
    let single : Fixed := ⟨none, .empty, ⟨[], 0⟩, [7]⟩
    (∃ fees, Node.expandPercentiles (Json.ofList Json.ofUInt64 values) = .ok fees ∧
      Node.Expanded values fees) ∧
    (∃ fee fee' : UInt64,
      (run (slow.lookUp (Node.oracle cfg shell) .regtest) ()).result = .ok fee ∧
      (run (fast.lookUp (Node.oracle cfg shell) .regtest) ()).result = .ok fee' ∧ fee ≤ fee') ∧
    (run ((percentile 0).lookUp Fixed.oracle .regtest) single).result = .ok 7 ∧
    ∃ e : Error, (run (slow.lookUp Fixed.oracle .regtest) single).result = .error e ∧
      e.kind = .invalidPercentile := by
  intro values stats cfg shell single
  obtain ⟨fees, hfees, hexpanded, hnode⟩ :=
    fee_at_percentile.1 values rfl (by decide) (by simp [values])
  have hstats : stats.Printable := by
    refine .object (by simp) fun m hm => ?_
    obtain rfl := List.mem_singleton.mp hm
    exact (Json.faithful_listOf Json.faithful_uint64).printable values
  have hreporting : Node.Reporting cfg shell () values := by
    refine ⟨"120", (), stats, (), ?_, ?_, rfl⟩
    · have hnul : '\x00' ∉ "120\n".toList := by decide
      have hshown : Node.trimLineEnds "120\n" = "120" := by decide
      exact Node.yields_execute (by decide) hnul hshown (by decide)
    · have hnul : '\x00' ∉ (stats.render none).toList := by decide +kernel
      have hshown : Node.trimLineEnds (stats.render none) = stats.render none := by
        decide +kernel
      have hshell : shell (Node.commandLine cfg (Node.statsCommand "120")) () =
          (some ⟨stats.render none, 0⟩, ()) := by decide +kernel
      exact Node.yields_executeJson hstats
        (Node.yields_execute hshell hnul hshown (by decide +kernel))
  have hsingle := fee_at_percentile.2 Fixed.oracle .regtest single [7] rfl
  exact ⟨⟨fees, hfees, hexpanded⟩, hnode cfg shell () hreporting slow fast (by decide) (by decide),
    ((hsingle (percentile 0)).1 7).mpr (by decide), (hsingle slow).2.mpr (by decide)⟩

end WatchWallet.FeeRequest
