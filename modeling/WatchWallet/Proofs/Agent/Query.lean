import WatchWallet.Oracle.Fixed
import WatchWallet.Proofs.Agent.OwnOutputs

/-!
What a query counts.

A query carries two depths: the one that the oracle is asked at, and, with the layers, the one
that the address is tracked to. The second alone decides whether the agent's own outputs are merged
into the answer. So a query for deep outputs of an address that is tracked to depth zero counts
outputs that the transfers created, however deep the oracle was asked to look.
-/

namespace WatchWallet

open WatchWallet.Action

namespace Layers

/-- The first of the highest is among the earlier records if one of these is as high. -/
lemma FirstHighest.mem_left {us vs : List Utxo} {u w : Utxo} (h : FirstHighest (us ++ vs) u)
    (hw : w ∈ us) (hle : u.height ≤ w.height) : u ∈ us := by
  obtain ⟨before, since, heq, hbefore, -⟩ := h
  have hnot : w ∉ before := fun hw => UInt32.not_lt.mpr hle (hbefore w hw)
  rcases List.append_eq_append_iff.mp heq with ⟨more, rfl, -⟩ | ⟨rest, rfl, hrest⟩
  · exact absurd (List.mem_append_left _ hw) hnot
  · -- The rest of the earlier records starts with the first of the highest.
    cases rest with
    | nil => exact absurd (by simpa using hw) hnot
    | cons v rest =>
      obtain ⟨rfl, -⟩ := List.cons.inj hrest
      simp

/-- A view of depth zero shows nothing but what was reported exactly if each output that was
created, and not spent, is reported at no lesser height. -/
theorem view_subset_iff {l : Layers} (h : l.depth = 0) (raw : List Utxo) :
    (∀ u ∈ l.view raw, u ∈ raw) ↔
      ∀ u ∈ l.generated, u.outPoint ∉ l.spent →
        ∃ w ∈ raw, w.outPoint = u.outPoint ∧ u.height ≤ w.height := by
  have hshows := shows_view h raw
  constructor
  · intro hsub u hu hspent
    have hrecord : u ∈ raw ++ l.generated := List.mem_append_right _ hu
    obtain ⟨w, hw, hwu⟩ := List.mem_map.mp
      ((hshows.mem_iff u.outPoint).mpr ⟨List.mem_map_of_mem hrecord, hspent⟩)
    exact ⟨w, hsub w hw, hwu, (hshows.highest w hw).2 u hrecord hwu.symm⟩
  · intro hgenerated u hu
    have hspent : u.outPoint ∉ l.spent := ((hshows.mem_iff _).mp (List.mem_map_of_mem hu)).2
    rw [view, if_neg (by simp [h])] at hu
    have hbest := firstHighest_of_best (best_of_mem_distinct hu)
    rcases List.mem_append.mp (List.mem_filter.mp (List.mem_filter.mp hbest.mem).1).1 with hraw | hu'
    · exact hraw
    · obtain ⟨w, hw, hwu, hle⟩ := hgenerated u hu' hspent
      rw [List.filter_append, List.filter_append] at hbest
      have hw' : w ∈ (raw.filter (·.outPoint ∉ l.spent)).filter (·.outPoint = u.outPoint) := by
        simp [hw, hwu, hspent]
      exact (List.mem_filter.mp (List.mem_filter.mp (hbest.mem_left hw' hle)).1).1

end Layers

namespace UtxoQuery

variable {ω : Type} (oracle : Oracle ω) (q : UtxoQuery) (o : ω)

/-- A query of too great a depth does not reach the oracle. -/
lemma run_fetch_of_depth (h : maxDepth < q.depth) :
    run (q.fetch oracle) o = ⟨.error (.depthTooHigh q.depth), o, []⟩ := by
  simp [fetch, run_bind, checkDepth, h]

lemma result_fetch (h : q.depth ≤ maxDepth) :
    (run (q.fetch oracle) o).result =
      (run (oracle.snapshot q.network q.address q.depth) o).result.map fun raw =>
        ⟨q.address, q.layers.view raw.utxos, raw.tip⟩ := by
  have hnot : ¬maxDepth < q.depth := UInt32.not_lt.mpr h
  rcases hrun : run (oracle.snapshot q.network q.address q.depth) o with ⟨_ | _, o', es⟩ <;>
    simp [fetch, run_bind, checkDepth, hnot, hrun, Except.map]

lemma fetch_eq_ok {v : UtxoView} (h : (run (q.fetch oracle) o).result = .ok v) {raw : Snapshot}
    (hraw : (run (oracle.snapshot q.network q.address q.depth) o).result = .ok raw) :
    v = ⟨q.address, q.layers.view raw.utxos, raw.tip⟩ := by
  by_cases hdepth : maxDepth < q.depth
  · rw [run_fetch_of_depth oracle q o hdepth] at h
    cases h
  · rw [result_fetch oracle q o (UInt32.not_lt.mp hdepth), hraw] at h
    exact (Except.ok.inj h).symm

lemma result_balance :
    (run (q.balance oracle) o).result =
      (run (q.fetch oracle) o).result.map fun v => Utxo.balance v.utxos := by
  rcases hrun : run (q.fetch oracle) o with ⟨_ | _, o', es⟩ <;>
    simp [balance, hrun, Except.map]

/-- **What a query counts**, at every depth that it may have: an answer of the oracle as it is
where the address is tracked to a depth; else also what the transfers created and did not spend. So
it counts nothing that the oracle did not report exactly if the address is tracked to a depth, or
each of these outputs is reported, at no lesser height. -/
theorem counts_reported_iff {raw : Snapshot} (hdepth : q.depth ≤ maxDepth)
    (hraw : (run (oracle.snapshot q.network q.address q.depth) o).result = .ok raw) :
    ∃ v, (run (q.fetch oracle) o).result = .ok v ∧ v.address = q.address ∧ v.tip = raw.tip ∧
      (run (q.balance oracle) o).result = .ok (Utxo.balance v.utxos) ∧
      (q.layers.depth ≠ 0 → v.utxos = raw.utxos) ∧
      (∀ u ∈ v.utxos, u ∉ raw.utxos → u ∈ q.layers.generated ∧ u.outPoint ∉ q.layers.spent) ∧
      ((∀ u ∈ v.utxos, u ∈ raw.utxos) ↔
        q.layers.depth ≠ 0 ∨ ∀ u ∈ q.layers.generated, u.outPoint ∉ q.layers.spent →
          ∃ w ∈ raw.utxos, w.outPoint = u.outPoint ∧ u.height ≤ w.height) := by
  have hfetch : (run (q.fetch oracle) o).result =
      .ok ⟨q.address, q.layers.view raw.utxos, raw.tip⟩ := by
    rw [result_fetch oracle q o hdepth, hraw]
    rfl
  have hbalance : (run (q.balance oracle) o).result =
      .ok (Utxo.balance (q.layers.view raw.utxos)) := by
    rw [result_balance, hfetch]
    rfl
  refine ⟨_, hfetch, rfl, rfl, hbalance, ?_⟩
  by_cases htracked : q.layers.depth = 0
  · have hshows := Layers.shows_view htracked raw.utxos
    refine ⟨fun hne => absurd htracked hne, fun u hu hnot => ⟨?_, ?_⟩, ?_⟩
    · exact (List.mem_append.mp (hshows.highest u hu).1).resolve_left hnot
    · exact ((hshows.mem_iff _).mp (List.mem_map_of_mem hu)).2
    · rw [Layers.view_subset_iff htracked, or_iff_right (fun hne => hne htracked)]
  · have hview : q.layers.view raw.utxos = raw.utxos := by rw [Layers.view, if_pos htracked]
    rw [hview]
    exact ⟨fun _ => rfl, fun u hu hnot => absurd hu hnot,
      iff_of_true (fun _ => id) (Or.inl htracked)⟩

section Runs

lemma snapshot_fixed (n : Network) (x : Address) (depth : UInt32) (raw : Snapshot) :
    (run (Fixed.oracle.snapshot n x depth) ⟨none, .empty, raw, []⟩).result = .ok raw := rfl

/-- A created output has been confirmed since, and the oracle reports it at the depth that is asked
for: nothing else is counted. -/
theorem counts_reported_iff_of_confirmed :
    let new : Utxo := ⟨⟨[2], 1⟩, 4, 0⟩
    let raw : Snapshot := ⟨[{ new with height := 8 }], 10⟩
    let q : UtxoQuery := ⟨.regtest, default, 3, { Layers.fresh 0 with generated := [new] }⟩
    let o : Fixed := ⟨none, .empty, raw, []⟩
    q.depth ≤ maxDepth ∧
      (run (Fixed.oracle.snapshot q.network q.address q.depth) o).result = .ok raw ∧
      ∃ v, (run (q.fetch Fixed.oracle) o).result = .ok v ∧
        (run (q.balance Fixed.oracle) o).result = .ok (Utxo.balance v.utxos) ∧
        ∀ u ∈ v.utxos, u ∈ raw.utxos := by
  intro new raw q o
  have hdepth : q.depth ≤ maxDepth := by decide
  have hraw := snapshot_fixed q.network q.address q.depth raw
  obtain ⟨v, hfetch, -, -, hbalance, -, -, hiff⟩ :=
    counts_reported_iff Fixed.oracle q o hdepth hraw
  refine ⟨hdepth, hraw, v, hfetch, hbalance, hiff.mpr (Or.inr ?_)⟩
  decide

/-- A transfer creates an output for the main address, which is tracked to depth zero. An oracle
that is asked for outputs three blocks deep reports none, and yet the output is counted. -/
theorem unconfirmed_output_counted_at_depth :
    let k : ExtendedKey := ⟨Bytes.zeros 33, [], []⟩
    let a := Agent.adopting .standard ⟨.empty .regtest .p2wpkh, .empty, 0⟩ k
    let main := Address.ofKey .standard .regtest .p2wpkh k.publicKey
    let new : Utxo := ⟨⟨[2], 1⟩, 4, 0⟩
    let t : Transfer := ⟨[2], (∅ : AddressRef.Table (List Utxo)).insert main.ref [],
      (∅ : AddressRef.Table (List Utxo)).insert main.ref [new]⟩
    let b := Agent.after .standard a (.applyTransfer t)
    let o : Fixed := ⟨none, .empty, ⟨[], 9⟩, []⟩
    (run (Agent.applyTransfer .standard t) a).result = .ok () ∧
      ∃ q, b.query main 3 = .ok q ∧ q.depth = 3 ∧
        (run (Fixed.oracle.snapshot q.network q.address q.depth) o).result = .ok ⟨[], 9⟩ ∧
        (run (q.fetch Fixed.oracle) o).result = .ok ⟨main, [new], 9⟩ ∧
        (run (q.balance Fixed.oracle) o).result = .ok 4 := by
  intro k a main new t b o
  have hmain : Address.Belongs Crypto.Suite.standard.digests a.network main :=
    Address.belongs_ofKey .p2wpkh k.publicKey
  obtain ⟨happlied, hspent, hgenerated⟩ := Agent.applies_of_ref hmain [2] [] [new]
  have htracked : a.tracker.layers[main]? = some (.fresh 0) :=
    Agent.fresh_of_adopting .standard Std.ExtTreeMap.mem_insertIfNew_self
  -- the address stays a name from here on: no step is to compute its digests
  clear_value a main
  have hspare : Agent.Spares .standard a main (.applyTransfer t) := trivial
  obtain ⟨l, hl, hrecorded⟩ := Agent.exists_recorded_after htracked hspare
  rw [hspent, hgenerated] at hrecorded
  obtain ⟨hdepth, hnone, hnew⟩ := hrecorded
  have hview : l.view [] = [new] := by
    rw [Layers.view, hdepth, hnone, hnew]
    decide +kernel
  let q : UtxoQuery := ⟨b.network, main, 3, l⟩
  have hquery : b.query main 3 = .ok q := by
    rw [Agent.query_eq, Agent.layersOf, Tracker.layersOf_of_some hl]
    rfl
  have hfetch : (run (q.fetch Fixed.oracle) o).result = .ok ⟨main, [new], 9⟩ := by
    have hmax : (3 : UInt32) ≤ maxDepth := by decide
    rw [result_fetch Fixed.oracle q o hmax, snapshot_fixed, ← hview]
    rfl
  refine ⟨happlied, q, hquery, rfl, rfl, hfetch, ?_⟩
  rw [result_balance, hfetch]
  rfl

end Runs

end UtxoQuery

end WatchWallet
