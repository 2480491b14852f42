import WatchWallet.Proofs.Oracle.Simulated

/-!
What a simulated oracle reports follows from what it was told.

Of the outputs that were added for an address, those stand that were not removed from it afterwards,
in the order in which they were added. A query gives those of them that are confirmed to the depth
that it asks for.
-/

namespace WatchWallet

/-- Confirmed to a depth, counted without bounds. -/
lemma Utxo.hasDepth_iff (u : Utxo) (tip depth : UInt32) :
    u.hasDepth tip depth = true ↔ u.height.toNat + depth.toNat ≤ tip.toNat + 1 := by
  rw [hasDepth, decide_eq_true_iff]
  omega

namespace Simulated

open WatchWallet.Action

/-- The outputs that were added for an address and not removed from it afterwards. -/
def standing (a : Address) : List Call → List Utxo
  | [] => []
  | .addUtxo b u :: later =>
    if b = a ∧ .removeUtxo a u.outPoint ∉ later then u :: standing a later else standing a later
  | _ :: later => standing a later

/-- What an oracle with a private key was told before any call: one output for its main address. -/
def opening (c : Crypto.Suite) (t : ScriptType) (s : Simulated) : List Call :=
  if s.privateKey.isEmpty then []
  else [.addUtxo (Address.ofKey c.digests s.network t s.key.publicKey) (firstOutput maxDepth)]

/-- The outputs that are confirmed to a depth. -/
def confirmed (tip depth : UInt32) (us : List Utxo) : List Utxo :=
  us.filter fun u => u.height.toNat + depth.toNat ≤ tip.toNat + 1

lemma filter_hasDepth (tip depth : UInt32) (us : List Utxo) :
    us.filter (·.hasDepth tip depth) = confirmed tip depth us := by
  refine List.filter_congr fun u _ => ?_
  rw [Bool.eq_iff_iff, u.hasDepth_iff, decide_eq_true_iff]

/-- A smaller depth and a higher tip hide nothing. -/
lemma confirmed_sublist {tip tip' depth depth' : UInt32} (htip : tip ≤ tip')
    (hdepth : depth' ≤ depth) (us : List Utxo) :
    (confirmed tip depth us).Sublist (confirmed tip' depth' us) := by
  refine List.monotone_filter_right us fun u hu => ?_
  rw [decide_eq_true_iff] at hu ⊢
  rw [UInt32.le_iff_toNat_le] at htip hdepth
  omega

section Calls

variable (c : Crypto.Suite)

/-! ### One call -/

lemma network_after (s : Simulated) (call : Call) : (after c s call).network = s.network := by
  cases call with
  | snapshot | fees | sign => simp
  | send transaction n =>
    obtain ⟨waiting, h⟩ := exists_after_send c s transaction n
    rw [h]
  | _ => rfl

/-- What a call does to the outputs of an address. -/
def Call.outputs (a : Address) (us : List Utxo) : Call → List Utxo
  | .addUtxo b u => if b = a then us ++ [u] else us
  | .removeUtxo b o => if b = a then us.filter (·.outPoint ≠ o) else us
  | _ => us

lemma outputsOf_insert (s : Simulated) (a b : Address) (us : List Utxo) :
    { s with utxos := s.utxos.insert b us }.outputsOf a = if b = a then us else s.outputsOf a := by
  simp only [outputsOf, Std.ExtTreeMap.getD_insert, Std.LawfulEqOrd.compare_eq_iff_eq]

lemma outputsOf_after (s : Simulated) (call : Call) (a : Address) :
    (after c s call).outputsOf a = call.outputs a (s.outputsOf a) := by
  cases call with
  | addUtxo b u =>
    have h : after c s (.addUtxo b u) =
        { s with utxos := s.utxos.insert b (s.outputsOf b ++ [u]) } := rfl
    rw [h, outputsOf_insert, Call.outputs]
    split_ifs with hb
    · rw [hb]
    · rfl
  | removeUtxo b o =>
    have h : after c s (.removeUtxo b o) =
        { s with utxos := s.utxos.insert b ((s.outputsOf b).filter (·.outPoint ≠ o)) } := rfl
    rw [h, outputsOf_insert, Call.outputs]
    split_ifs with hb
    · rw [hb]
    · rfl
  | snapshot | fees | sign => simp [Call.outputs]
  | send transaction n =>
    obtain ⟨waiting, h⟩ := exists_after_send c s transaction n
    rw [h]
    rfl
  | _ => rfl

/-! ### A run -/

lemma network_foldl (s : Simulated) (calls : List Call) :
    (calls.foldl (after c) s).network = s.network := by
  induction calls generalizing s with
  | nil => rfl
  | cons call calls ih => rw [List.foldl_cons, ih, network_after]

/-- What there was before stands if no call of the run removes it; the rest stands by the run. -/
theorem outputsOf_foldl (s : Simulated) (calls : List Call) (a : Address) :
    (calls.foldl (after c) s).outputsOf a =
      (s.outputsOf a).filter (fun u => .removeUtxo a u.outPoint ∉ calls) ++ standing a calls := by
  induction calls generalizing s with
  | nil => simp [standing]
  | cons call calls ih =>
    rw [List.foldl_cons, ih, outputsOf_after]
    cases call with
    | addUtxo b u =>
      by_cases hb : b = a
      · by_cases hu : .removeUtxo a u.outPoint ∈ calls <;>
          simp [Call.outputs, standing, hb, hu, List.filter_append]
      · simp [Call.outputs, standing, hb]
    | removeUtxo b o =>
      by_cases hb : b = a
      · simp [Call.outputs, standing, hb, List.filter_filter, Bool.and_comm]
      · simp [Call.outputs, standing, hb, Ne.symm hb]
    | _ => simp [Call.outputs, standing]

/-- From no outputs at all, the run alone says what stands. -/
lemma outputsOf_foldl_of_empty (s : Simulated) (calls : List Call) (a : Address) :
    (calls.foldl (after c) { s with utxos := ∅ }).outputsOf a = standing a calls := by
  have h : { s with utxos := ∅ }.outputsOf a = [] := Std.ExtTreeMap.getD_empty
  rw [outputsOf_foldl, h, List.filter_nil, List.nil_append]

end Calls

variable {c : Crypto.Suite} {n : Network} {t : ScriptType} {privateKey chainCode : Bytes}
  {s : Simulated}

lemma network_of_create (h : create c n t privateKey chainCode = .ok s) : s.network = n := by
  obtain ⟨-, rfl⟩ | ⟨pub, -, -, rfl⟩ := create_cases h <;> rfl

/-- An oracle is made as if it had been told its opening. -/
lemma foldl_opening (h : create c n t privateKey chainCode = .ok s) :
    (opening c t s).foldl (after c) { s with utxos := ∅ } = s := by
  obtain ⟨-, rfl⟩ | ⟨pub, hne, -, rfl⟩ := create_cases h
  · rfl
  · have hempty : privateKey.isEmpty = false := by simpa using hne
    simp [opening, hempty, after, addUtxo, outputsOf]

/-- **The answer of a simulated oracle**, whatever it was told and asked since it was made: the
outputs that stand and are confirmed to the depth, in the order in which they were added. A larger
depth gives a part of them, and under a higher tip none of them is missing. -/
theorem answers_from_history (h : create c n t privateKey chainCode = .ok s) (calls : List Call)
    (a : Address) (depth : UInt32) :
    let now := calls.foldl (after c) s
    let answer (o : Simulated) (depth : UInt32) := (run ((oracle c).snapshot n a depth) o).result
    ∃ view, answer now depth = .ok view ∧
      view = ⟨confirmed now.tip depth (standing a (opening c t s ++ calls)), now.tip⟩ ∧
      (∀ deeper, depth ≤ deeper →
        ∃ part, answer now deeper = .ok part ∧ part.utxos.Sublist view.utxos) ∧
      ∀ tip, now.tip ≤ tip →
        ∃ more, answer (after c now (.setTip tip)) depth = .ok more ∧
          view.utxos.Sublist more.utxos := by
  intro now answer
  have hnow : now = (opening c t s ++ calls).foldl (after c) { s with utxos := ∅ } := by
    rw [List.foldl_append, foldl_opening h]
  have hstanding : now.outputsOf a = standing a (opening c t s ++ calls) := by
    rw [hnow, outputsOf_foldl_of_empty]
  have hnetwork : now.network = n := by rw [network_foldl, network_of_create h]
  have hanswer : ∀ o depth, o.network = n →
      answer o depth = .ok ⟨confirmed o.tip depth (o.outputsOf a), o.tip⟩ := by
    intro o depth ho
    rw [← filter_hasDepth]
    exact (congrArg Outcome.result (run_snapshot n a depth o)).trans (if_pos ho.symm)
  refine ⟨_, hanswer now depth hnetwork, by rw [hstanding], fun deeper hdepth => ?_,
    fun tip htip => ?_⟩
  · exact ⟨_, hanswer now deeper hnetwork, confirmed_sublist (UInt32.le_refl _) hdepth _⟩
  · exact ⟨_, hanswer (after c now (.setTip tip)) depth hnetwork,
      confirmed_sublist htip (UInt32.le_refl _) _⟩

/-- The first output is removed, and another has the greatest height and no block above it. -/
theorem answers_from_history_of_greatest_height :
    ∃ s, create .standard .regtest .p2wpkh [1] [] = .ok s ∧
      let main := Address.ofKey .standard .regtest .p2wpkh s.key.publicKey
      let u : Utxo := ⟨⟨[7], 0⟩, 5, 0xffffffff⟩
      let calls : List Call :=
        [.removeUtxo main (firstOutput maxDepth).outPoint, .addUtxo main u, .setTip 0xffffffff]
      let answer (depth : UInt32) :=
        (run ((oracle .standard).snapshot .regtest main depth)
          (calls.foldl (after .standard) s)).result
      answer 1 = .ok ⟨[u], 0xffffffff⟩ ∧ answer 2 = .ok ⟨[], 0xffffffff⟩ := by
  have hcreate : ∃ s, create .standard .regtest .p2wpkh [1] [] = .ok s := by
    have hkey : ¬Crypto.Suite.standard.curve.order ∣ Bytes.toNat [1] := by decide
    obtain ⟨pub, hpub⟩ := Key.exists_ofPrivate Crypto.Curve.secp256k1_lawful hkey
    have hne : ¬([1] : Bytes).isEmpty = true := by decide
    rw [create, if_neg hne, hpub]
    exact ⟨_, rfl⟩
  obtain ⟨s, hs⟩ := hcreate
  refine ⟨s, hs, ?_⟩
  intro main u calls answer
  have hcalls : standing main calls = [u] := by simp [calls, standing]
  have hstanding : standing main (opening .standard .p2wpkh s ++ calls) = [u] := by
    unfold opening
    split_ifs
    · exact hcalls
    · -- the opening is for an address, and the first call removes its output from that
      simp [standing, calls, firstOutput, u]
  have htip : (calls.foldl (after .standard) s).tip = 0xffffffff := rfl
  have hview : ∀ depth, answer depth = .ok ⟨confirmed 0xffffffff depth [u], 0xffffffff⟩ := by
    intro depth
    obtain ⟨_, hanswer, rfl, -⟩ := answers_from_history hs calls main depth
    rwa [hstanding, htip] at hanswer
  exact ⟨hview 1, hview 2⟩

end Simulated

end WatchWallet
