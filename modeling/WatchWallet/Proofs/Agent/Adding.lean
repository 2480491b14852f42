import WatchWallet.Proofs.Agent.Isolation
import WatchWallet.Proofs.Agent.Managed

/-!
Addresses can be added in any order, and again.

What a request for an address answers follows from the root, never from what is managed already, and
only where the address is new does it change anything. So a list of requests leaves for each address
what a single request for it would have left, and nothing tells in which order the requests came, or
how often; unless two of them ask for one address differently, where the first counts.
-/

namespace WatchWallet.Agent

open WatchWallet.Action

/-- What is asked for: the address along a path, of a script type, to be tracked to a depth. -/
structure Request where
  path : Path
  scriptType : ScriptType
  depth : UInt32
deriving DecidableEq

section Requests

variable (c : Crypto.Suite)

def request (r : Request) : Action Agent Address := addWith c r.path r.scriptType r.depth

def requestAll (rs : List Request) : Action Agent (List Address) := rs.mapM (request c)

variable {c} {a b : Agent} {r : Request} {x : Address}

/-! ### One request -/

/-- The request is within the bounds, and the root leads to the address. -/
structure Granted (c : Crypto.Suite) (a : Agent) (r : Request) (x : Address) : Prop where
  depth_le : r.depth ≤ maxDepth
  length_le : r.path.length ≤ maxPathLength
  derived : ∃ k, a.registry.derive c r.path r.scriptType = .ok (k, x)

lemma Granted.congr (h : Granted c a r x) (hb : b.setting = a.setting) : Granted c b r x := by
  refine ⟨h.depth_le, h.length_le, ?_⟩
  have hnetwork : b.registry.network = a.registry.network := congrArg Setting.network hb
  rw [derive_congr c hnetwork (congrArg Setting.root hb)]
  exact h.derived

lemma Granted.yields_of_mem (h : Granted c a r x) (hx : x ∈ a.registry.keys) :
    Yields (request c r) a x a := by
  obtain ⟨k, hk⟩ := h.derived
  exact yields_addWith_of_mem c h.depth_le h.length_le hk hx

/-- The address is answered, and it is managed then. -/
lemma Granted.yields (h : Granted c a r x) :
    ∃ b, Yields (request c r) a x b ∧ x ∈ b.registry.keys := by
  by_cases hx : x ∈ a.registry.keys
  · exact ⟨a, h.yields_of_mem hx, hx⟩
  · obtain ⟨k, hk⟩ := h.derived
    refine ⟨a.managing x k r.depth, ?_, ?_⟩
    · exact yields_addWith_of_not_mem c h.depth_le h.length_le hk hx
    · exact Std.ExtTreeMap.mem_insertIfNew.mpr (Or.inl Std.ReflOrd.compare_self)

lemma Granted.isLocal (h : Granted c a r x) : Local {x} (run (request c r)) a := by
  obtain ⟨k, hk⟩ := h.derived
  have hlocal := local_addWith c a r.path r.scriptType r.depth
  rw [derivedAt_of_ok hk] at hlocal
  exact hlocal

theorem result_request_eq_ok_iff : (run (request c r) a).result = .ok x ↔ Granted c a r x := by
  constructor
  · intro hx
    rcases addWith_cases c r.path r.scriptType r.depth a with
      ⟨e, hrun⟩ | ⟨root, k, y, hdepth, hpath, hroot, hk, hy, hyields⟩
    · unfold request at hx
      rw [hrun] at hx
      cases hx
    · obtain rfl : y = x := by
        rcases hyields with ⟨-, hresult, -⟩ | ⟨-, hresult, -⟩
        · exact Except.ok.inj (hresult.symm.trans hx)
        · exact Except.ok.inj (hresult.symm.trans hx)
      exact ⟨hdepth, hpath, k, (derive_eq_ok_iff c).mpr ⟨root, hroot, hk, hy⟩⟩
  · intro h
    obtain ⟨b, hyields, -⟩ := h.yields
    exact hyields.1

/-! ### Lists of requests -/

/-- Each request is granted, and no two of them ask for one address differently. -/
structure Compatible (c : Crypto.Suite) (a : Agent) (answer : Request → Address)
    (rs : List Request) : Prop where
  granted : ∀ r ∈ rs, (run (request c r) a).result = .ok (answer r)
  eq_of_answer_eq : ∀ r ∈ rs, ∀ s ∈ rs, answer r = answer s → r = s

/-- What requests leave, address by address: what the one for it alone would have left. -/
structure Added (c : Crypto.Suite) (a : Agent) (answer : Request → Address) (rs : List Request)
    (b : Agent) : Prop where
  setting_eq : b.setting = a.setting
  cell_eq : ∀ x, (∀ r ∈ rs, answer r ≠ x) → b.cell x = a.cell x
  cell_answer : ∀ r ∈ rs, b.cell (answer r) = (run (request c r) a).state.cell (answer r)

variable {answer : Request → Address} {rs : List Request}

lemma added_nil : Added c a answer [] a :=
  ⟨rfl, fun _ _ => rfl, fun _ hr => absurd hr List.not_mem_nil⟩

/-- The order and the repetition of the requests do not show. -/
theorem Added.eq_of_mem_iff {rs' : List Request} {b' : Agent} (hb : Added c a answer rs b)
    (hb' : Added c a answer rs' b') (hmem : ∀ r, r ∈ rs' ↔ r ∈ rs) : b' = b := by
  apply ext_cell (hb'.setting_eq.trans hb.setting_eq.symm)
  intro x
  by_cases hx : ∃ r ∈ rs, answer r = x
  · obtain ⟨r, hr, rfl⟩ := hx
    rw [hb.cell_answer r hr, hb'.cell_answer r ((hmem r).mpr hr)]
  · have hnot : ∀ r ∈ rs, answer r ≠ x := fun r hr hrx => hx ⟨r, hr, hrx⟩
    rw [hb.cell_eq x hnot, hb'.cell_eq x fun r hr => hnot r ((hmem r).mp hr)]

lemma agreesOn_singleton (hsetting : b.setting = a.setting) (hcell : b.cell x = a.cell x) :
    AgreesOn {x} a b :=
  ⟨hsetting, fun y hy => by rw [Set.mem_singleton_iff.mp hy, hcell]⟩

lemma AgreesOn.mem_addresses_iff (h : AgreesOn {x} a b) : x ∈ b.addresses ↔ x ∈ a.addresses := by
  rw [mem_addresses, mem_addresses]
  exact h.mem_keys_iff rfl

section Compatible

variable (h : Compatible c a answer rs)
include h

lemma Compatible.isGranted (hr : r ∈ rs) : Granted c a r (answer r) :=
  result_request_eq_ok_iff.mp (h.granted r hr)

/-- What an address is held as, if it is as the request for it alone leaves it. -/
lemma Compatible.agreesOn (hr : r ∈ rs) (hsetting : b.setting = a.setting)
    (hcell : b.cell (answer r) = (run (request c r) a).state.cell (answer r)) :
    AgreesOn {answer r} (run (request c r) a).state b :=
  agreesOn_singleton (hsetting.trans (h.isGranted hr).isLocal.setting_eq.symm) hcell

lemma Compatible.mem_addresses_of_request (hr : r ∈ rs) :
    answer r ∈ (run (request c r) a).state.addresses := by
  obtain ⟨b, ⟨-, hstate⟩, hmem⟩ := (h.isGranted hr).yields
  rw [hstate]
  exact mem_addresses.mpr hmem

/-- **One more request**, which may have been made before. -/
theorem Compatible.step {done : List Request} (hdone : ∀ s ∈ done, s ∈ rs)
    (hb : Added c a answer done b) (hr : r ∈ rs) :
    ∃ b', Yields (request c r) b (answer r) b' ∧ Added c a answer (done ++ [r]) b' := by
  have hagain : Granted c b r (answer r) := (h.isGranted hr).congr hb.setting_eq
  by_cases hold : r ∈ done
  · -- The address is managed by now.
    have hmem : answer r ∈ b.addresses :=
      (h.agreesOn hr hb.setting_eq (hb.cell_answer r hold)).mem_addresses_iff.mpr
        (h.mem_addresses_of_request hr)
    refine ⟨b, hagain.yields_of_mem (mem_addresses.mp hmem), hb.setting_eq, fun x hx => ?_, ?_⟩
    · exact hb.cell_eq x fun s hs => hx s (List.mem_append_left _ hs)
    · intro s hs
      rcases List.mem_append.mp hs with hs | hs
      · exact hb.cell_answer s hs
      · rw [List.mem_singleton.mp hs]
        exact hb.cell_answer r hold
  · -- Nothing was done to the address yet.
    have hother : ∀ s ∈ done, answer s ≠ answer r := by
      intro s hs heq
      rw [h.eq_of_answer_eq s (hdone s hs) r hr heq] at hs
      exact hold hs
    have hcell := hb.cell_eq (answer r) hother
    obtain ⟨b', hyields, -⟩ := hagain.yields
    obtain ⟨result, F, hF, hsame⟩ := (h.isGranted hr).isLocal
    obtain ⟨-, halone⟩ := hsame a ⟨rfl, fun _ _ => rfl⟩
    obtain ⟨-, halters⟩ := hsame b (agreesOn_singleton hb.setting_eq hcell)
    rw [hyields.2] at halters
    have hkept : ∀ x, x ≠ answer r → b'.cell x = b.cell x := by
      intro x hx
      rw [halters.cell_eq, hF x (mt Set.mem_singleton_iff.mp hx), id]
    refine ⟨b', hyields, halters.setting_eq.trans hb.setting_eq, fun x hx => ?_, fun s hs => ?_⟩
    · rw [hkept x (hx r (by simp)).symm]
      exact hb.cell_eq x fun s hs => hx s (List.mem_append_left _ hs)
    · rcases List.mem_append.mp hs with hs | hs
      · rw [hkept _ (hother s hs)]
        exact hb.cell_answer s hs
      · rw [List.mem_singleton.mp hs, halters.cell_eq, halone.cell_eq, hcell]

/-- **All requests**, after some that were made already. -/
theorem Compatible.yields_requestAll {rest : List Request} (hrest : ∀ s ∈ rest, s ∈ rs)
    {done : List Request} (hdone : ∀ s ∈ done, s ∈ rs) (hb : Added c a answer done b) :
    ∃ b', Yields (requestAll c rest) b (rest.map answer) b' ∧
      Added c a answer (done ++ rest) b' := by
  induction rest generalizing done b with
  | nil =>
    rw [List.append_nil]
    exact ⟨b, ⟨rfl, rfl⟩, hb⟩
  | cons r rest ih =>
    obtain ⟨hr, hrest⟩ := List.forall_mem_cons.mp hrest
    obtain ⟨m, hm, hadded⟩ := h.step hdone hb hr
    have hdone' : ∀ s ∈ done ++ [r], s ∈ rs := by
      intro s hs
      rcases List.mem_append.mp hs with hs | hs
      · exact hdone s hs
      · rwa [List.mem_singleton.mp hs]
    obtain ⟨b', hb', hall⟩ := ih hrest hdone' hadded
    rw [List.append_assoc, List.singleton_append] at hall
    refine ⟨b', ?_, hall⟩
    unfold requestAll at hb' ⊢
    rw [List.mapM_cons]
    exact yields_bind hm (yields_bind hb' ⟨rfl, rfl⟩)

end Compatible

/-- **In any order, any number of times**: requests that are granted, of which no two ask for one
address differently, are answered alike and leave the same agent, with the same record, however they
are ordered and repeated. Beside the addresses that were managed before, whose keys and layers stay,
it manages those that were asked for, each with the key and the layers that the request for it alone
would have given it. And no request at all changes anything if its address is managed already. -/
theorem added_in_any_order (h : Compatible c a answer rs) {rs' : List Request}
    (hmem : ∀ r, r ∈ rs' ↔ r ∈ rs) :
    (∃ b, Yields (requestAll c rs) a (rs.map answer) b ∧
      Yields (requestAll c rs') a (rs'.map answer) b ∧
      (∀ x, x ∈ b.addresses ↔ x ∈ a.addresses ∨ ∃ r ∈ rs, answer r = x) ∧
      (∀ x ∈ a.addresses, b.keyOf x = a.keyOf x ∧ b.layersOf x = a.layersOf x) ∧
      ∀ r ∈ rs, b.keyOf (answer r) = (run (request c r) a).state.keyOf (answer r) ∧
        b.layersOf (answer r) = (run (request c r) a).state.layersOf (answer r)) ∧
    ∀ (r : Request) (x : Address), (run (request c r) a).result = .ok x → x ∈ a.addresses →
      (run (request c r) a).state = a := by
  have hnone : ∀ s ∈ ([] : List Request), s ∈ rs := fun _ hs => absurd hs List.not_mem_nil
  obtain ⟨b, hb, hadded⟩ := h.yields_requestAll (fun _ hs => hs) hnone added_nil
  obtain ⟨b', hb', hadded'⟩ := h.yields_requestAll (fun s => (hmem s).mp) hnone added_nil
  rw [List.nil_append] at hadded hadded'
  obtain rfl := hadded.eq_of_mem_iff hadded' hmem
  have hrequested : ∀ r ∈ rs, AgreesOn {answer r} (run (request c r) a).state b' :=
    fun r hr => h.agreesOn hr hadded.setting_eq (hadded.cell_answer r hr)
  have hother : ∀ x, (∀ r ∈ rs, answer r ≠ x) → AgreesOn {x} a b' :=
    fun x hx => agreesOn_singleton hadded.setting_eq (hadded.cell_eq x hx)
  have hmanaged : ∀ r x, (run (request c r) a).result = .ok x → x ∈ a.addresses →
      (run (request c r) a).state = a :=
    fun r x hr hx => ((result_request_eq_ok_iff.mp hr).yields_of_mem (mem_addresses.mp hx)).2
  refine ⟨⟨b', hb, hb', fun x => ?_, fun x hx => ?_, fun r hr => ?_⟩, hmanaged⟩
  · by_cases hx : ∃ r ∈ rs, answer r = x
    · obtain ⟨r, hr, rfl⟩ := hx
      have hmem := (hrequested r hr).mem_addresses_iff.mpr (h.mem_addresses_of_request hr)
      exact iff_of_true hmem (Or.inr ⟨r, hr, rfl⟩)
    · have hnot : ∀ r ∈ rs, answer r ≠ x := fun r hr hrx => hx ⟨r, hr, hrx⟩
      rw [(hother x hnot).mem_addresses_iff, or_iff_left hx]
  · have hagrees : AgreesOn {x} a b' := by
      by_cases hrs : ∃ r ∈ rs, answer r = x
      · obtain ⟨r, hr, rfl⟩ := hrs
        rw [← hmanaged r _ (h.granted r hr) hx]
        exact hrequested r hr
      · exact hother x fun r hr hrx => hrs ⟨r, hr, hrx⟩
    exact ⟨hagrees.keyOf_eq rfl, hagrees.layersOf_eq rfl⟩
  · exact ⟨(hrequested r hr).keyOf_eq rfl, (hrequested r hr).layersOf_eq rfl⟩

/-- An agent is asked for the three addresses of its root key, one of which is its main address,
and then for the same in another order, for one of them twice. The main address keeps its depth. -/
theorem added_in_any_order_of_root :
    let k : ExtendedKey := ⟨Bytes.zeros 33, [], []⟩
    let a := (run (adopt .standard k) ⟨.empty .regtest .p2wpkh, .empty, 6⟩).state
    let main := Address.ofKey .standard .regtest .p2wpkh k.publicKey
    let answer (r : Request) := Address.ofKey .standard .regtest r.scriptType k.publicKey
    let rs : List Request := [⟨[], .p2pkh, 0⟩, ⟨[], .p2sh, 3⟩, ⟨[], .p2wpkh, 1⟩]
    let rs' : List Request := [⟨[], .p2wpkh, 1⟩, ⟨[], .p2sh, 3⟩, ⟨[], .p2pkh, 0⟩, ⟨[], .p2sh, 3⟩]
    InUse .standard a ∧ Compatible .standard a answer rs ∧ (∀ r, r ∈ rs' ↔ r ∈ rs) ∧
      ∃ b, Yields (requestAll .standard rs) a (rs.map answer) b ∧
        Yields (requestAll .standard rs') a (rs'.map answer) b ∧
        b.layersOf main = .ok (.fresh 6) := by
  intro k a main answer rs rs'
  let start : Agent := ⟨.empty .regtest .p2wpkh, .empty, 6⟩
  have hadopt := yields_adopt .standard (rfl : k.publicKey.length = 33) start
  have huse : InUse .standard a := .initialized (.created (create_of_le (by decide))) hadopt.1
  have htracked : a.tracker.layers[main]? = some (.fresh 6) :=
    (begins_adopt .standard (rfl : k.publicKey.length = 33) start).2
  have hmain : main ∈ a.addresses := by
    rw [mem_addresses, ← huse.managed.tracked_iff, ← Std.ExtTreeMap.isSome_getElem?_iff_mem,
      htracked]
    rfl
  have hderive : ∀ t, a.registry.derive .standard [] t =
      .ok (⟨k.publicKey, Bytes.zeros 32, []⟩, Address.ofKey .standard .regtest t k.publicKey) := by
    intro t
    change (run (adopt .standard k) start).state.registry.derive .standard [] t = _
    rw [hadopt.2]
    rfl
  have hbounds : ∀ r ∈ rs, r.depth ≤ maxDepth ∧ r.path = [] :=
    List.forall_iff_forall_mem.mp (by decide)
  have htypes : ∀ r ∈ rs, ∀ s ∈ rs, r.scriptType = s.scriptType → r = s := by
    intro r hr s hs
    simp only [rs, List.mem_cons, List.not_mem_nil, or_false] at hr hs
    rcases hr with rfl | rfl | rfl <;> rcases hs with rfl | rfl | rfl <;> decide
  have hcompatible : Compatible .standard a answer rs := by
    refine ⟨fun r hr => ?_, fun r hr s hs heq => ?_⟩
    · obtain ⟨hdepth, hpath⟩ := hbounds r hr
      refine result_request_eq_ok_iff.mpr ⟨hdepth, ?_, ⟨k.publicKey, Bytes.zeros 32, []⟩, ?_⟩
      · rw [hpath]
        exact Nat.zero_le _
      · rw [hpath]
        exact hderive r.scriptType
    · have htype := congrArg Address.scriptType heq
      simp only [answer, Address.scriptType_ofKey] at htype
      exact htypes r hr s hs htype
  have hmem : ∀ r, r ∈ rs' ↔ r ∈ rs := by
    intro r
    simp only [rs, rs', List.mem_cons, List.not_mem_nil, or_false]
    constructor
    · rintro (h | h | h | h) <;> simp [h]
    · rintro (h | h | h) <;> simp [h]
  -- the addresses stay names from here on: no step is to compute their digests
  clear_value a main answer
  obtain ⟨⟨b, hb, hb', -, hkept, -⟩, -⟩ := added_in_any_order hcompatible hmem
  refine ⟨huse, hcompatible, hmem, b, hb, hb', ?_⟩
  rw [(hkept main hmain).2]
  exact Tracker.layersOf_of_some htracked

end Requests

end WatchWallet.Agent
