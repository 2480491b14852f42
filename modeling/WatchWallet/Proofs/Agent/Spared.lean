import WatchWallet.Proofs.Agent.Failure

/-!
What a call does to the layers of an address that stays tracked.

A call spares an address unless it removes it or gives the agent a root key. The layers of a spared
address are changed by a call that names it or by a transfer, and by no other; so a relation between
layers holds between those before and after a call as soon as it holds for these changes.
-/

namespace WatchWallet.Agent

open WatchWallet.Action

variable (c : Crypto.Suite)

/-- The call begins to track the address: it was not tracked, or the agent took a root key and
tracks nothing from before. -/
structure Begins (a : Agent) (x : Address) (call : Call) : Prop where
  tracked : x ∈ (after c a call).tracker.layers
  anew : x ∉ a.tracker.layers ∨ ∃ k, call = .adopt k ∧ (run (adopt c k) a).result = .ok ()

/-- The call neither gives the agent a root key nor removes the address. -/
def Spares (a : Agent) (x : Address) : Call → Prop
  | .adopt k => (run (adopt c k) a).result ≠ .ok ()
  | .remove y => y = x → (run (remove y) a).result ≠ .ok true
  | _ => True

/-! ### Where the layers come from -/

lemma fresh_of_adopting {a : Agent} {k : ExtendedKey} {x : Address}
    (hx : x ∈ (adopting c a k).tracker.layers) :
    (adopting c a k).tracker.layers[x]? = some (.fresh a.depth) := by
  have hmain : compare (rootOf c a k).address x = .eq := by simpa [adopting] using hx
  rw [adopting, Std.ExtTreeMap.getElem?_insertIfNew, if_pos ⟨hmain, by simp⟩]

lemma fresh_of_managing {a : Agent} {x y : Address} {k : ExtendedKey} {depth : UInt32}
    (hnew : x ∉ a.tracker.layers) (hx : x ∈ (a.managing y k depth).tracker.layers) :
    (a.managing y k depth).tracker.layers[x]? = some (.fresh depth) := by
  have hy : compare y x = .eq := (Std.ExtTreeMap.mem_insertIfNew.mp hx).resolve_right hnew
  obtain rfl := Std.LawfulEqOrd.compare_eq_iff_eq.mp hy
  rw [managing, Std.ExtTreeMap.getElem?_insertIfNew, if_pos ⟨hy, hnew⟩]

/-- The main address begins to be tracked when the agent takes a root key. -/
lemma begins_adopt {k : ExtendedKey} (hk : k.publicKey.length = 33) (a : Agent) :
    Begins c a (rootOf c a k).address (.adopt k) ∧
      (after c a (.adopt k)).tracker.layers[(rootOf c a k).address]? = some (.fresh a.depth) := by
  have hyields := yields_adopt c hk a
  have hmem : (rootOf c a k).address ∈ (after c a (.adopt k)).tracker.layers := by
    rw [after, hyields.2]
    exact Std.ExtTreeMap.mem_insertIfNew_self
  refine ⟨⟨hmem, Or.inr ⟨k, rfl, hyields.1⟩⟩, ?_⟩
  rw [after, hyields.2] at hmem ⊢
  exact fresh_of_adopting c hmem

variable {c} {a : Agent} {x : Address}

/-- An address that begins to be tracked has nothing recorded. -/
theorem Begins.fresh {call : Call} (h : Begins c a x call) :
    ∃ depth, (after c a call).tracker.layers[x]? = some (.fresh depth) := by
  obtain ⟨hx, hnew | ⟨k, rfl, hk⟩⟩ := h
  · have hstep := step_after c a call
    generalize after c a call = b at hx hstep ⊢
    cases hstep with
    | adopts hk => exact ⟨a.depth, fresh_of_adopting c hx⟩
    | @manages root path t depth k hdepth hpath hroot hk hkey =>
      exact ⟨depth, fresh_of_managing hnew hx⟩
    | drops hmain hmem => exact absurd (Std.ExtTreeMap.mem_of_mem_erase hx) hnew
    | refreshes h => exact absurd ((h.sameDepths.mem_iff x).mp hx) hnew
  · have hlen : k.publicKey.length = 33 := by
      by_contra hne
      rw [run_adopt_of_ne c hne] at hk
      cases hk
    have hafter : after c a (.adopt k) = adopting c a k := (yields_adopt c hlen a).2
    rw [hafter] at hx ⊢
    exact ⟨a.depth, fresh_of_adopting c hx⟩

/-! ### What becomes of them -/

section OneCall

variable {l : Layers} (hl : a.tracker.layers[x]? = some l)
  {R : Layers → Layers → Prop} (hrefl : ∀ l, R l l)
include hl hrefl

lemma exists_related_of_eq {b : Agent} (h : b = a) :
    ∃ l', b.tracker.layers[x]? = some l' ∧ R l l' :=
  ⟨l, by rw [h, hl], hrefl l⟩

lemma exists_related_modify {b : Agent} {y : Address} {f : Layers → Layers}
    (h : b = a.modify y f) (hf : y = x → ∀ l, R l (f l)) :
    ∃ l', b.tracker.layers[x]? = some l' ∧ R l l' := by
  refine ⟨(if y = x then f else id) l, ?_, ?_⟩
  · rw [h, modify, Tracker.getElem?_modify, hl, Option.map_some]
  · split_ifs with hy
    · exact hf hy l
    · exact hrefl l

lemma exists_related_adopt {k : ExtendedKey} (hspare : Spares c a x (.adopt k)) :
    ∃ l', (run (adopt c k) a).state.tracker.layers[x]? = some l' ∧ R l l' := by
  refine exists_related_of_eq hl hrefl ?_
  cases h : (run (adopt c k) a).result with
  | error e => exact atomic_adopt c k a e h
  | ok u => exact absurd h hspare

lemma exists_related_addWith (path : Path) (t : ScriptType) (depth : UInt32) :
    ∃ l', (run (addWith c path t depth) a).state.tracker.layers[x]? = some l' ∧ R l l' := by
  rcases addWith_cases c path t depth a with
    ⟨e, hrun⟩ | ⟨root, k, y, -, -, -, -, -, ⟨-, hyields⟩ | ⟨-, hyields⟩⟩
  · exact exists_related_of_eq hl hrefl (by rw [hrun])
  · exact exists_related_of_eq hl hrefl hyields.2
  · have hx : ¬(compare y x = .eq ∧ y ∉ a.tracker.layers) := by
      rintro ⟨hyx, hnot⟩
      obtain rfl := Std.LawfulEqOrd.compare_eq_iff_eq.mp hyx
      rw [Std.ExtTreeMap.getElem?_eq_none hnot] at hl
      cases hl
    refine ⟨l, ?_, hrefl l⟩
    rw [hyields.2, managing, Std.ExtTreeMap.getElem?_insertIfNew, if_neg hx, hl]

lemma exists_related_remove {y : Address} (hspare : Spares c a x (.remove y)) :
    ∃ l', (run (remove y) a).state.tracker.layers[x]? = some l' ∧ R l l' := by
  rcases remove_cases y a with hyields | ⟨-, -, hyields⟩
  · exact exists_related_of_eq hl hrefl hyields.2
  · have hy : compare y x ≠ .eq :=
      fun hyx => hspare (Std.LawfulEqOrd.compare_eq_iff_eq.mp hyx) hyields.1
    refine ⟨l, ?_, hrefl l⟩
    rw [hyields.2, dropping, Std.ExtTreeMap.getElem?_erase, if_neg hy, hl]

lemma exists_related_sync {ω : Type} (oracle : Oracle ω) (o : ω) {y : Address}
    (hinstall : ∀ l us, R l (l.install us)) :
    ∃ l', (run (sync oracle y) (a, o)).state.1.tracker.layers[x]? = some l' ∧ R l l' := by
  rcases sync_cases oracle a y o with ⟨e, -, hstate⟩ | ⟨raw, -, hstate⟩
  · exact exists_related_of_eq hl hrefl hstate
  · rw [state_reconcile] at hstate
    exact exists_related_modify hl hrefl hstate fun _ l => hinstall l _

end OneCall

end WatchWallet.Agent
