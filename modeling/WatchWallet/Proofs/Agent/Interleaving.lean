import WatchWallet.Proofs.Agent.Query

/-!
Views that are made away from the agent.

A query takes the layers of an address with it, and the view that it gives is installed whenever the
host comes to it. Calls in between may have recorded more outputs as spent. So a view of depth zero
leaves out all that was spent when its query was made, and just that: what was spent since is shown
if the oracle still reports it.
-/

namespace WatchWallet

open WatchWallet.Action

namespace Agent

/-- A query that the host holds, with what had been listed as spent when it was made. -/
structure Asked where
  query : UtxoQuery
  spent : List Utxo

/-- A view that the host holds, with the query and the report that it was made from. -/
structure Answered where
  view : UtxoView
  asked : Asked
  raw : Snapshot

/-- An agent with all that its host holds, and all that was listed as spent for an address. -/
structure Desk where
  agent : Agent
  spent : List Utxo
  asked : List Asked
  answered : List Answered

/-- What can become of an agent and its host, from where an address is tracked to depth zero. The
host makes queries for the address, has them answered by any oracle, and calls operations that
spare the address: each as often as it likes, in any order. To install a view is such a call. -/
inductive Working (c : Crypto.Suite) (x : Address) (l₀ : Layers) : Desk → Prop
  | starts {a : Agent} (hl : a.layersOf x = .ok l₀) (hdepth : l₀.depth = 0) :
      Working c x l₀ ⟨a, [], [], []⟩
  | asks {s : Desk} (h : Working c x l₀ s) {depth : UInt32} {q : UtxoQuery}
      (hq : s.agent.query x depth = .ok q) :
      Working c x l₀ { s with asked := ⟨q, s.spent⟩ :: s.asked }
  | answers {s : Desk} (h : Working c x l₀ s) {w : Asked} (hw : w ∈ s.asked) {ω : Type}
      (oracle : Oracle ω) (o : ω) {raw : Snapshot} {v : UtxoView}
      (hraw : (run (oracle.snapshot w.query.network w.query.address w.query.depth) o).result =
        .ok raw)
      (hv : (run (w.query.fetch oracle) o).result = .ok v) :
      Working c x l₀ { s with answered := ⟨v, w, raw⟩ :: s.answered }
  | called {s : Desk} (h : Working c x l₀ s) (call : Call) (hspare : Spares c s.agent x call) :
      Working c x l₀
        { s with agent := after c s.agent call, spent := s.spent ++ spentBy c s.agent x call }

variable {c : Crypto.Suite} {x : Address} {l₀ : Layers} {s : Desk}

/-- The query has the layers of the address as they were when some of what is listed by now had
been recorded. -/
structure Asked.Faithful (x : Address) (l₀ : Layers) (spent : List Utxo) (w : Asked) : Prop where
  address_eq : w.query.address = x
  recorded : ∃ generated, l₀.Recorded w.spent generated w.query.layers
  listed_before : w.spent <+: spent

/-- The view is that of the query and the report. -/
structure Answered.Faithful (x : Address) (l₀ : Layers) (spent : List Utxo) (w : Answered) :
    Prop where
  asked : w.asked.Faithful x l₀ spent
  view_eq : w.view = ⟨x, w.asked.query.layers.view w.raw.utxos, w.raw.tip⟩

lemma Asked.Faithful.mono {spent : List Utxo} {w : Asked} (h : w.Faithful x l₀ spent)
    (more : List Utxo) : w.Faithful x l₀ (spent ++ more) :=
  ⟨h.address_eq, h.recorded, h.listed_before.trans (List.prefix_append spent more)⟩

lemma Answered.Faithful.mono {spent : List Utxo} {w : Answered} (h : w.Faithful x l₀ spent)
    (more : List Utxo) : w.Faithful x l₀ (spent ++ more) :=
  ⟨h.asked.mono more, h.view_eq⟩

/-- The agent has recorded what was listed, and what the host holds is faithful to it. -/
structure Desk.InOrder (x : Address) (l₀ : Layers) (s : Desk) : Prop where
  recorded : ∃ l generated, s.agent.tracker.layers[x]? = some l ∧
    l₀.Recorded s.spent generated l
  asked : ∀ w ∈ s.asked, w.Faithful x l₀ s.spent
  answered : ∀ w ∈ s.answered, w.Faithful x l₀ s.spent

lemma Desk.InOrder.asks (h : s.InOrder x l₀) {depth : UInt32} {q : UtxoQuery}
    (hq : s.agent.query x depth = .ok q) :
    Desk.InOrder x l₀ { s with asked := ⟨q, s.spent⟩ :: s.asked } := by
  obtain ⟨l, generated, hl, hrecorded⟩ := h.recorded
  refine ⟨h.recorded, List.forall_mem_cons.mpr ⟨?_, h.asked⟩, h.answered⟩
  rw [query_eq, layersOf, Tracker.layersOf_of_some hl] at hq
  obtain rfl := Except.ok.inj hq
  exact ⟨rfl, ⟨generated, hrecorded⟩, List.prefix_refl _⟩

lemma Desk.InOrder.answers (h : s.InOrder x l₀) {w : Asked} (hw : w ∈ s.asked) {ω : Type}
    {oracle : Oracle ω} {o : ω} {raw : Snapshot} {v : UtxoView}
    (hraw : (run (oracle.snapshot w.query.network w.query.address w.query.depth) o).result =
      .ok raw)
    (hv : (run (w.query.fetch oracle) o).result = .ok v) :
    Desk.InOrder x l₀ { s with answered := ⟨v, w, raw⟩ :: s.answered } := by
  have hfaithful := h.asked w hw
  refine ⟨h.recorded, h.asked, List.forall_mem_cons.mpr ⟨⟨hfaithful, ?_⟩, h.answered⟩⟩
  rw [UtxoQuery.fetch_eq_ok oracle w.query o hv hraw, hfaithful.address_eq]

lemma Desk.InOrder.called (h : s.InOrder x l₀) {call : Call} (hspare : Spares c s.agent x call) :
    Desk.InOrder x l₀
      { s with agent := after c s.agent call, spent := s.spent ++ spentBy c s.agent x call } := by
  obtain ⟨l, generated, hl, hrecorded⟩ := h.recorded
  obtain ⟨l', hl', hrecorded'⟩ := exists_recorded_after hl hspare
  exact ⟨⟨l', _, hl', hrecorded.trans hrecorded'⟩, fun w hw => (h.asked w hw).mono _,
    fun w hw => (h.answered w hw).mono _⟩

theorem Working.inOrder (h : Working c x l₀ s) : s.InOrder x l₀ := by
  induction h with
  | @starts a hl _ =>
    have hget := Tracker.layersOf_eq_ok_iff.mp hl
    exact ⟨⟨l₀, [], hget, l₀.sameOwn_refl⟩, by simp, by simp⟩
  | asks _ hq ih => exact ih.asks hq
  | answers _ hw _ _ hraw hv ih => exact ih.answers hw hraw hv
  | called _ _ hspare ih => exact ih.called hspare

lemma Working.depth_eq (h : Working c x l₀ s) : l₀.depth = 0 := by
  induction h with
  | starts _ hdepth => exact hdepth
  | asks _ _ ih => exact ih
  | answers _ _ _ _ _ _ ih => exact ih
  | called _ _ _ ih => exact ih

/-- What is left out of a view that shows records but for some that were spent: more, if of what
was spent besides there is no record. -/
lemma shows_none_iff {records shown : List Utxo} {spent : List OutPoint}
    (h : Layers.Shows records spent shown) (since : List Utxo) :
    (∀ o ∈ spent ++ since.map Utxo.outPoint, o ∉ shown.map Utxo.outPoint) ↔
      ∀ u ∈ since, u.outPoint ∈ records.map Utxo.outPoint → u.outPoint ∈ spent := by
  constructor
  · intro hnone u hu hrecord
    by_contra hnot
    exact hnone u.outPoint (List.mem_append_right _ (List.mem_map_of_mem hu))
      ((h.mem_iff _).mpr ⟨hrecord, hnot⟩)
  · intro hsince o ho hshown
    obtain ⟨hrecord, hnot⟩ := (h.mem_iff o).mp hshown
    rcases List.mem_append.mp ho with ho | ho
    · exact hnot ho
    · obtain ⟨u, hu, rfl⟩ := List.mem_map.mp ho
      exact hnot (hsince u hu hrecord)

/-- **What a view shows once it is installed**, whatever was called since its query was made: the
records that the oracle reported or that were created by then, but for those spent by then. So it
shows no output that was ever spent if and only if of those that were spent since the query there
is no such record. -/
theorem Working.shows_of_install (h : Working c x l₀ s) {w : Answered} (hw : w ∈ s.answered) :
    ∃ since, s.spent = w.asked.spent ++ since ∧
      w.asked.query.layers.spent = l₀.spent ++ w.asked.spent.map Utxo.outPoint ∧
      (∃ u, (run (install w.view) s.agent).result = .ok u) ∧
      ∃ l, (run (install w.view) s.agent).state.layersOf x = .ok l ∧
        l.spent = w.asked.query.layers.spent ++ since.map Utxo.outPoint ∧
        Layers.Shows (w.raw.utxos ++ w.asked.query.layers.generated) w.asked.query.layers.spent
          l.unseen ∧
        ((∀ o ∈ l.spent, o ∉ l.unseen.map Utxo.outPoint) ↔
          ∀ u ∈ since,
            u.outPoint ∈ (w.raw.utxos ++ w.asked.query.layers.generated).map Utxo.outPoint →
              u.outPoint ∈ w.asked.query.layers.spent) := by
  obtain ⟨l, generated, hl, hrecorded⟩ := h.inOrder.recorded
  obtain ⟨⟨haddress, ⟨generated', hthen⟩, since, hsince⟩, hview⟩ := h.inOrder.answered w hw
  have hdepth : w.asked.query.layers.depth = 0 := hthen.depth_eq.trans h.depth_eq
  have hshows := Layers.shows_view hdepth w.raw.utxos
  have hspent : l.spent = w.asked.query.layers.spent ++ since.map Utxo.outPoint := by
    rw [hrecorded.spent_eq, hthen.spent_eq, ← hsince, List.map_append, List.append_assoc]
  have hinstalled := getElem?_modify_of_some hl (·.install w.view.utxos)
  have hunseen : (l.install w.view.utxos).unseen = w.asked.query.layers.view w.raw.utxos := by
    rw [hview, Layers.unseen_install]
  have hx : w.view.address = x := by rw [hview]
  refine ⟨since, hsince.symm, hthen.spent_eq, ?_, l.install w.view.utxos, ?_, hspent, ?_, ?_⟩
  · refine (Tracker.guarded_install w.view.utxos).answers ?_
    rw [hx]
    exact Std.ExtTreeMap.isSome_getElem?_iff_mem.mp (by rw [hl]; rfl)
  · rw [state_install, hx, layersOf, Tracker.layersOf_of_some hinstalled]
  · rw [hunseen]
    exact hshows
  · rw [hunseen, show (l.install w.view.utxos).spent = _ from hspent]
    exact shows_none_iff hshows since

section Runs

lemma fetch_fixed (q : UtxoQuery) (hdepth : q.depth = 0) (raw : Snapshot) :
    (run (q.fetch Fixed.oracle) ⟨none, .empty, raw, []⟩).result =
      .ok ⟨q.address, q.layers.view raw.utxos, raw.tip⟩ := by
  have hmax : q.depth ≤ maxDepth := by
    rw [hdepth]
    decide
  rw [UtxoQuery.result_fetch _ q _ hmax, UtxoQuery.snapshot_fixed]
  rfl

/-- The main address spends an output, and then a view is asked for and installed; the oracle
still reports the output. -/
theorem Working.shows_of_install_after_transfer :
    let k : ExtendedKey := ⟨Bytes.zeros 33, [], []⟩
    let a := adopting .standard ⟨.empty .regtest .p2wpkh, .empty, 0⟩ k
    let main := Address.ofKey .standard .regtest .p2wpkh k.publicKey
    let old : Utxo := ⟨⟨[1], 0⟩, 5, 7⟩
    let t : Transfer := ⟨[2], (∅ : AddressRef.Table (List Utxo)).insert main.ref [old],
      (∅ : AddressRef.Table (List Utxo)).insert main.ref []⟩
    let b := after .standard a (.applyTransfer t)
    ∃ s w, Working .standard main (.fresh 0) s ∧ w ∈ s.answered ∧ s.agent = b ∧
      s.spent = [old] ∧ w.raw = ⟨[old], 9⟩ ∧
      ∃ l, (run (install w.view) b).state.layersOf main = .ok l ∧
        ∀ o ∈ l.spent, o ∉ l.unseen.map Utxo.outPoint := by
  intro k a main old t b
  have hmain : Address.Belongs Crypto.Suite.standard.digests a.network main :=
    Address.belongs_ofKey .p2wpkh k.publicKey
  obtain ⟨-, hspent, -⟩ := applies_of_ref hmain [2] [old] []
  have htracked : a.tracker.layers[main]? = some (.fresh 0) :=
    fresh_of_adopting .standard Std.ExtTreeMap.mem_insertIfNew_self
  -- the address stays a name from here on: no step is to compute its digests
  clear_value a main
  have hstarts : Working .standard main (.fresh 0) ⟨a, [], [], []⟩ :=
    .starts (Tracker.layersOf_of_some htracked) rfl
  have hcalled : Working .standard main (.fresh 0) ⟨b, [old], [], []⟩ := by
    have h := hstarts.called (.applyTransfer t) trivial
    rwa [hspent] at h
  obtain ⟨l, -, hl, -⟩ := hcalled.inOrder.recorded
  have hquery : b.query main 0 = .ok ⟨b.network, main, 0, l⟩ := by
    rw [query_eq, layersOf, Tracker.layersOf_of_some hl]
    rfl
  have hasked := hcalled.asks hquery
  have hanswered := hasked.answers (List.mem_singleton_self _) Fixed.oracle
    ⟨none, .empty, ⟨[old], 9⟩, []⟩ rfl (fetch_fixed _ rfl _)
  refine ⟨_, _, hanswered, List.mem_singleton_self _, rfl, rfl, rfl, ?_⟩
  obtain ⟨since, hsince, -, -, l', hl', -, -, hiff⟩ :=
    Working.shows_of_install hanswered (List.mem_singleton_self _)
  obtain rfl : since = [] := by simpa using hsince
  exact ⟨l', hl', hiff.mpr (by simp)⟩

/-- A view of the main address is asked for; an output is spent and recorded as such; the oracle,
which lags behind, answers, and the view is installed: it shows the output again. -/
theorem spent_output_shown_of_late_transfer :
    let k : ExtendedKey := ⟨Bytes.zeros 33, [], []⟩
    let a := adopting .standard ⟨.empty .regtest .p2wpkh, .empty, 0⟩ k
    let main := Address.ofKey .standard .regtest .p2wpkh k.publicKey
    let old : Utxo := ⟨⟨[1], 0⟩, 5, 7⟩
    let t : Transfer := ⟨[2], (∅ : AddressRef.Table (List Utxo)).insert main.ref [old],
      (∅ : AddressRef.Table (List Utxo)).insert main.ref []⟩
    let q : UtxoQuery := ⟨.regtest, main, 0, .fresh 0⟩
    let v : UtxoView := ⟨main, [old], 9⟩
    let b := after .standard a (.applyTransfer t)
    a.query main 0 = .ok q ∧ (run (applyTransfer .standard t) a).result = .ok () ∧
      (run (q.fetch Fixed.oracle) ⟨none, .empty, ⟨[old], 9⟩, []⟩).result = .ok v ∧
      ∃ l, (run (install v) b).state.layersOf main = .ok l ∧ l.depth = 0 ∧
        old.outPoint ∈ l.spent ∧ old ∈ l.unseen := by
  intro k a main old t q v b
  have hmain : Address.Belongs Crypto.Suite.standard.digests a.network main :=
    Address.belongs_ofKey .p2wpkh k.publicKey
  obtain ⟨happlied, hspent, -⟩ := applies_of_ref hmain [2] [old] []
  have htracked : a.tracker.layers[main]? = some (.fresh 0) :=
    fresh_of_adopting .standard Std.ExtTreeMap.mem_insertIfNew_self
  have hnetwork : a.network = .regtest := rfl
  clear_value a main
  have hspare : Spares .standard a main (.applyTransfer t) := trivial
  obtain ⟨l, hl, hrecorded⟩ := exists_recorded_after htracked hspare
  rw [hspent] at hrecorded
  have hinstalled := getElem?_modify_of_some hl (·.install [old])
  refine ⟨?_, happlied, ?_, l.install [old], ?_, hrecorded.depth_eq, ?_, List.mem_singleton_self _⟩
  · rw [query_eq, layersOf, Tracker.layersOf_of_some htracked, hnetwork]
    rfl
  · have hview : (Layers.fresh 0).view [old] = [old] := by decide +kernel
    rw [fetch_fixed q rfl, hview]
  · rw [state_install, layersOf, Tracker.layersOf_of_some hinstalled]
  · have hmem : old.outPoint ∈ l.spent := by simp [hrecorded.spent_eq]
    exact hmem

end Runs

end Agent

end WatchWallet
