import WatchWallet.Agent.Transfer
import WatchWallet.Proofs.Agent.Tracked

/-!
What a transfer does to an agent: nothing if one of its addresses cannot be resolved; else the
outputs listed for each tracked address are recorded for it, under whatever texts they are listed.
-/

namespace WatchWallet

open WatchWallet.Action

namespace Layers

def spend (us : List Utxo) (l : Layers) : Layers :=
  { l with spent := l.spent ++ us.map Utxo.outPoint }

def generate (us : List Utxo) (l : Layers) : Layers := { l with generated := l.generated ++ us }

/-- Records lists of outputs as it records what they make together. -/
structure Accumulates (record : List Utxo → Layers → Layers) : Prop where
  nil : record [] = id
  append : ∀ us us', record (us ++ us') = record us' ∘ record us

lemma accumulates_spend : Accumulates spend where
  nil := funext fun l => by rw [spend, List.map_nil, List.append_nil, id]
  append us us' := funext fun l => by simp [spend]

lemma accumulates_generate : Accumulates generate where
  nil := funext fun l => by rw [generate, List.append_nil, id]
  append us us' := funext fun l => by simp [generate]

end Layers

namespace Agent

lemma yields_onTracker_change {a : Agent} {x : Address} (h : x ∈ a.tracker.layers)
    (f : Layers → Layers) : Yields (onTracker (Tracker.change x f)) a () (a.modify x f) := by
  obtain ⟨u, hu⟩ := (Tracker.guarded_change f).answers h
  exact ⟨hu, state_onTracker (Tracker.state_change a.tracker x f)⟩

/-! ### Recording outputs -/

/-- Outputs by address, those of one address perhaps in several places. -/
def outputsAt (x : Address) (entries : List (Address × List Utxo)) : List Utxo :=
  entries.flatMap fun e => if e.1 = x then e.2 else []

lemma outputsAt_cons (x : Address) (e : Address × List Utxo) (entries : List (Address × List Utxo)) :
    outputsAt x (e :: entries) = (if e.1 = x then e.2 else []) ++ outputsAt x entries :=
  List.flatMap_cons

section Recording

variable {record : List Utxo → Layers → Layers} (hrecord : Layers.Accumulates record)
include hrecord

/-- A loop that records outputs of a tracked address one by one. -/
lemma yields_forM_record {a : Agent} {x : Address} (h : x ∈ a.tracker.layers) (us : List Utxo) :
    Yields (us.forM fun u => onTracker (Tracker.change x (record [u]))) a ()
      (a.modify x (record us)) := by
  induction us generalizing a with
  | nil =>
    rw [hrecord.nil, modify_id]
    exact ⟨rfl, rfl⟩
  | cons u us ih =>
    rw [← List.singleton_append, hrecord.append, ← modify_modify]
    exact yields_bind (yields_onTracker_change h _) (ih (mem_modify.mpr h))

/-- What recording entries one after the other does to the layers of one address. -/
lemma getElem?_foldl_record (entries : List (Address × List Utxo)) (a : Agent) (x : Address) :
    (entries.foldl (fun a e => a.modify e.1 (record e.2)) a).tracker.layers[x]? =
      (a.tracker.layers[x]?).map (record (outputsAt x entries)) := by
  induction entries generalizing a with
  | nil => rw [List.foldl_nil, outputsAt, List.flatMap_nil, hrecord.nil, Option.map_id_fun, id]
  | cons e entries ih =>
    rw [List.foldl_cons, ih, modify, Tracker.getElem?_modify, Option.map_map, outputsAt_cons,
      hrecord.append]
    split_ifs with he
    · rfl
    · rw [hrecord.nil]

end Recording

/-- Spent outputs are recorded for a tracked address and passed over for any other. -/
lemma yields_recordSpent (x : Address) (us : List Utxo) (a : Agent) :
    Yields (recordSpent x us) a () (a.modify x (Layers.spend us)) := by
  refine yields_bind (s := a) (a := a) ⟨rfl, rfl⟩ ?_
  by_cases h : x ∈ a.tracker.layers
  · have hin : a.tracker.contains x = true := h
    rw [if_pos hin]
    exact yields_forM_record Layers.accumulates_spend h us
  · have hin : ¬a.tracker.contains x = true := h
    rw [if_neg hin, modify_of_not_mem h]
    exact ⟨rfl, rfl⟩

lemma yields_recordGenerated (x : Address) (us : List Utxo) (a : Agent) :
    Yields (recordGenerated x us) a () (a.modify x (Layers.generate us)) := by
  refine yields_bind (s := a) (a := a) ⟨rfl, rfl⟩ ?_
  by_cases h : x ∈ a.tracker.layers
  · have hin : a.tracker.contains x = true := h
    rw [if_pos hin]
    exact yields_forM_record Layers.accumulates_generate h us
  · have hin : ¬a.tracker.contains x = true := h
    rw [if_neg hin, modify_of_not_mem h]
    exact ⟨rfl, rfl⟩

/-- The agent with spent and generated outputs recorded for the tracked addresses. -/
def recording (a : Agent) (spent generated : List (Address × List Utxo)) : Agent :=
  generated.foldl (fun a e => a.modify e.1 (Layers.generate e.2))
    (spent.foldl (fun a e => a.modify e.1 (Layers.spend e.2)) a)

lemma getElem?_recording (a : Agent) (spent generated : List (Address × List Utxo))
    (x : Address) :
    (a.recording spent generated).tracker.layers[x]? =
      (a.tracker.layers[x]?).map
        (Layers.generate (outputsAt x generated) ∘ Layers.spend (outputsAt x spent)) := by
  rw [recording, getElem?_foldl_record Layers.accumulates_generate,
    getElem?_foldl_record Layers.accumulates_spend, Option.map_map]

/-! ### Resolving addresses -/

section Resolving

variable {d : Crypto.Digests} {n : Network}

/-- The outputs listed for an address, under any text that is read as that address. -/
def listed (d : Crypto.Digests) (n : Network) (x : Address)
    (entries : List (AddressRef × List Utxo)) : List Utxo :=
  entries.flatMap fun e => if Address.decodeOn d e.1.text n = .ok x then e.2 else []

lemma listed_cons (x : Address) (e : AddressRef × List Utxo)
    (entries : List (AddressRef × List Utxo)) :
    listed d n x (e :: entries) =
      (if Address.decodeOn d e.1.text n = .ok x then e.2 else []) ++ listed d n x entries :=
  List.flatMap_cons

lemma resolveAll_cons_of_error {r : AddressRef} {e : Error} (h : r.resolve d n = .error e)
    (us : List Utxo) (entries : List (AddressRef × List Utxo)) :
    resolveAll d n ((r, us) :: entries) = .error e := by
  rw [resolveAll, List.mapM_cons]
  simp only [h]
  rfl

lemma resolveAll_cons_of_ok {r : AddressRef} {x : Address} (h : r.resolve d n = .ok x)
    (us : List Utxo) (entries : List (AddressRef × List Utxo)) :
    resolveAll d n ((r, us) :: entries) = (resolveAll d n entries).map ((x, us) :: ·) := by
  rw [resolveAll, List.mapM_cons]
  simp only [h]
  rw [← resolveAll]
  cases resolveAll d n entries <;> rfl

/-- One address that cannot be resolved is enough for all to be refused. -/
lemma exists_resolveAll_eq_error {entries : List (AddressRef × List Utxo)}
    {entry : AddressRef × List Utxo} {e : Error} (hmem : entry ∈ entries)
    (h : entry.1.resolve d n = .error e) : ∃ e', resolveAll d n entries = .error e' := by
  induction entries with
  | nil => simp at hmem
  | cons first entries ih =>
    obtain ⟨r, us⟩ := first
    cases hr : r.resolve d n with
    | error e' => exact ⟨e', resolveAll_cons_of_error hr us entries⟩
    | ok x =>
      rcases List.mem_cons.mp hmem with rfl | hmem
      · rw [hr] at h
        cases h
      · obtain ⟨e', he'⟩ := ih hmem
        exact ⟨e', by rw [resolveAll_cons_of_ok hr, he']; rfl⟩

lemma decodeOn_of_resolve {r : AddressRef} {x : Address} (h : r.resolve d n = .ok x) :
    Address.decodeOn d r.text n = .ok x := by
  unfold AddressRef.resolve at h
  split_ifs at h
  exact h

lemma resolveAll_cons_eq_ok {entry : AddressRef × List Utxo}
    {entries : List (AddressRef × List Utxo)} {resolved : List (Address × List Utxo)}
    (h : resolveAll d n (entry :: entries) = .ok resolved) :
    ∃ y rest, entry.1.resolve d n = .ok y ∧ resolveAll d n entries = .ok rest ∧
      resolved = (y, entry.2) :: rest := by
  obtain ⟨r, us⟩ := entry
  cases hr : r.resolve d n with
  | error e =>
    rw [resolveAll_cons_of_error hr] at h
    cases h
  | ok y =>
    rw [resolveAll_cons_of_ok hr] at h
    cases hall : resolveAll d n entries with
    | error e => rw [hall] at h; cases h
    | ok rest =>
      rw [hall] at h
      exact ⟨y, rest, rfl, rfl, (Except.ok.inj h).symm⟩

/-- Resolving keeps what is listed for each address. -/
lemma outputsAt_of_resolveAll {entries : List (AddressRef × List Utxo)}
    {resolved : List (Address × List Utxo)} (h : resolveAll d n entries = .ok resolved)
    (x : Address) : outputsAt x resolved = listed d n x entries := by
  induction entries generalizing resolved with
  | nil =>
    obtain rfl : [] = resolved := Except.ok.inj h
    rfl
  | cons entry entries ih =>
    obtain ⟨y, rest, hy, hrest, rfl⟩ := resolveAll_cons_eq_ok h
    rw [outputsAt_cons, listed_cons, ih hrest, decodeOn_of_resolve hy]
    simp only [Except.ok.injEq]

/-- The addresses that outputs are recorded for are those that the entries are resolved to. -/
lemma exists_mem_of_resolveAll {entries : List (AddressRef × List Utxo)}
    {resolved : List (Address × List Utxo)} (h : resolveAll d n entries = .ok resolved)
    {p : Address × List Utxo} (hp : p ∈ resolved) :
    ∃ e ∈ entries, e.1.resolve d n = .ok p.1 := by
  induction entries generalizing resolved with
  | nil =>
    obtain rfl : [] = resolved := Except.ok.inj h
    cases hp
  | cons entry entries ih =>
    obtain ⟨y, rest, hy, hrest, rfl⟩ := resolveAll_cons_eq_ok h
    rcases List.mem_cons.mp hp with rfl | hp
    · exact ⟨entry, by simp, hy⟩
    · obtain ⟨e, he, hresolve⟩ := ih hrest hp
      exact ⟨e, by simp [he], hresolve⟩

end Resolving

/-! ### Applying a transfer -/

section Applying

variable {d : Crypto.Digests} {t : Transfer} {a : Agent}

lemma yields_applyTransfer {spent generated : List (Address × List Utxo)}
    (hspent : resolveAll d a.network t.spent.toList = .ok spent)
    (hgenerated : resolveAll d a.network t.generated.toList = .ok generated) :
    Yields (applyTransfer d t) a () (a.recording spent generated) := by
  have hfirst := yields_foldl (l := spent) (fun e _ b => yields_recordSpent e.1 e.2 b) a
  have hsecond := yields_foldl (l := generated) (fun e _ b => yields_recordGenerated e.1 e.2 b)
    (spent.foldl (fun a e => a.modify e.1 (Layers.spend e.2)) a)
  exact yields_bind (s := a) (a := a) ⟨rfl, rfl⟩ (yields_bind (yields_lift_of_eq hspent a)
    (yields_bind (yields_lift_of_eq hgenerated a) (yields_bind hfirst hsecond)))

/-- An address that cannot be resolved, anywhere in the transfer: nothing is recorded. -/
lemma run_applyTransfer_of_error {e : Error}
    (h : resolveAll d a.network t.spent.toList = .error e ∨
      resolveAll d a.network t.generated.toList = .error e) :
    ∃ e', run (applyTransfer d t) a = ⟨.error e', a, []⟩ := by
  cases hspent : resolveAll d a.network t.spent.toList with
  | error e' => exact ⟨e', by simp [applyTransfer, run_bind, hspent]⟩
  | ok spent =>
    rw [hspent] at h
    obtain hgenerated := h.resolve_left (by simp)
    exact ⟨e, by simp [applyTransfer, run_bind, hspent, hgenerated]⟩

/-- The network alone decides whether a transfer is refused, and for which addresses its outputs
are recorded. -/
lemma applyTransfer_decided (d : Crypto.Digests) (t : Transfer) (n : Network) :
    (∃ e, ∀ a : Agent, a.network = n → run (applyTransfer d t) a = ⟨.error e, a, []⟩) ∨
      ∃ spent generated, resolveAll d n t.spent.toList = .ok spent ∧
        resolveAll d n t.generated.toList = .ok generated ∧
        ∀ a : Agent, a.network = n →
          Yields (applyTransfer d t) a () (a.recording spent generated) := by
  cases hspent : resolveAll d n t.spent.toList with
  | error e =>
    refine Or.inl ⟨e, fun a ha => ?_⟩
    simp [applyTransfer, run_bind, ha, hspent]
  | ok spent =>
    cases hgenerated : resolveAll d n t.generated.toList with
    | error e =>
      refine Or.inl ⟨e, fun a ha => ?_⟩
      simp [applyTransfer, run_bind, ha, hspent, hgenerated]
    | ok generated =>
      exact Or.inr ⟨spent, generated, rfl, rfl, fun a ha =>
        yields_applyTransfer (ha ▸ hspent) (ha ▸ hgenerated)⟩

/-- All or nothing. -/
theorem applyTransfer_cases (d : Crypto.Digests) (t : Transfer) (a : Agent) :
    (∃ e, run (applyTransfer d t) a = ⟨.error e, a, []⟩) ∨
      ∃ spent generated, resolveAll d a.network t.spent.toList = .ok spent ∧
        resolveAll d a.network t.generated.toList = .ok generated ∧
        Yields (applyTransfer d t) a () (a.recording spent generated) := by
  rcases applyTransfer_decided d t a.network with
    ⟨e, hrun⟩ | ⟨spent, generated, hspent, hgenerated, hyields⟩
  · exact Or.inl ⟨e, hrun a rfl⟩
  · exact Or.inr ⟨spent, generated, hspent, hgenerated, hyields a rfl⟩

end Applying

end Agent

end WatchWallet
