import WatchWallet.Oracle.Simulated
import WatchWallet.Proofs.Action
import WatchWallet.Proofs.Signing

/-!
What a simulated oracle signs is found good under the keys that are derived from its root key.

Whatever the oracle is told and asked, its private key and its root key stay those that it was made
with. So along a path it signs with the private key whose public key is derived from the root key
along that path.
-/

namespace WatchWallet.Simulated

open WatchWallet.Action

/-- A call of anything that a simulated oracle can be told or asked, with its arguments. -/
inductive Call
  | addUtxo (address : Address) (u : Utxo)
  | removeUtxo (address : Address) (o : OutPoint)
  | mine
  | setTip (tip : UInt32)
  | rootKey
  | snapshot (n : Network) (address : Address) (depth : UInt32)
  | fees (n : Network)
  | sign (path : Path) (hash : Bytes)
  | send (transaction : Bytes) (n : Network)
deriving DecidableEq

section Calls

variable (c : Crypto.Suite)

/-- The oracle that a call leaves, whether it fails or not. -/
def after (s : Simulated) : Call → Simulated
  | .addUtxo address u => (run (addUtxo address u) s).state
  | .removeUtxo address o => (run (removeUtxo address o) s).state
  | .mine => (run mine s).state
  | .setTip tip => (run (setTip tip) s).state
  | .rootKey => (run (oracle c).rootKey s).state
  | .snapshot n address depth => (run ((oracle c).snapshot n address depth) s).state
  | .fees n => (run ((oracle c).fees n) s).state
  | .sign path hash => (run ((oracle c).sign path hash) s).state
  | .send transaction n => (run ((oracle c).send transaction n) s).state

/-- The private key and the root key are the same. -/
structure SameKeys (s s' : Simulated) : Prop where
  privateKey_eq : s'.privateKey = s.privateKey
  key_eq : s'.key = s.key

instance : IsPreorder Simulated SameKeys where
  refl _ := ⟨rfl, rfl⟩
  trans _ _ _ h h' := ⟨h'.1.trans h.1, h'.2.trans h.2⟩

/-- To look changes nothing, and is refused for another network alone. -/
lemma run_snapshot (n : Network) (x : Address) (depth : UInt32) (s : Simulated) :
    run (snapshot n x depth) s =
      ⟨if n = s.network then .ok ⟨(s.outputsOf x).filter (·.hasDepth s.tip depth), s.tip⟩
        else .error (.otherNetwork s.network n), s, []⟩ := by
  by_cases h : n = s.network
  · simp [snapshot, checkNetwork, run_bind, h, Except.map]
  · simp [snapshot, checkNetwork, run_bind, h]

lemma state_fees (n : Network) (s : Simulated) : (run (fees n) s).state = s := by
  by_cases h : n = s.network <;> simp [fees, checkNetwork, run_bind, h]

/-- A transaction that is sent waits, and changes nothing else. -/
lemma state_send (transaction : Bytes) (n : Network) (s : Simulated) :
    ∃ waiting, (run (send transaction n) s).state = { s with waiting := waiting } := by
  by_cases h : n = s.network
  · by_cases ht : transaction = []
    · exact ⟨s.waiting, by simp [send, checkNetwork, run_bind, h, ht]⟩
    · exact ⟨s.waiting ++ [transaction], by simp [send, checkNetwork, run_bind, h, ht]⟩
  · exact ⟨s.waiting, by simp [send, checkNetwork, run_bind, h]⟩

/-- To sign, or to fail to, changes nothing. -/
lemma run_sign (path : Path) (hash : Bytes) (s : Simulated) :
    run (sign c path hash) s =
      ⟨if s.privateKey = [] then .error (.signing .keyMissing) else do
        let child ← Key.derivePrivate c s.privateKey s.key.chainCode path
        Signing.sign c.curve child.key hash, s, []⟩ := by
  by_cases h : s.privateKey = []
  · simp [sign, run_bind, h]
  · cases hchild : Key.derivePrivate c s.privateKey s.key.chainCode path with
    | error e =>
      simp [sign, run_bind, h, hchild]
      rfl
    | ok child =>
      simp [sign, run_bind, h, hchild]
      rfl

@[simp] lemma after_rootKey (s : Simulated) : after c s .rootKey = s := rfl

@[simp] lemma after_snapshot (s : Simulated) (n : Network) (x : Address) (depth : UInt32) :
    after c s (.snapshot n x depth) = s :=
  congrArg Outcome.state (run_snapshot n x depth s)

@[simp] lemma after_fees (s : Simulated) (n : Network) : after c s (.fees n) = s := state_fees n s

@[simp] lemma after_sign (s : Simulated) (path : Path) (hash : Bytes) :
    after c s (.sign path hash) = s :=
  congrArg Outcome.state (run_sign c path hash s)

lemma exists_after_send (s : Simulated) (transaction : Bytes) (n : Network) :
    ∃ waiting, after c s (.send transaction n) = { s with waiting := waiting } :=
  state_send transaction n s

lemma sameKeys_after (s : Simulated) (call : Call) : SameKeys s (after c s call) := by
  cases call with
  | snapshot | fees | sign => simpa using refl_of SameKeys s
  | send transaction n =>
    obtain ⟨waiting, h⟩ := exists_after_send c s transaction n
    rw [h]
    exact ⟨rfl, rfl⟩
  | _ => exact ⟨rfl, rfl⟩

/-- **Whatever is told and asked**, the keys stay. -/
theorem sameKeys_foldl (s : Simulated) (calls : List Call) :
    SameKeys s (calls.foldl (after c) s) := by
  induction calls generalizing s with
  | nil => exact refl_of SameKeys s
  | cons call calls ih => exact trans_of SameKeys (sameKeys_after c s call) (ih _)

end Calls

/-! ### Signing along a path -/

lemma result_sign {c : Crypto.Suite} {s : Simulated} (hkey : s.privateKey ≠ []) {path : Path}
    {signer : ChainedKey}
    (h : Key.derivePrivate c s.privateKey s.key.chainCode path = .ok signer) (hash : Bytes) :
    (run ((oracle c).sign path hash) s).result = Signing.sign c.curve signer.key hash := by
  have hrun := congrArg Outcome.result (run_sign c path hash s)
  rw [if_neg hkey, h] at hrun
  exact hrun

/-- The root key is the public key of the private key, at the top of all paths. -/
structure Keyed (c : Crypto.Suite) (s : Simulated) : Prop where
  not_dvd : ¬c.curve.order ∣ Bytes.toNat s.privateKey
  key_eq : Key.ofPrivate c s.privateKey = .ok s.key.publicKey
  path_eq : s.key.path = []

variable {c : Crypto.Suite} {s s' : Simulated}

lemma Keyed.congr (h : Keyed c s) (hsame : SameKeys s s') : Keyed c s' := by
  obtain ⟨hdvd, hkey, hpath⟩ := h
  rw [← hsame.privateKey_eq] at hdvd hkey
  rw [← hsame.key_eq] at hkey hpath
  exact ⟨hdvd, hkey, hpath⟩

lemma Keyed.ne_nil (h : Keyed c s) : s.privateKey ≠ [] := by
  intro hempty
  exact h.not_dvd (by rw [hempty]; exact dvd_zero _)

/-- An oracle is made without a key, or with one and an output for its main address. -/
lemma create_cases {n : Network} {t : ScriptType} {privateKey chainCode : Bytes}
    (h : create c n t privateKey chainCode = .ok s) :
    privateKey = [] ∧ s = ⟨n, [], ⟨[], chainCode, []⟩, maxDepth, ∅, []⟩ ∨
    ∃ pub, privateKey ≠ [] ∧ Key.ofPrivate c privateKey = .ok pub ∧
      s = ⟨n, privateKey, ⟨pub, chainCode, []⟩, maxDepth, (∅ : Std.ExtTreeMap _ _).insert
        (Address.ofKey c.digests n t pub) [firstOutput maxDepth], []⟩ := by
  unfold create at h
  split_ifs at h with hempty
  · exact .inl ⟨List.isEmpty_iff.mp hempty, (Except.ok.inj h).symm⟩
  · cases hpub : Key.ofPrivate c privateKey with
    | error e => rw [hpub] at h; cases h
    | ok pub =>
      rw [hpub] at h
      exact .inr ⟨pub, fun hnil => hempty (List.isEmpty_iff.mpr hnil), rfl,
        (Except.ok.inj h).symm⟩

lemma keyed_of_create {n : Network} {t : ScriptType} {privateKey chainCode : Bytes}
    (hkey : Bytes.toNat privateKey % c.curve.order ≠ 0)
    (h : create c n t privateKey chainCode = .ok s) : Keyed c s := by
  have hdvd : ¬c.curve.order ∣ Bytes.toNat privateKey := fun h => hkey (Nat.mod_eq_zero_of_dvd h)
  obtain ⟨rfl, -⟩ | ⟨pub, -, hpub, rfl⟩ := create_cases h
  · exact absurd (dvd_zero _) hdvd
  · exact ⟨hdvd, hpub, rfl⟩

/-- **Along one path**: what is signed is found good under the key that is derived from the root
key, and nothing is refused but by the signatures themselves. -/
theorem Keyed.signs (h : Keyed c s) (hc : c.curve.Lawful) (hs : c.curve.Signs) {path : Path}
    {child : ChainedKey}
    (hchild : Key.derivePublic c s.key.publicKey s.key.chainCode path = .ok child)
    {hash : Bytes} (hhash : hash.length = 32) :
    (∀ signature, (run ((oracle c).sign path hash) s).result = .ok signature →
      Signing.inspect c.curve child.key hash signature = ⟨true, true, true⟩) ∧
    ∀ e, (run ((oracle c).sign path hash) s).result = .error e → e = .signing .noSignature := by
  have hagree := Key.agree_foldlM hc path
    (r := ⟨s.privateKey, Key.startChain s.key.chainCode⟩)
    (p := ⟨s.key.publicKey, Key.startChain s.key.chainCode⟩) ⟨h.not_dvd, h.key_eq, rfl⟩
  rw [← Key.derivePrivate, ← Key.derivePublic, hchild] at hagree
  obtain ⟨signer, hsigner, htwins⟩ : ∃ signer,
      Key.derivePrivate c s.privateKey s.key.chainCode path = .ok signer ∧
        Key.Twins c signer child := by
    generalize Key.derivePrivate c s.privateKey s.key.chainCode path = derived at hagree
    cases hagree with
    | derived htwins => exact ⟨_, rfl, htwins⟩
  rw [result_sign h.ne_nil hsigner]
  exact ⟨fun _ => Signing.inspect_of_sign hc hs htwins hhash, fun _ => Signing.error_of_sign hhash⟩

end WatchWallet.Simulated
