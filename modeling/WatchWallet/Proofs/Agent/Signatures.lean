import WatchWallet.Proofs.Agent.Isolation
import WatchWallet.Proofs.Agent.Managed
import WatchWallet.Proofs.Oracle.Simulated

/-!
An oracle whose root key an agent took signs for the keys that the agent keeps.

The path that is kept with a key is the path from the root key of the oracle, for the main address
as for any other and after a restart too. Along it the oracle derives the private key of that key.
-/

namespace WatchWallet.Agent

open WatchWallet.Action

/-- What can become of an agent that took the root key, as long as it takes no other: further calls,
which may fail, and being rebuilt from its own record. -/
inductive Rooted (c : Crypto.Suite) (k : ExtendedKey) : Agent → Prop
  | adopted {a : Agent} (h : Reachable c a) (hk : (run (adopt c k) a).result = .ok ()) :
      Rooted c k (run (adopt c k) a).state
  | called {a : Agent} (h : Rooted c k a) (call : Call)
      (hcall : ∀ k', call = .adopt k' → ∃ e, (outcome c a call).result = .error e) :
      Rooted c k (after c a call)
  | reloaded {a b : Agent} (h : Rooted c k a)
      (hb : (run (restore c a.snapshot) ()).result = .ok b) : Rooted c k b

variable {c : Crypto.Suite} {k : ExtendedKey} {a : Agent}

lemma Rooted.inUse (h : Rooted c k a) : InUse c a := by
  induction h with
  | adopted h hk => exact .initialized h hk
  | called _ call _ ih => exact .called ih call
  | reloaded _ hb ih => exact .reloaded ih hb

/-- Only a root key that is taken changes the root. -/
lemma root_after {call : Call}
    (hcall : ∀ k', call = .adopt k' → ∃ e, (outcome c a call).result = .error e) :
    (after c a call).registry.root = a.registry.root := by
  by_cases hkeeps : (Operation.call call).KeepsRoot
  · have hsetting := (local_outcome c a hkeeps).setting_eq
    rw [state_outcome] at hsetting
    exact congrArg Setting.root hsetting
  · cases call with
    | adopt k' =>
      obtain ⟨e, he⟩ := hcall k' rfl
      rw [state_eq_of_failed c he]
    | _ => exact absurd trivial hkeeps

theorem Rooted.rootKey_eq (h : Rooted c k a) : a.registry.rootKey = k := by
  induction h with
  | @adopted a h hk =>
    have hlen : k.publicKey.length = 33 := by
      by_contra hne
      rw [run_adopt_of_ne c hne] at hk
      cases hk
    rw [(yields_adopt c hlen a).2]
    rfl
  | called _ call hcall ih => rw [Registry.rootKey, root_after hcall, ← Registry.rootKey, ih]
  | reloaded h hb ih =>
    -- Being rebuilt changes nothing.
    rw [(h.inUse.reachable.yields_restore ()).1] at hb
    obtain rfl := Except.ok.inj hb
    exact ih

/-- **Signatures match managed keys**: of an oracle with a private key that is not zero modulo the
order an agent takes the root key; then whatever is done to either of them, what the oracle signs
along the path of a managed key is in DER, in the lower half of the order, and verifies for that
key. It refuses a digest only if no nonce gives a signature. -/
theorem Rooted.signatures_match (hc : c.curve.Lawful) (hs : c.curve.Signs) {n : Network}
    {t : ScriptType} {privateKey chainCode : Bytes} {s : Simulated}
    (hkey : Bytes.toNat privateKey % c.curve.order ≠ 0)
    (hcreate : Simulated.create c n t privateKey chainCode = .ok s)
    (earlier later : List Simulated.Call)
    (hk : (run (Simulated.oracle c).rootKey (earlier.foldl (Simulated.after c) s)).result = .ok k)
    (h : Rooted c k a) :
    ∀ x ∈ a.addresses, ∃ key, a.keyOf x = .ok key ∧ ∀ hash : Bytes, hash.length = 32 →
      let signed := (run ((Simulated.oracle c).sign key.path hash)
        (later.foldl (Simulated.after c) (earlier.foldl (Simulated.after c) s))).result
      (∀ signature, signed = .ok signature →
        Signing.inspect c.curve key.publicKey hash signature = ⟨true, true, true⟩) ∧
      ∀ e, signed = .error e → e = .signing .noSignature := by
  intro x hx
  obtain ⟨key, hxkey⟩ := (guarded_keyOf x).answers hx
  refine ⟨key, hxkey, fun hash hhash => ?_⟩
  have hkeyed := Simulated.keyed_of_create hkey hcreate
  have hsame := Simulated.sameKeys_foldl c s earlier
  have hsame' := Simulated.sameKeys_foldl c (earlier.foldl (Simulated.after c) s) later
  have hroot : a.registry.rootKey = (later.foldl (Simulated.after c)
      (earlier.foldl (Simulated.after c) s)).key := by
    rw [h.rootKey_eq, hsame'.key_eq]
    exact (Except.ok.inj hk).symm
  obtain ⟨-, -, p, -, hpath, child, hchild, hpub⟩ :=
    h.inUse.managed.derived x key (keyOf_eq_ok_iff.mp hxkey)
  have hlast := (hkeyed.congr hsame).congr hsame'
  rw [hroot] at hpath hchild
  rw [hlast.path_eq, List.nil_append] at hpath
  rw [hpath, ← hpub]
  exact hlast.signs hc hs hchild hhash

/-! ### The private key one -/

open Crypto

/-- The compressed base point. -/
def baseKey : Bytes :=
  2 :: Secp256k1.coordinate 0x79be667ef9dcbbac55a06295ce870b07029bfcdb2dce28d959f2815b16f81798

lemma compress?_standard (k : ℕ) : Suite.standard.curve.compress?
    (Suite.standard.curve.mulBase k) = Secp256k1.compress? (Secp256k1.mulBase k) := rfl

lemma ofPrivate_one : Key.ofPrivate .standard [1] = .ok baseKey := by
  have hone : Bytes.toNat [1] = 1 := rfl
  refine Key.ofPrivate_of_compress? (by decide) ?_
  rw [compress?_standard, hone, Secp256k1.mulBase_eq, one_nsmul, Secp256k1.coordinates_generator,
    Secp256k1.base, Secp256k1.compress?, if_pos (by decide), baseKey]

lemma exists_create_one : ∃ s, Simulated.create .standard .regtest .p2wpkh [1] [] = .ok s ∧
    s.privateKey = [1] ∧ s.key = ⟨baseKey, [], []⟩ := by
  have hne : ¬([1] : Bytes).isEmpty = true := by decide
  rw [Simulated.create, if_neg hne, ofPrivate_one]
  exact ⟨_, rfl, rfl, rfl⟩

/-- An agent takes the root key of the private key one, acknowledges, and is rebuilt; then the
oracle signs a digest for its main address. -/
theorem Rooted.signatures_match_of_one :
    let k : ExtendedKey := ⟨baseKey, [], []⟩
    let main := Address.ofKey .standard .regtest .p2wpkh baseKey
    ∃ s a, Simulated.create .standard .regtest .p2wpkh [1] [] = .ok s ∧ Rooted .standard k a ∧
      a.keyOf main = .ok k ∧ ∃ signature,
        (run ((Simulated.oracle .standard).sign k.path (Bytes.zeros 32)) s).result =
          .ok signature ∧
        Signing.inspect .secp256k1 k.publicKey (Bytes.zeros 32) signature = ⟨true, true, true⟩ := by
  intro k main
  obtain ⟨s, hcreate, hprivate, hroot⟩ := exists_create_one
  set start : Agent := ⟨.empty .regtest .p2wpkh, .empty, 0⟩ with hstart
  have hlen : k.publicKey.length = 33 := by simp [k, baseKey, Secp256k1.coordinate]
  have hadopt := yields_adopt .standard hlen start
  have hadopted : Rooted .standard k (run (adopt .standard k) start).state :=
    .adopted (.created (create_of_le (by decide))) hadopt.1
  have hcalled : Rooted .standard k
      (after .standard (run (adopt .standard k) start).state (.commit main)) :=
    .called hadopted (.commit main) (by rintro k' ⟨⟩)
  have hreloaded := Rooted.reloaded hcalled (hcalled.inUse.reachable.yields_restore ()).1
  set a := after .standard (run (adopt .standard k) start).state (.commit main) with ha
  have hmain : a.registry.keys[main]? = some k := by
    rw [ha, after, state_commit, hadopt.2]
    exact Std.ExtTreeMap.getElem?_insert_self
  have hmem : main ∈ a.addresses := by
    rw [mem_addresses, ← Std.ExtTreeMap.isSome_getElem?_iff_mem, hmain]
    rfl
  obtain ⟨key, hkey, hsigned⟩ := Rooted.signatures_match Curve.secp256k1_lawful
    Curve.secp256k1_signs (by decide) hcreate [] [] (congrArg Except.ok hroot) hreloaded main hmem
  obtain rfl : k = key := Option.some.inj (hmain.symm.trans (keyOf_eq_ok_iff.mp hkey))
  obtain ⟨sig, hsig⟩ : ∃ sig,
      Suite.standard.curve.sign? (Bytes.toNat [1]) (Bytes.zeros 32) = some sig :=
    Option.isSome_iff_exists.mp (by decide +kernel)
  have hsigner : Key.derivePrivate .standard s.privateKey s.key.chainCode k.path =
      .ok ⟨[1], Bytes.zeros 32⟩ := by
    rw [hprivate, hroot]
    rfl
  have hne : s.privateKey ≠ [] := by rw [hprivate]; exact List.cons_ne_nil _ _
  have hresult := (Simulated.result_sign hne hsigner (Bytes.zeros 32)).trans
    (Signing.sign_of_sign? (Bytes.length_zeros 32) hsig)
  exact ⟨s, a, hcreate, hreloaded, hkey, _, hresult,
    (hsigned (Bytes.zeros 32) (Bytes.length_zeros 32)).1 _ hresult⟩

end WatchWallet.Agent
