import WatchWallet.Key
import WatchWallet.Proofs.Bytes
import WatchWallet.Proofs.Crypto.Lawful

/-!
Private and public derivation agree.

Along a path the private key stays the key of the public one: a step adds the same number to the
scalar and, times the base point, to the point. The steps also fail together, as the point is
neutral just where the scalar is zero modulo the order.
-/

namespace WatchWallet.Key

variable (c : Crypto.Suite)

/-- A private key and its public key, under one chain code. -/
structure Twins (r p : ChainedKey) : Prop where
  not_dvd : ¬c.curve.order ∣ Bytes.toNat r.key
  key_eq : ofPrivate c r.key = .ok p.key
  chain_eq : r.chainCode = p.chainCode

/-- Both fail as derivations do, or both give keys that belong together. -/
inductive Agree : Except Error ChainedKey → Except Error ChainedKey → Prop
  | failed {e e' : Error} (h : e.kind = .derivationError) (h' : e'.kind = .derivationError) :
      Agree (.error e) (.error e')
  | derived {r p : ChainedKey} (h : Twins c r p) : Agree (.ok r) (.ok p)

variable {c}

lemma Agree.bind {x y : Except Error ChainedKey} (h : Agree c x y)
    {f g : ChainedKey → Except Error ChainedKey}
    (hfg : ∀ r p, Twins c r p → Agree c (f r) (g p)) : Agree c (x >>= f) (y >>= g) := by
  cases h with
  | failed h h' => exact .failed h h'
  | derived h => exact hfg _ _ h

/-! ### One step -/

lemma ofPrivate_of_compress? {key bs : Bytes} (hzero : Bytes.toNat key ≠ 0)
    (h : c.curve.compress? (c.curve.mulBase (Bytes.toNat key)) = some bs) :
    ofPrivate c key = .ok bs := by
  simp [ofPrivate, hzero, h]
  rfl

lemma compress?_of_ofPrivate {key bs : Bytes} (h : ofPrivate c key = .ok bs) :
    c.curve.compress? (c.curve.mulBase (Bytes.toNat key)) = some bs := by
  unfold ofPrivate at h
  by_cases hzero : Bytes.toNat key = 0
  · rw [if_pos hzero] at h
    cases h
  · rw [if_neg hzero] at h
    cases hpoint : c.curve.compress? (c.curve.mulBase (Bytes.toNat key)) with
    | none => rw [hpoint] at h; cases h
    | some bs' => rw [hpoint] at h; rw [Except.ok.inj h]

/-- A private step from the digest under the public key. -/
lemma privateStep_eq {r : ChainedKey} {pub : Bytes} (h : ofPrivate c r.key = .ok pub)
    (segment : Bytes) :
    privateStep c r segment =
      match scalar? c (stepDigest c pub r.chainCode segment) with
      | none => .error (.key .privateScalar)
      | some n =>
        if (Bytes.toNat r.key + n) % c.curve.order = 0 then .error (.key .privateSum)
        else .ok ⟨Bytes.ofNatFixed 32 ((Bytes.toNat r.key + n) % c.curve.order),
          (stepDigest c pub r.chainCode segment).drop 32⟩ := by
  rw [privateStep, h]
  simp only [bind, Except.bind]
  cases scalar? c (stepDigest c pub r.chainCode segment) with
  | none => rfl
  | some n =>
    simp only
    split_ifs <;> rfl

lemma publicStep_eq {p : ChainedKey} {parent : c.curve.Point}
    (h : c.curve.decode? p.key = some parent) (segment : Bytes) :
    publicStep c p segment =
      match scalar? c (stepDigest c p.key p.chainCode segment) with
      | none => .error (.key .publicScalar)
      | some n =>
        match c.curve.compress? (c.curve.add (c.curve.mulBase n) parent) with
        | none => .error (.key .publicInfinity)
        | some child => .ok ⟨child, (stepDigest c p.key p.chainCode segment).drop 32⟩ := by
  rw [publicStep]
  cases scalar? c (stepDigest c p.key p.chainCode segment) with
  | none => rfl
  | some n =>
    simp only [h]
    cases c.curve.compress? (c.curve.add (c.curve.mulBase n) parent) <;> rfl

section Lawful

variable (hc : c.curve.Lawful)
include hc

/-- A number that is not a multiple of the order has a public key. -/
lemma exists_ofPrivate {key : Bytes} (hkey : ¬c.curve.order ∣ Bytes.toNat key) :
    ∃ pub, ofPrivate c key = .ok pub := by
  have hzero : Bytes.toNat key ≠ 0 := fun h => hkey (h ▸ dvd_zero _)
  have hfinite := mt (hc.compress?_eq_none_iff (Bytes.toNat key)).mp hkey
  obtain ⟨pub, hpub⟩ := Option.ne_none_iff_exists'.mp hfinite
  exact ⟨pub, ofPrivate_of_compress? hzero hpub⟩

/-- The public key reads back as the point of the private key. -/
lemma Twins.decode?_eq {r p : ChainedKey} (h : Twins c r p) :
    c.curve.decode? p.key = some (c.curve.mulBase (Bytes.toNat r.key)) :=
  hc.decode?_of_compress? _ _ (compress?_of_ofPrivate h.key_eq)

/-- The keys of a sum that is not a multiple of the order. -/
lemma twins_of_compress? {k : ℕ} {bs chainCode : Bytes} (hk : k % c.curve.order ≠ 0)
    (h : c.curve.compress? (c.curve.mulBase k) = some bs) :
    Twins c ⟨Bytes.ofNatFixed 32 (k % c.curve.order), chainCode⟩ ⟨bs, chainCode⟩ := by
  have hlt : k % c.curve.order < c.curve.order := Nat.mod_lt k hc.order_pos
  have hread : Bytes.toNat (Bytes.ofNatFixed 32 (k % c.curve.order)) = k % c.curve.order := by
    rw [Bytes.toNat_ofNatFixed, Nat.mod_eq_of_lt (lt_of_lt_of_le hlt hc.order_le)]
  refine ⟨?_, ?_, rfl⟩
  · rw [hread]
    exact Nat.not_dvd_of_pos_of_lt (Nat.pos_of_ne_zero hk) hlt
  · refine ofPrivate_of_compress? ?_ ?_
    · rwa [hread]
    · rw [hread, (hc.mulBase_eq_iff _ k).mpr (Nat.mod_modEq k c.curve.order), h]

/-- **One step** on keys that belong together. -/
theorem agree_step {r p : ChainedKey} (h : Twins c r p) (segment : Bytes) :
    Agree c (privateStep c r segment) (publicStep c p segment) := by
  rw [privateStep_eq h.key_eq, publicStep_eq (h.decode?_eq hc), ← h.chain_eq]
  cases scalar? c (stepDigest c p.key r.chainCode segment) with
  | none => exact .failed rfl rfl
  | some n =>
    simp only [hc.add_mulBase, Nat.add_comm n]
    cases hsum : c.curve.compress? (c.curve.mulBase (Bytes.toNat r.key + n)) with
    | none =>
      have hdvd := (hc.compress?_eq_none_iff _).mp hsum
      rw [if_pos (Nat.mod_eq_zero_of_dvd hdvd)]
      exact .failed rfl rfl
    | some child =>
      have hdvd : ¬c.curve.order ∣ Bytes.toNat r.key + n := by
        intro hdvd
        rw [(hc.compress?_eq_none_iff _).mpr hdvd] at hsum
        cases hsum
      have hmod : (Bytes.toNat r.key + n) % c.curve.order ≠ 0 := mt Nat.dvd_of_mod_eq_zero hdvd
      rw [if_neg hmod]
      exact .derived (twins_of_compress? hc hmod hsum)

/-- **A whole path**, by steps. -/
theorem agree_foldlM (path : Path) {r p : ChainedKey} (h : Twins c r p) :
    Agree c (path.foldlM (privateStep c) r) (path.foldlM (publicStep c) p) := by
  induction path generalizing r p with
  | nil => exact .derived h
  | cons segment path ih =>
    rw [List.foldlM_cons, List.foldlM_cons]
    exact (agree_step hc h segment).bind fun _ _ => ih

/-- **Watching keys belong to signing keys**: from a private key that is not zero modulo the order
and from its public key, derivation along any path fails in both ways, or gives a private key and
its public key. -/
theorem agree_derive {key : Bytes} (hkey : Bytes.toNat key % c.curve.order ≠ 0)
    (chainCode : Bytes) (path : Path) :
    ∃ pub, ofPrivate c key = .ok pub ∧
      Agree c (derivePrivate c key chainCode path) (derivePublic c pub chainCode path) := by
  have hdvd : ¬c.curve.order ∣ Bytes.toNat key := fun h => hkey (Nat.mod_eq_zero_of_dvd h)
  obtain ⟨pub, hpub⟩ := exists_ofPrivate hc hdvd
  exact ⟨pub, hpub, agree_foldlM hc path ⟨hdvd, hpub, rfl⟩⟩

end Lawful

theorem agree_derive_of_one :
    let key : Bytes := [0, 1]
    Crypto.Suite.standard.curve.Lawful ∧
      Bytes.toNat key % Crypto.Suite.standard.curve.order ≠ 0 ∧
      ∃ pub, ofPrivate .standard key = .ok pub ∧
        Agree .standard (derivePrivate .standard key [] [[0x80, 0], []])
          (derivePublic .standard pub [] [[0x80, 0], []]) := by
  intro key
  have hkey : Bytes.toNat key % Crypto.Suite.standard.curve.order ≠ 0 := by decide
  exact ⟨Crypto.Curve.secp256k1_lawful, hkey,
    agree_derive Crypto.Curve.secp256k1_lawful hkey [] [[0x80, 0], []]⟩

end WatchWallet.Key
