import WatchWallet.Proofs.Key

/-!
Derivation along a path is derivation along its parts.

An empty chain code stands for one of zeros, but only at the start: the zeros are not empty, and
neither is what a step leaves. So a derived key is taken up just as it was left, and it does not
matter where a path is cut. Nor does the root have to be a point: as long as there are no segments
it is handed on unread.
-/

namespace WatchWallet

namespace Key

variable {c : Crypto.Suite}

lemma startChain_ne_nil (chainCode : Bytes) : startChain chainCode ≠ [] := by
  unfold startChain
  split_ifs with h
  · decide
  · exact fun hnil => h (List.isEmpty_iff.mpr hnil)

lemma startChain_of_ne {chainCode : Bytes} (h : chainCode ≠ []) :
    startChain chainCode = chainCode := by
  unfold startChain
  rw [if_neg (mt List.isEmpty_iff.mp h)]

/-- Fails as derivations do, or gives a key whose chain code is not empty. -/
inductive Continues : Except Error ChainedKey → Prop
  | failed {e : Error} (h : e.kind = .derivationError) : Continues (.error e)
  | derived {k : ChainedKey} (h : k.chainCode ≠ []) : Continues (.ok k)

lemma Continues.kind_eq {e : Error} (h : Continues (.error e)) : e.kind = .derivationError := by
  cases h with
  | failed h => exact h

lemma Continues.chainCode_ne {k : ChainedKey} (h : Continues (.ok k)) : k.chainCode ≠ [] := by
  cases h with
  | derived h => exact h

lemma Continues.bind {x : Except Error ChainedKey} (h : Continues x)
    {f : ChainedKey → Except Error ChainedKey}
    (hf : ∀ k, k.chainCode ≠ [] → Continues (f k)) : Continues (x >>= f) := by
  cases h with
  | failed h => exact .failed h
  | derived h => exact hf _ h

lemma drop_stepDigest_ne_nil (publicKey chainCode segment : Bytes) :
    (stepDigest c publicKey chainCode segment).drop 32 ≠ [] := by
  intro hnil
  have hlen := congrArg List.length hnil
  simp [stepDigest] at hlen

lemma continues_step (k : ChainedKey) (segment : Bytes) : Continues (publicStep c k segment) := by
  have hfault : ∀ fault, Continues (.error (.key fault)) := fun _ => .failed rfl
  unfold publicStep
  dsimp only
  cases scalar? c (stepDigest c k.key k.chainCode segment) with
  | none => exact hfault _
  | some n =>
    cases c.curve.decode? k.key with
    | none => exact hfault _
    | some parent =>
      dsimp only
      cases c.curve.compress? (c.curve.add (c.curve.mulBase n) parent) with
      | none => exact hfault _
      | some child => exact .derived (drop_stepDigest_ne_nil k.key k.chainCode segment)

/-- **A whole path**, by steps. -/
theorem continues_foldlM (path : Path) {k : ChainedKey} (hk : k.chainCode ≠ []) :
    Continues (path.foldlM (publicStep c) k) := by
  induction path generalizing k with
  | nil => exact .derived hk
  | cons segment path ih =>
    rw [List.foldlM_cons]
    exact (continues_step k segment).bind fun _ => ih

lemma continues_derivePublic (publicKey chainCode : Bytes) (path : Path) :
    Continues (derivePublic c publicKey chainCode path) :=
  continues_foldlM path (startChain_ne_nil chainCode)

/-- The start of the second path leaves the chain code as it is. -/
lemma derivePublic_append (publicKey chainCode : Bytes) (p q : Path) :
    derivePublic c publicKey chainCode (p ++ q) =
      derivePublic c publicKey chainCode p >>= fun k => derivePublic c k.key k.chainCode q := by
  have hsplit : derivePublic c publicKey chainCode (p ++ q) =
      derivePublic c publicKey chainCode p >>= q.foldlM (publicStep c) := List.foldlM_append
  have hp := continues_derivePublic (c := c) publicKey chainCode p
  rw [hsplit]
  cases hchild : derivePublic c publicKey chainCode p with
  | error e => rfl
  | ok k =>
    rw [hchild] at hp
    change q.foldlM (publicStep c) k = q.foldlM (publicStep c) ⟨k.key, startChain k.chainCode⟩
    rw [startChain_of_ne hp.chainCode_ne]

end Key

namespace ExtendedKey

variable {c : Crypto.Suite} {parent : ExtendedKey} {p : Path}

lemma derive_eq_ok_iff {k : ExtendedKey} : parent.derive c p = .ok k ↔
    ∃ child, Key.derivePublic c parent.publicKey parent.chainCode p = .ok child ∧
      k = ⟨child.key, child.chainCode, parent.path ++ p⟩ := by
  unfold derive
  cases Key.derivePublic c parent.publicKey parent.chainCode p with
  | error e => simp [bind, Except.bind]
  | ok child => simp [bind, Except.bind, pure, Except.pure, eq_comm]

lemma derive_eq_error_iff {e : Error} : parent.derive c p = .error e ↔
    Key.derivePublic c parent.publicKey parent.chainCode p = .error e := by
  unfold derive
  cases Key.derivePublic c parent.publicKey parent.chainCode p with
  | error e => simp [bind, Except.bind]
  | ok child => simp [bind, Except.bind, pure, Except.pure]

lemma kind_of_derive {e : Error} (h : parent.derive c p = .error e) :
    e.kind = .derivationError := by
  have hp := Key.continues_derivePublic (c := c) parent.publicKey parent.chainCode p
  rw [derive_eq_error_iff.mp h] at hp
  exact hp.kind_eq

lemma path_of_derive {k : ExtendedKey} (h : parent.derive c p = .ok k) :
    k.path = parent.path ++ p := by
  obtain ⟨child, -, rfl⟩ := derive_eq_ok_iff.mp h
  rfl

/-- **Paths compose**: from any parent, derivation along one path and then along another gives what
derivation along both gives at once, the same key with the same chain code and the whole path, and
it fails if that fails, as derivations do. -/
theorem derive_append (c : Crypto.Suite) (parent : ExtendedKey) (p q : Path) :
    parent.derive c (p ++ q) = (parent.derive c p >>= fun k => k.derive c q) ∧
      (∀ k, parent.derive c (p ++ q) = .ok k → k.path = parent.path ++ p ++ q) ∧
      ∀ e, parent.derive c (p ++ q) = .error e → e.kind = .derivationError := by
  refine ⟨?_, fun k hk => ?_, fun e => kind_of_derive⟩
  · have happend := Key.derivePublic_append (c := c) parent.publicKey parent.chainCode p q
    cases hp : parent.derive c p with
    | error e =>
      rw [derive_eq_error_iff.mp hp] at happend
      exact derive_eq_error_iff.mpr happend
    | ok m =>
      obtain ⟨child, hchild, rfl⟩ := derive_eq_ok_iff.mp hp
      rw [hchild] at happend
      change _ = derive c ⟨child.key, child.chainCode, parent.path ++ p⟩ q
      unfold derive
      rw [happend, List.append_assoc]
      rfl
  · rw [path_of_derive hk, List.append_assoc]

end ExtendedKey

end WatchWallet
