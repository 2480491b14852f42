import WatchWallet.Proofs.Crypto.Der
import WatchWallet.Proofs.Crypto.Ecdsa
import WatchWallet.Proofs.Key
import WatchWallet.Signing

/-!
A signature that is given out is in DER, in the lower half of the order, and verifies for the public
key of the key that it was made with.
-/

namespace WatchWallet

open Crypto

@[simp] lemma Crypto.Signature.r_lowered (order : ℕ) (sig : Signature) :
    (sig.lowered order).r = sig.r := by
  unfold Signature.lowered
  split_ifs <;> rfl

/-- For an order of either parity. -/
lemma Crypto.Signature.s_lowered_le {order : ℕ} {sig : Signature} (h : sig.s < order) :
    (sig.lowered order).s ≤ order / 2 := by
  unfold Signature.lowered
  split_ifs with hhigh
  · simp only
    omega
  · omega

namespace Signing

variable {c : Crypto.Suite}

lemma sign_of_sign? {key hash : Bytes} {sig : Signature} (hhash : hash.length = 32)
    (h : c.curve.sign? (Bytes.toNat key) hash = some sig) :
    sign c.curve key hash = .ok (Der.encode (sig.lowered c.curve.order)) := by
  rw [sign, if_neg (by simpa using hhash), h]

lemma exists_of_sign {key hash signature : Bytes} (hhash : hash.length = 32)
    (h : sign c.curve key hash = .ok signature) : ∃ sig,
      c.curve.sign? (Bytes.toNat key) hash = some sig ∧
      signature = Der.encode (sig.lowered c.curve.order) := by
  cases hsig : c.curve.sign? (Bytes.toNat key) hash with
  | none =>
    rw [sign, if_neg (by simpa using hhash), hsig] at h
    cases h
  | some sig =>
    rw [sign_of_sign? hhash hsig] at h
    exact ⟨sig, rfl, (Except.ok.inj h).symm⟩

/-- The only thing that can go wrong with a digest is that no nonce gives a signature. -/
lemma error_of_sign {key hash : Bytes} {e : Error} (hhash : hash.length = 32)
    (h : sign c.curve key hash = .error e) : e = .signing .noSignature := by
  cases hsig : c.curve.sign? (Bytes.toNat key) hash with
  | none =>
    rw [sign, if_neg (by simpa using hhash), hsig] at h
    exact (Except.error.inj h).symm
  | some sig =>
    rw [sign_of_sign? hhash hsig] at h
    cases h

lemma verify_lowered (hs : c.curve.Signs) {key : ℕ} {hash : Bytes} {sig : Signature}
    (hhash : hash.length = 32) (h : c.curve.sign? key hash = some sig) :
    c.curve.verify (c.curve.mulBase key) hash (sig.lowered c.curve.order) = true := by
  obtain ⟨-, hpos, hlt⟩ := hs.range key hash sig hhash h
  have hverifies := hs.verifies key hash sig hhash h
  unfold Signature.lowered
  split_ifs
  · exact hs.verifies_neg key hash sig.r sig.s hhash hpos hlt hverifies
  · exact hverifies

/-- **What is signed is found good** by a reader who has the public key. -/
theorem inspect_of_sign (hc : c.curve.Lawful) (hs : c.curve.Signs) {r p : ChainedKey}
    (hkeys : Key.Twins c r p) {hash signature : Bytes} (hhash : hash.length = 32)
    (h : sign c.curve r.key hash = .ok signature) :
    inspect c.curve p.key hash signature = ⟨true, true, true⟩ := by
  obtain ⟨sig, hsig, rfl⟩ := exists_of_sign hhash h
  obtain ⟨hr, -, hlt⟩ := hs.range _ hash sig hhash hsig
  have hlow := Signature.s_lowered_le hlt
  have hr' : (sig.lowered c.curve.order).r < 256 ^ 32 := by
    rw [Signature.r_lowered]
    exact lt_of_lt_of_le hr hc.order_le
  have hs' : (sig.lowered c.curve.order).s < 256 ^ 32 := by
    have hle := hc.order_le
    omega
  have hverifies := verify_lowered hs hhash hsig
  rw [inspect, Der.decode?_encode hr' hs', hkeys.decode?_eq hc]
  simp [hlow, hverifies]

end Signing

end WatchWallet
