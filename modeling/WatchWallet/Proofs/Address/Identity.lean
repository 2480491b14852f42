import WatchWallet.Crypto.Standard
import WatchWallet.Proofs.Address.Alphanumeric

/-!
A text and a network stand for one address.

Addresses are compared by all their parts, but of those that the codec gives no two differ in script
type or payload only: the text is read back as these. So they are told apart, and ordered, as they
are written down. A text alone may stand for two addresses, in Base58: the test network and the
regression network share their version bytes.
-/

namespace WatchWallet

/-- Networks stand in the order mainnet, testnet, regtest. -/
lemma Network.compare_eq_lt_iff (m n : Network) : compare m n = .lt ↔ m.rank < n.rank := by
  change compare m.rank n.rank = .lt ↔ m.rank < n.rank
  exact Nat.compare_eq_lt

namespace AddressRef

/-- By the characters of the text, as in a dictionary, and then by the network. -/
def Precedes (r s : AddressRef) : Prop :=
  r.text < s.text ∨ r.text = s.text ∧ r.network.rank < s.network.rank

lemma compare_eq_lt_iff (r s : AddressRef) : compare r s = .lt ↔ r.Precedes s := by
  have hthen : compare r s = (compare r.text s.text).then (compare r.network s.network) := rfl
  have htext : compare r.text s.text = .lt ↔ r.text < s.text := compareOfLessAndEq_eq_lt
  rw [hthen, Ordering.then_eq_lt, htext, Std.LawfulEqOrd.compare_eq_iff_eq,
    Network.compare_eq_lt_iff, Precedes]

end AddressRef

namespace Address

variable {d : Crypto.Digests} {a b : Address}

section Genuine

variable (ha : Genuine d a) (hb : Genuine d b)
include ha

lemma Genuine.decode_text : decode d a.text =
    .ok (ofPayload d (if a.scriptType = .p2wpkh then a.network else versionNetwork a.network)
      a.scriptType a.payload) := by
  rw [ha.text_eq]
  exact decode_render a.network a.scriptType ha.length_payload

include hb

lemma Genuine.eq_of_ref_eq (h : a.ref = b.ref) : a = b := by
  obtain ⟨htext, hnetwork⟩ := AddressRef.mk.inj h
  have hread := ha.decodeOn_text
  rw [htext, hnetwork, hb.decodeOn_text] at hread
  exact (Except.ok.inj hread).symm

/-- Nothing but text and network counts in the order. -/
theorem Genuine.compare_ref : compare a.ref b.ref = compare a b := by
  have href : compare a.ref b.ref =
      (compare a.text b.text).then (compare a.network b.network) := rfl
  have hall : compare a b = (compare a.text b.text).then ((compare a.network b.network).then
      ((compare a.scriptType b.scriptType).then (compare a.payload b.payload))) := rfl
  cases heq : compare a.ref b.ref with
  | eq =>
    obtain rfl := ha.eq_of_ref_eq hb (Std.LawfulEqOrd.eq_of_compare heq)
    exact Std.ReflOrd.compare_self.symm
  | _ =>
    -- the first two comparisons decide
    rw [hall, ← Ordering.then_assoc, ← href, heq]
    rfl

/-- What two addresses with one text have in common. -/
theorem Genuine.text_eq_iff : a.text = b.text ↔
    a.scriptType = b.scriptType ∧ a.payload = b.payload ∧
      (a.network = b.network ∨
        a.scriptType ≠ .p2wpkh ∧ versionNetwork a.network = versionNetwork b.network) := by
  constructor
  · intro htext
    have hread := ha.decode_text
    rw [htext, hb.decode_text] at hread
    obtain ⟨-, hnetwork, htype, hpayload⟩ := Address.mk.inj (Except.ok.inj hread)
    refine ⟨htype.symm, hpayload.symm, ?_⟩
    rw [htype] at hnetwork
    split_ifs at hnetwork with hsegwit
    · exact Or.inl hnetwork.symm
    · exact Or.inr ⟨hsegwit, hnetwork.symm⟩
  · rintro ⟨htype, hpayload, hnetwork⟩
    rw [ha.text_eq, hb.text_eq, ← htype, ← hpayload]
    rcases hnetwork with hnetwork | ⟨hbase, hversion⟩
    · rw [hnetwork]
    · rw [← render_versionNetwork hbase, hversion, render_versionNetwork hbase]

end Genuine

/-- Only the test network and the regression network share version bytes. -/
lemma eq_or_of_versionNetwork_eq {m n : Network} (h : versionNetwork m = versionNetwork n) :
    m = n ∨ m = .testnet ∧ n = .regtest ∨ m = .regtest ∧ n = .testnet := by
  revert h
  cases m <;> cases n <;> decide

/-- **Identity**: addresses that the codec gives are the same if they have the same text and the
same network, and they are ordered by these. Those that have only the text in common are one payload
in Base58, for the test network and for the regression network. -/
theorem identified_by_ref (ha : Obtained d a) (hb : Obtained d b) :
    (a = b ↔ a.text = b.text ∧ a.network = b.network) ∧
    (compare a b = .lt ↔ a.ref.Precedes b.ref) ∧
    (a.text = b.text → a.network ≠ b.network →
      (a.network = .testnet ∧ b.network = .regtest ∨
        a.network = .regtest ∧ b.network = .testnet) ∧
      a.scriptType ≠ .p2wpkh ∧ a.scriptType = b.scriptType ∧ a.payload = b.payload) := by
  refine ⟨⟨?_, ?_⟩, ?_, ?_⟩
  · rintro rfl
    exact ⟨rfl, rfl⟩
  · rintro ⟨htext, hnetwork⟩
    apply ha.genuine.eq_of_ref_eq hb.genuine
    rw [ref, ref, htext, hnetwork]
  · rw [← ha.genuine.compare_ref hb.genuine, AddressRef.compare_eq_lt_iff]
  · intro htext hne
    obtain ⟨htype, hpayload, hnetwork⟩ := (ha.genuine.text_eq_iff hb.genuine).mp htext
    obtain ⟨hbase, hversion⟩ := hnetwork.resolve_left hne
    exact ⟨(eq_or_of_versionNetwork_eq hversion).resolve_left hne, hbase, htype, hpayload⟩

/-- One key, for the test network and for the regression network. -/
theorem identified_by_ref_of_twins :
    let a := ofKey .standard .testnet .p2pkh [2]
    let b := ofKey .standard .regtest .p2pkh [2]
    Obtained .standard a ∧ Obtained .standard b ∧ a.text = b.text ∧ a.network ≠ b.network ∧
      a ≠ b ∧ compare a b = .lt ∧ a.payload = b.payload := by
  intro a b
  have ha : Obtained .standard a := .ofKey .testnet .p2pkh [2]
  have hb : Obtained .standard b := .ofKey .regtest .p2pkh [2]
  have htext : a.text = b.text := rfl
  have hne : a.network ≠ b.network := by decide
  obtain ⟨hsame, horder, hshared⟩ := identified_by_ref ha hb
  obtain ⟨-, -, -, hpayload⟩ := hshared htext hne
  refine ⟨ha, hb, htext, hne, fun h => hne (hsame.mp h).2, ?_, hpayload⟩
  exact horder.mpr (Or.inr ⟨htext, by decide⟩)

end Address

end WatchWallet
