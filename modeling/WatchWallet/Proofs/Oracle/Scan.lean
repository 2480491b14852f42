import WatchWallet.Oracle.Node
import WatchWallet.Proofs.Hex
import WatchWallet.Proofs.Json.Reader
import WatchWallet.Proofs.Oracle.Amount

/-!
A reply to a scan is taken whole or not at all.

A reply is read just if all of it can be: one entry that is malformed, wherever it stands, refuses
the reply, and so does a scan that did not complete. Every refusal is one of the oracle.
-/

namespace WatchWallet

/-- No number has to be coerced where an unsigned one of 32 bits is read: a value stands for
itself, or is no number at all. -/
def Json.Uncoerced : Json → Prop
  | .bool _ | .decimal _ => False
  | .integer n => 0 ≤ n ∧ n < UInt32.size
  | _ => True

def Json.IsNumber : Json → Prop
  | .integer _ | .decimal _ => True
  | _ => False

/-- The double that a number is taken as. -/
inductive Json.TakenAs : Json → Float → Prop
  | integer (n : ℕ) : TakenAs (.integer (.ofNat n)) (.ofScientific n false 0)
  | negInteger (n : ℕ) : TakenAs (.integer (.negSucc n)) (-.ofScientific (n + 1) false 0)
  | decimal (digits : ℕ) (exponent : ℤ) :
      TakenAs (.decimal ⟨false, digits, exponent⟩)
        (.ofScientific digits (exponent < 0) exponent.natAbs)
  | negDecimal (digits : ℕ) (exponent : ℤ) :
      TakenAs (.decimal ⟨true, digits, exponent⟩)
        (-.ofScientific digits (exponent < 0) exponent.natAbs)

lemma Json.decimal?_negSucc (n : ℕ) :
    decimal? (.integer (.negSucc n)) = some ⟨true, n + 1, 0⟩ := by
  rw [decimal?, decide_eq_true (Int.negSucc_lt_zero n)]
  rfl

lemma Json.takenAs_iff {v : Json} {x : Float} :
    v.TakenAs x ↔ ∃ coins, v.decimal? = some coins ∧ Amount.double coins = x := by
  constructor
  · rintro (n | n | ⟨digits, exponent⟩ | ⟨digits, exponent⟩)
    · exact ⟨_, rfl, rfl⟩
    · exact ⟨_, decimal?_negSucc n, rfl⟩
    · exact ⟨_, rfl, rfl⟩
    · exact ⟨_, rfl, rfl⟩
  · rintro ⟨coins, hcoins, rfl⟩
    cases v with
    | integer n =>
      cases n with
      | ofNat n =>
        obtain rfl := Option.some.inj hcoins
        exact .integer n
      | negSucc n =>
        rw [decimal?_negSucc] at hcoins
        obtain rfl := Option.some.inj hcoins
        exact .negInteger n
    | decimal d =>
      obtain rfl := Option.some.inj hcoins
      obtain ⟨negative, digits, exponent⟩ := d
      cases negative with
      | false => exact .decimal digits exponent
      | true => exact .negDecimal digits exponent
    | _ => cases hcoins

lemma Json.exists_takenAs_iff {v : Json} : (∃ x, v.TakenAs x) ↔ v.IsNumber := by
  simp only [takenAs_iff]
  cases v <;> simp [decimal?, IsNumber]

/-- An unsigned number that needs no coercion has 32 bits. -/
lemma Json.exists_ofUInt32_iff {v : Json} (h : v.Uncoerced) :
    (∃ n, v = ofUInt32 n) ↔ ∃ n, v = ofNat n := by
  refine ⟨fun ⟨n, hn⟩ => ⟨n.toNat, hn⟩, ?_⟩
  rintro ⟨n, rfl⟩
  have hlt : n < UInt32.size := Int.ofNat_lt.mp h.2
  exact ⟨UInt32.ofNat n, by rw [ofUInt32, UInt32.toNat_ofNat', Nat.mod_eq_of_lt hlt]⟩

namespace Node

open Json

/-! ### One entry -/

/-- What an entry says of an output. The value is what is kept of the amount times `10 ^ 8`, which
are multiplied as doubles. -/
structure Tells (e : Json) (u : Utxo) : Prop where
  txid : ∃ t, e.member? "txid" = some (.string t) ∧ Hex.decode t = .ok u.outPoint.txid
  vout : e.member? "vout" = some (ofUInt32 u.outPoint.vout)
  amount : ∃ v x, e.member? "amount" = some v ∧ v.TakenAs x ∧
    Amount.Keeps (x * 100000000.0) u.value
  height : e.member? "height" = some (ofUInt32 u.height)

/-- What an entry has to have. -/
structure CompleteEntry (e : Json) : Prop where
  txid : ∃ t, e.member? "txid" = some (.string t) ∧
    t.length % 2 = 0 ∧ ∀ c ∈ t.toList, Hex.IsDigit c
  vout : ∃ n, e.member? "vout" = some (ofNat n)
  amount : ∃ v, e.member? "amount" = some v ∧ v.IsNumber
  height : ∃ n, e.member? "height" = some (ofNat n)

/-- Nothing in an entry has to be coerced. -/
structure UncoercedEntry (e : Json) : Prop where
  vout : ∀ v, e.member? "vout" = some v → v.Uncoerced
  amount : ∀ b, e.member? "amount" ≠ some (.bool b)
  height : ∀ v, e.member? "height" = some v → v.Uncoerced

variable {e j : Json}

lemma readUnspent_eq_ok_iff {u : Utxo} : readUnspent e = .ok u ↔ Tells e u := by
  simp only [readUnspent, bind_eq_ok_iff, field_eq_ok_iff, bytes_eq_ok_iff, uint32_eq_ok_iff,
    orShape_eq_ok_iff]
  constructor
  · rintro ⟨txid, ⟨_, hv, t, rfl, ht⟩, vout, ⟨_, hvout, rfl⟩, coins, ⟨v, hamount, hcoins⟩, height,
      ⟨_, hheight, rfl⟩, hu⟩
    obtain rfl := Except.ok.inj hu
    have hdouble : v.TakenAs (Amount.double coins) := takenAs_iff.mpr ⟨coins, hcoins, rfl⟩
    exact ⟨⟨t, hv, ht⟩, hvout, ⟨v, _, hamount, hdouble, Amount.keeps_iff.mpr rfl⟩, hheight⟩
  · rintro ⟨⟨t, hv, ht⟩, hvout, ⟨v, x, hamount, hx, hvalue⟩, hheight⟩
    obtain ⟨coins, hcoins, rfl⟩ := takenAs_iff.mp hx
    have hvalue : u.value = Amount.satoshis coins := Amount.keeps_iff.mp hvalue
    refine ⟨_, ⟨_, hv, t, rfl, ht⟩, _, ⟨_, hvout, rfl⟩, coins, ⟨v, hamount, hcoins⟩, _,
      ⟨_, hheight, rfl⟩, ?_⟩
    rw [← hvalue]
    rfl

lemma exists_tells_iff (h : UncoercedEntry e) : (∃ u, Tells e u) ↔ CompleteEntry e := by
  constructor
  · rintro ⟨u, ⟨t, htxid, ht⟩, hvout, ⟨v, x, hamount, hx, -⟩, hheight⟩
    exact ⟨⟨t, htxid, (Hex.exists_decode_iff t).mp ⟨_, ht⟩⟩, ⟨_, hvout⟩,
      ⟨v, hamount, exists_takenAs_iff.mp ⟨x, hx⟩⟩, ⟨_, hheight⟩⟩
  · rintro ⟨⟨t, htxid, ht⟩, ⟨n, hvout⟩, ⟨v, hamount, hv⟩, ⟨m, hheight⟩⟩
    obtain ⟨txid, htxid'⟩ := (Hex.exists_decode_iff t).mpr ht
    obtain ⟨vout, hn⟩ := (exists_ofUInt32_iff (h.vout _ hvout)).mpr ⟨n, rfl⟩
    obtain ⟨x, hx⟩ := exists_takenAs_iff.mpr hv
    obtain ⟨height, hm⟩ := (exists_ofUInt32_iff (h.height _ hheight)).mpr ⟨m, rfl⟩
    exact ⟨⟨⟨txid, vout⟩, _, height⟩, ⟨t, htxid, htxid'⟩, hn ▸ hvout,
      ⟨v, x, hamount, hx, Amount.keeps_iff.mpr rfl⟩, hm ▸ hheight⟩

/-! ### A whole reply -/

/-- What a reply says: of a scan that completed, the tip, and one output for each entry. -/
structure Reports (j : Json) (s : Snapshot) : Prop where
  success : j.member? "success" = some (.bool true)
  height : j.member? "height" = some (ofUInt32 s.tip)
  unspents : ∃ entries, j.member? "unspents" = some (.array entries) ∧
    List.Forall₂ Tells entries s.utxos

/-- What a reply has to have. -/
structure Complete (j : Json) : Prop where
  success : j.member? "success" = some (.bool true)
  height : ∃ n, j.member? "height" = some (ofNat n)
  unspents : ∃ entries, j.member? "unspents" = some (.array entries) ∧
    ∀ e ∈ entries, CompleteEntry e

/-- Nothing in a reply has to be coerced, and what stands for the entries is a list. -/
structure UncoercedReply (j : Json) : Prop where
  height : ∀ v, j.member? "height" = some v → v.Uncoerced
  unspents : ∀ v, j.member? "unspents" = some v →
    ∃ entries, v = .array entries ∧ ∀ e ∈ entries, UncoercedEntry e

lemma field?_eq_ok_some_iff {α : Type} {key : String} {read : Reader α} {a : α} :
    field? key read j = .ok (some a) ↔ ∃ v, j.member? key = some v ∧ read v = .ok a := by
  rw [field?]
  cases j.member? key with
  | none => simp
  | some v => cases h : read v <;> simp [h]

lemma readScan_eq_ok_some_iff {s : Snapshot} : readScan j = .ok (some s) ↔ Reports j s := by
  cases j with
  | object members =>
    simp only [readScan, bind_eq_ok_iff]
    constructor
    · rintro ⟨success, hsuccess, h⟩
      split_ifs at h with htrue
      · subst htrue
        obtain ⟨_, hv, htrue⟩ := field?_eq_ok_some_iff.mp hsuccess
        obtain rfl := boolean_eq_ok_iff.mp htrue
        simp only [bind_eq_ok_iff, field_eq_ok_iff, uint32_eq_ok_iff, listOf_eq_ok_iff,
          readUnspent_eq_ok_iff] at h
        obtain ⟨tip, ⟨_, hheight, rfl⟩, us, ⟨_, hunspents, entries, rfl, hus⟩, hs⟩ := h
        obtain rfl := Option.some.inj (Except.ok.inj hs)
        exact ⟨hv, hheight, entries, hunspents, hus⟩
      · cases h
    · rintro ⟨hsuccess, hheight, entries, hunspents, hus⟩
      refine ⟨some true, field?_eq_ok_some_iff.mpr ⟨_, hsuccess, rfl⟩, ?_⟩
      simp only [if_true, bind_eq_ok_iff, field_eq_ok_iff, uint32_eq_ok_iff, listOf_eq_ok_iff,
        readUnspent_eq_ok_iff]
      exact ⟨s.tip, ⟨_, hheight, rfl⟩, s.utxos, ⟨_, hunspents, entries, rfl, hus⟩, rfl⟩
  | _ =>
    refine iff_of_false (by simp [readScan, throw, throwThe, MonadExceptOf.throw]) fun h => ?_
    cases h.success

lemma parseScan_eq_ok_iff {s : Snapshot} : parseScan j = .ok s ↔ Reports j s := by
  rw [← readScan_eq_ok_some_iff, parseScan]
  split <;> simp_all

lemma exists_reports_iff (h : UncoercedReply j) : (∃ s, Reports j s) ↔ Complete j := by
  constructor
  · rintro ⟨s, hsuccess, hheight, entries, hunspents, hus⟩
    refine ⟨hsuccess, ⟨_, hheight⟩, entries, hunspents, fun e he => ?_⟩
    obtain ⟨_, heq, hentries⟩ := h.unspents _ hunspents
    obtain rfl := Json.array.inj heq
    exact (exists_tells_iff (hentries e he)).mp (exists_forall₂_iff.mp ⟨_, hus⟩ e he)
  · rintro ⟨hsuccess, ⟨n, hheight⟩, entries, hunspents, hall⟩
    obtain ⟨tip, hn⟩ := (exists_ofUInt32_iff (h.height _ hheight)).mpr ⟨n, rfl⟩
    obtain ⟨_, heq, hentries⟩ := h.unspents _ hunspents
    obtain rfl := Json.array.inj heq
    obtain ⟨us, hus⟩ := exists_forall₂_iff.mpr fun e he =>
      (exists_tells_iff (hentries e he)).mpr (hall e he)
    exact ⟨⟨us, tip⟩, hsuccess, hn ▸ hheight, entries, hunspents, hus⟩

/-- Every refusal is one of the node. -/
lemma exists_node_of_parseScan_error {err : Error} (h : parseScan j = .error err) :
    ∃ fault, err = .node fault := by
  unfold parseScan at h
  split at h
  · cases h
  all_goals exact ⟨_, (Except.error.inj h).symm⟩

/-- **All or nothing**: a reply is read just if it is complete, and then as what it says, with
one output for each entry and in their order. Any other reply is refused by the oracle. -/
theorem scan_all_or_nothing (h : UncoercedReply j) :
    ((∃ s, parseScan j = .ok s) ↔ Complete j) ∧
    (∀ s, parseScan j = .ok s ↔ Reports j s) ∧
    ∀ e, parseScan j = .error e → e.kind = .oracleReject := by
  refine ⟨?_, fun s => parseScan_eq_ok_iff, fun e he => ?_⟩
  · simp only [parseScan_eq_ok_iff]
    exact exists_reports_iff h
  · obtain ⟨fault, rfl⟩ := exists_node_of_parseScan_error he
    rfl

/-- Two entries, of which the second has a digit too few, or has not. -/
theorem scan_all_or_nothing_of_odd_text :
    let entry (txid : String) : Json := .object [("txid", .string txid), ("vout", .integer 1),
      ("amount", .decimal ⟨false, 25, -4⟩), ("height", .integer 118)]
    let reply (txid : String) : Json := .object [("success", .bool true),
      ("height", .integer 120), ("unspents", .array [entry "aa", entry txid])]
    (∀ txid, UncoercedReply (reply txid)) ∧ (∃ s, parseScan (reply "Bb") = .ok s) ∧
      ¬∃ s, parseScan (reply "b") = .ok s := by
  intro entry reply
  have hentry (txid : String) : UncoercedEntry (entry txid) := by
    constructor <;> simp [entry, member?, List.lookup_cons, Uncoerced]
  have hreply (txid : String) : UncoercedReply (reply txid) := by
    constructor
    · simp [reply, member?, List.lookup_cons, Uncoerced]
    · simp [reply, member?, List.lookup_cons, hentry]
  have hcomplete {txid : String}
      (h : txid.length % 2 = 0 ∧ ∀ c ∈ txid.toList, Hex.IsDigit c) : CompleteEntry (entry txid) :=
    ⟨⟨txid, rfl, h⟩, ⟨1, rfl⟩, ⟨_, rfl, trivial⟩, ⟨118, rfl⟩⟩
  refine ⟨hreply, (scan_all_or_nothing (hreply "Bb")).1.mpr ?_, fun hread => ?_⟩
  · refine ⟨rfl, ⟨120, rfl⟩, _, rfl, ?_⟩
    rw [List.forall_mem_cons, List.forall_mem_singleton]
    exact ⟨hcomplete ⟨rfl, by simp [Hex.IsDigit]⟩, hcomplete ⟨rfl, by simp [Hex.IsDigit]⟩⟩
  · obtain ⟨-, -, entries, hunspents, hentries⟩ := (scan_all_or_nothing (hreply "b")).1.mp hread
    obtain rfl : [entry "aa", entry "b"] = entries :=
      Json.array.inj (Option.some.inj hunspents)
    obtain ⟨t, ht, heven, -⟩ := (hentries (entry "b") (by simp)).txid
    obtain rfl : "b" = t := Json.string.inj (Option.some.inj ht)
    exact absurd heven (by decide)

end Node

end WatchWallet
