import WatchWallet.Json.Reader
import WatchWallet.Proofs.Json.Text

/-!
Codecs that lose nothing.

What is written is read back, as a value and from its text. The codecs of lists and of records of
fields lose nothing if those of their parts do not.
-/

namespace WatchWallet.Json

/-- What is written is read back, as a value and from the text of it in any layout. -/
def Lossless {α : Type} (write : α → Json) (read : Reader α) : Prop :=
  ∀ a, read (write a) = .ok a ∧ ∀ indent, parse ((write a).render indent) = some (write a)

/-- What is written is read back as a value, and its text is that of a value which can be. -/
structure Faithful {α : Type} (write : α → Json) (read : Reader α) : Prop where
  read_write : ∀ a, read (write a) = .ok a
  printable : ∀ a, Printable (write a)

lemma Faithful.lossless {α : Type} {write : α → Json} {read : Reader α}
    (h : Faithful write read) : Lossless write read :=
  fun a => ⟨h.read_write a, fun indent => parse_render indent (h.printable a)⟩

lemma printable_ofNat {n : Nat} (h : n < 2 ^ 64) : Printable (ofNat n) := by
  refine .integer ((Decimal.isFinite_ofNat _ _ 0).mpr ?_)
  have hbound : 2 ^ 64 * Nat.pow 10 0 < Decimal.overflow := by decide +kernel
  exact (Nat.mul_le_mul_right _ h.le).trans_lt hbound

lemma faithful_uint32 : Faithful ofUInt32 uint32 where
  read_write n := by
    rw [uint32, ofUInt32, natBelow?_ofNat n.toNat_lt_size]
    exact congrArg Except.ok n.ofNat_toNat
  printable n := printable_ofNat (n.toNat_lt.trans (by decide))

lemma faithful_uint64 : Faithful ofUInt64 uint64 where
  read_write n := by
    rw [uint64, ofUInt64, natBelow?_ofNat n.toNat_lt_size]
    exact congrArg Except.ok n.ofNat_toNat
  printable n := printable_ofNat n.toNat_lt

lemma faithful_text : Faithful .string text where
  read_write _ := rfl
  printable := .string

lemma faithful_bytes : Faithful ofBytes bytes where
  read_write bs := by
    simp only [bytes, ofBytes, faithful_text.read_write, bind, Except.bind, Hex.decode_encode]
  printable bs := .string (Hex.encode bs)

lemma faithful_network : Faithful (fun n => .string n.name) network where
  read_write n := by cases n <;> rfl
  printable n := .string n.name

lemma faithful_scriptType : Faithful (fun t => .string t.name) scriptType where
  read_write t := by cases t <;> rfl
  printable t := .string t.name

lemma faithful_listOf {α : Type} {write : α → Json} {read : Reader α} (h : Faithful write read) :
    Faithful (ofList write) (listOf read) where
  read_write as := by
    change (as.map write).mapM read = .ok as
    induction as with
    | nil => rfl
    | cons a as ih =>
      rw [List.map_cons, List.mapM_cons, h.read_write, ih]
      rfl
  printable as := by
    refine .array fun v hv => ?_
    obtain ⟨a, -, rfl⟩ := List.mem_map.mp hv
    exact h.printable a

/-- A field is found behind fields of other names. -/
lemma field_object_cons {α : Type} (key k : String) (read : Reader α) (v : Json)
    (ms : List (String × Json)) :
    field key read (.object ((k, v) :: ms)) =
      if key = k then read v else field key read (.object ms) := by
  simp only [field, member?, List.lookup_cons]
  split_ifs with h
  · rw [beq_iff_eq.mpr h]
    rfl
  · rw [beq_eq_false_iff_ne.mpr h]

end WatchWallet.Json
