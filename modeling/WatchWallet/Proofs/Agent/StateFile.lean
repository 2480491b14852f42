import WatchWallet.Agent.StateFile
import WatchWallet.Proofs.Action
import WatchWallet.Proofs.Entries
import WatchWallet.Proofs.Json.Codec

/-!
What an agent keeps is read back as it was written down.

Every field is read under the name it was written under, lists keep their order, and a table is
filled again with its own entries, so that none of them is merged with another.
-/

namespace WatchWallet

open Json

lemma OutPoint.faithful : Faithful toJson ofJson where
  read_write o := by
    simp only [ofJson, toJson, field_object_cons, String.reduceEq, ↓reduceIte,
      faithful_bytes.read_write, faithful_uint32.read_write]
    rfl
  printable o := by
    refine .object (by simp) ?_
    simp [faithful_bytes.printable, faithful_uint32.printable]

lemma Utxo.faithful : Faithful toJson ofJson where
  read_write u := by
    simp only [ofJson, toJson, field_object_cons, String.reduceEq, ↓reduceIte,
      OutPoint.faithful.read_write, faithful_uint64.read_write, faithful_uint32.read_write]
    rfl
  printable u := by
    refine .object (by simp) ?_
    simp [OutPoint.faithful.printable, faithful_uint64.printable, faithful_uint32.printable]

lemma Layers.faithful : Faithful toJson ofJson where
  read_write l := by
    have hutxos := (faithful_listOf Utxo.faithful).read_write
    have hspent := (faithful_listOf OutPoint.faithful).read_write
    simp only [ofJson, toJson, field_object_cons, String.reduceEq, ↓reduceIte,
      hutxos, hspent, faithful_uint32.read_write]
    rfl
  printable l := by
    have hutxos := (faithful_listOf Utxo.faithful).printable
    have hspent := (faithful_listOf OutPoint.faithful).printable
    refine .object (by simp) ?_
    simp [hutxos, hspent, faithful_uint32.printable]

lemma ExtendedKey.faithful : Faithful toJson ofJson where
  read_write k := by
    have hpath := (faithful_listOf faithful_bytes).read_write
    simp only [ofJson, toJson, field_object_cons, String.reduceEq, ↓reduceIte,
      faithful_bytes.read_write, hpath]
    rfl
  printable k := by
    have hpath := (faithful_listOf faithful_bytes).printable
    refine .object (by simp) ?_
    simp [faithful_bytes.printable, hpath]

namespace AddressRef

lemma faithful : Faithful toJson ofJson where
  read_write r := by
    obtain ⟨text, network⟩ := r
    cases network <;> rfl
  printable r := by
    refine .array ?_
    simp [faithful_text.printable]

lemma faithful_entry {α : Type} {write : α → Json} {read : Reader α} (h : Faithful write read) :
    Faithful (fun e : AddressRef × α => .array [e.1.toJson, write e.2]) fun j => do
      let r ← item 0 ofJson j
      let a ← item 1 read j
      return (r, a) where
  read_write e := by
    obtain ⟨r, a⟩ := e
    have hr : item 0 ofJson (.array [r.toJson, write a]) = .ok r := faithful.read_write r
    have ha : item 1 read (.array [r.toJson, write a]) = .ok a := h.read_write a
    simp only [hr, ha]
    rfl
  printable e := by
    refine .array ?_
    simp [faithful.printable, h.printable]

/-- A table is the list of its entries. -/
lemma faithful_table {α : Type} {write : α → Json} {read : Reader α} (h : Faithful write read) :
    Faithful (Table.toJson write) (Table.ofJson read) where
  read_write m := by
    rw [Table.ofJson, Table.toJson, (faithful_listOf (faithful_entry h)).read_write]
    exact congrArg Except.ok (Entries.foldl_toList Entries.adds_insertIfNew m)
  printable m := (faithful_listOf (faithful_entry h)).printable m.toList

end AddressRef

lemma AgentRecord.faithful : Faithful toJson ofJson where
  read_write r := by
    have hkeys := (AddressRef.faithful_table ExtendedKey.faithful).read_write
    have hlayers := (AddressRef.faithful_table Layers.faithful).read_write
    simp only [ofJson, toJson, field_object_cons, String.reduceEq, ↓reduceIte,
      faithful_network.read_write, faithful_scriptType.read_write, hkeys, hlayers,
      faithful_uint32.read_write, ExtendedKey.faithful.read_write]
    rfl
  printable r := by
    have hkeys := (AddressRef.faithful_table ExtendedKey.faithful).printable
    have hlayers := (AddressRef.faithful_table Layers.faithful).printable
    refine .object (by simp) ?_
    simp [faithful_network.printable, faithful_scriptType.printable, hkeys, hlayers,
      faithful_uint32.printable, ExtendedKey.faithful.printable]

namespace StateFile

open WatchWallet.Action

/-- The text of a record is read as that record. -/
lemma read_text (r : AgentRecord) : read (text r) = .ok r := by
  obtain ⟨hread, hparse⟩ := AgentRecord.faithful.lossless r
  rw [read, text, hparse]
  exact hread

lemma run_save_of_not_writable {files : Files} {path : String} (h : files.writable path ≠ true)
    (r : AgentRecord) :
    run (save path r) files = ⟨.error (.stateFile .unwritable path), files, []⟩ := by
  simp [save, run_bind, h]

/-- An open file is left with what it took, and the error says whether that is all. -/
lemma run_save_of_writable {files : Files} {path : String} (h : files.writable path = true)
    (r : AgentRecord) : run (save path r) files =
      ⟨if files.takes path (text r) = text r then .ok ()
        else .error (.stateFile .unwritten path),
        { files with contents := files.contents.insert path (files.takes path (text r)) }, []⟩ := by
  by_cases htakes : files.takes path (text r) = text r <;> simp [save, run_bind, h, htakes]

/-- A file is loaded as the record that it was written for. -/
lemma run_load_of_written {files : Files} {path : String} {r : AgentRecord}
    (h : files.contents[path]? = some (text r)) :
    run (load path) files = ⟨.ok r, files, []⟩ := by
  simp [load, run_bind, h, read_text]

end StateFile

/-- **Nothing is lost**: outpoints, outputs, layers, keys and whole records of agents are read back
as they were, from the JSON value and from the text that write them; and a record that can be saved
is what is loaded from the file then. -/
theorem records_read_back :
    Lossless OutPoint.toJson OutPoint.ofJson ∧ Lossless Utxo.toJson Utxo.ofJson ∧
      Lossless Layers.toJson Layers.ofJson ∧ Lossless ExtendedKey.toJson ExtendedKey.ofJson ∧
      Lossless AgentRecord.toJson AgentRecord.ofJson ∧
      ∀ (files : Files) (path : String) (r : AgentRecord),
        (Action.run (do StateFile.save path r; StateFile.load path) files).result =
          if files.writable path then
            if files.takes path (StateFile.text r) = StateFile.text r then .ok r
            else .error (.stateFile .unwritten path)
          else .error (.stateFile .unwritable path) := by
  refine ⟨OutPoint.faithful.lossless, Utxo.faithful.lossless, Layers.faithful.lossless,
    ExtendedKey.faithful.lossless, AgentRecord.faithful.lossless, fun files path r => ?_⟩
  rw [Action.run_bind]
  split_ifs with h htakes
  · rw [StateFile.run_save_of_writable h, if_pos htakes, htakes]
    simp only
    rw [StateFile.run_load_of_written (r := r) (by simp)]
  · rw [StateFile.run_save_of_writable h, if_neg htakes]
  · rw [StateFile.run_save_of_not_writable h]

end WatchWallet
