import Mathlib.Tactic.Lemma
import Mathlib.Data.List.GetD
import Mathlib.Data.List.Nodup
import WatchWallet.Text.Base58
import WatchWallet.Text.Bech32

/-!
Symbols and their values, in the two alphabets, and texts read symbol by symbol.
-/

namespace WatchWallet

namespace Alphabet

variable {α β : Type}

lemma idxOf?_getD {as : List Char} (hn : as.Nodup) {i : Nat} (hi : i < as.length) (x : Char) :
    as.idxOf? (as.getD i x) = some i := by
  rw [List.getD_eq_getElem _ _ hi, List.idxOf?_eq_some_iff]
  refine ⟨hi, rfl, fun j hj he => ?_⟩
  have := (List.Nodup.getElem_inj_iff hn).mp he
  omega

lemma getD_of_idxOf? {as : List Char} {c : Char} {i : Nat} (h : as.idxOf? c = some i) (x : Char) :
    i < as.length ∧ as.getD i x = c := by
  obtain ⟨hi, hc, -⟩ := List.idxOf?_eq_some_iff.mp h
  exact ⟨hi, by rw [List.getD_eq_getElem _ _ hi, hc]⟩

/-- What holds of every symbol of an alphabet holds of the symbol in any place of it. -/
lemma getD_of_forall {P : Char → Prop} {as : List Char} (h : ∀ c ∈ as, P c) {i : Nat}
    (hi : i < as.length) (x : Char) : P (as.getD i x) := by
  rw [List.getD_eq_getElem _ _ hi]
  exact h _ (List.getElem_mem hi)

/-- Reading a text symbol by symbol gives what was written, if each symbol does. -/
lemma mapM_map {write : β → α} {read : α → Option β} {bs : List β}
    (h : ∀ b ∈ bs, read (write b) = some b) : (bs.map write).mapM read = some bs := by
  induction bs with
  | nil => rfl
  | cons b bs ih =>
    rw [List.map_cons, List.mapM_cons, h b (by simp), ih fun c hc => h c (by simp [hc])]
    rfl

lemma mapM_cons_eq_some {read : α → Option β} {a : α} {as : List α} {bs : List β} :
    (a :: as).mapM read = some bs ↔
      ∃ b bs', read a = some b ∧ as.mapM read = some bs' ∧ bs = b :: bs' := by
  simp only [List.mapM_cons, Option.bind_eq_bind, Option.bind_eq_some_iff, Option.pure_def,
    Option.some.injEq]
  grind

/-- A text that can be read is the text of the values it gives. -/
lemma map_of_mapM {write : β → α} {read : α → Option β} {P : β → Prop}
    (h : ∀ a b, read a = some b → P b ∧ write b = a) {as : List α} {bs : List β}
    (hm : as.mapM read = some bs) : (∀ b ∈ bs, P b) ∧ bs.map write = as := by
  induction as generalizing bs with
  | nil =>
    obtain rfl : bs = [] := by simpa using hm.symm
    simp
  | cons a as ih =>
    obtain ⟨b, bs', hb, hbs, rfl⟩ := mapM_cons_eq_some.mp hm
    obtain ⟨hP, hw⟩ := h a b hb
    obtain ⟨hP', hw'⟩ := ih hbs
    exact ⟨by simpa using ⟨hP, hP'⟩, by rw [List.map_cons, hw, hw']⟩

end Alphabet

namespace Base58

lemma length_alphabet : alphabet.length = 58 := by decide

lemma symbolValue?_symbol {d : Nat} (h : d < 58) : symbolValue? (symbol d) = some d :=
  Alphabet.idxOf?_getD (by decide) (by rw [length_alphabet]; exact h) '1'

lemma symbol_of_symbolValue? {c : Char} {d : Nat} (h : symbolValue? c = some d) :
    d < 58 ∧ symbol d = c :=
  Alphabet.getD_of_idxOf? h '1'

lemma symbol_eq_one_iff {d : Nat} (h : d < 58) : symbol d = '1' ↔ d = 0 := by
  refine ⟨fun hs => ?_, fun hd => by subst hd; rfl⟩
  have h0 : symbolValue? '1' = some 0 := by decide
  have hd := symbolValue?_symbol h
  rw [hs, h0] at hd
  exact (Option.some.inj hd).symm

end Base58

namespace Bech32

lemma length_alphabet : alphabet.length = 32 := by decide

lemma symbolValue?_symbol {v : UInt8} (h : v < 32) : symbolValue? (symbol v) = some v := by
  have hv : v.toNat < alphabet.length := by rw [length_alphabet]; exact h
  rw [symbolValue?, symbol, Alphabet.idxOf?_getD (by decide) hv]
  simp

lemma symbol_of_symbolValue? {c : Char} {v : UInt8} (h : symbolValue? c = some v) :
    v < 32 ∧ symbol v = c := by
  obtain ⟨i, hi, rfl⟩ := Option.map_eq_some_iff.mp h
  obtain ⟨hlt, hc⟩ := Alphabet.getD_of_idxOf? hi 'q'
  rw [length_alphabet] at hlt
  have hn : (UInt8.ofNat i).toNat = i := by
    rw [UInt8.toNat_ofNat']; exact Nat.mod_eq_of_lt (by omega)
  exact ⟨by rw [UInt8.lt_iff_toNat_lt, hn]; exact hlt, by rw [symbol, hn, hc]⟩

end Bech32

end WatchWallet
