import Mathlib.Algebra.BigOperators.Group.Finset.Basic
import Mathlib.Data.UInt
import Mathlib.Tactic.Abel
import WatchWallet.Proofs.Utxo.Reports
import WatchWallet.Proofs.Utxo.View

/-!
Balances of lists of outputs and of the updates between them.

Where a list names no outpoint twice and an output has the same value wherever it is recorded, the
balance is a sum over a set of outpoints, in the ring of the integers modulo `2 ^ 64`. There the
balance of what is added, less that of what is removed, is the difference of the two balances.
-/

namespace WatchWallet

/-- What some balance updates add, less what they remove. -/
def net (reports : List BalanceUpdate) : UInt64 :=
  (reports.map BalanceUpdate.added).sum - (reports.map BalanceUpdate.removed).sum

@[simp] lemma net_nil : net [] = 0 := rfl

/-- No outpoint stands twice, and each has its value. -/
structure Priced (value : OutPoint → UInt64) (us : List Utxo) : Prop where
  nodup : (us.map Utxo.outPoint).Nodup
  value_eq : ∀ u ∈ us, u.value = value u.outPoint

variable {value : OutPoint → UInt64}

lemma priced_nil : Priced value [] := ⟨List.nodup_nil, by simp⟩

lemma Priced.filter {us : List Utxo} (h : Priced value us) (p : Utxo → Bool) :
    Priced value (us.filter p) :=
  ⟨h.nodup.sublist (List.filter_sublist.map _), fun u hu => h.value_eq u (List.mem_filter.mp hu).1⟩

/-- A view of depth zero names no outpoint twice; so it is priced as what it is made from. -/
theorem priced_view {l : Layers} (hdepth : l.depth = 0) {raw : List Utxo}
    (hvalue : ∀ u ∈ raw ++ l.generated, u.value = value u.outPoint) :
    Priced value (l.view raw) := by
  have hshows := Layers.shows_view hdepth raw
  exact ⟨hshows.nodup, fun u hu => hvalue u (hshows.highest u hu).1⟩

section Sums

open scoped UInt64.CommRing

lemma Utxo.balance_append_singleton (us : List Utxo) (u : Utxo) :
    balance (us ++ [u]) = balance us + u.value := by
  rw [balance, List.foldl_append, List.foldl_cons, List.foldl_nil, balance]

lemma Utxo.balance_eq_sum (us : List Utxo) : balance us = (us.map Utxo.value).sum := by
  induction us using List.reverseRecOn with
  | nil => rfl
  | append_singleton us u ih => rw [balance_append_singleton, ih]; simp

/-- The balance is the sum of the values of the outpoints. -/
lemma Priced.balance_eq {us : List Utxo} (h : Priced value us) :
    Utxo.balance us = ∑ o ∈ outPoints us, value o := by
  rw [Utxo.balance_eq_sum, outPoints, List.sum_toFinset value h.nodup, List.map_map,
    List.map_congr_left h.value_eq]
  rfl

namespace Update

lemma gained_between (seen unseen : List Utxo) :
    (between seen unseen).gained = outPoints unseen \ outPoints seen := by
  ext o
  rw [mem_gained_between, Finset.mem_sdiff]

lemma lost_between (seen unseen : List Utxo) :
    (between seen unseen).lost = outPoints seen \ outPoints unseen := by
  ext o
  rw [mem_lost_between, Finset.mem_sdiff]

/-- An update brings the balance of one list to that of the other. -/
theorem balance_between {seen unseen : List Utxo} (hseen : Priced value seen)
    (hunseen : Priced value unseen) :
    Utxo.balance seen + (between seen unseen).balance.added -
      (between seen unseen).balance.removed = Utxo.balance unseen := by
  have hadded : (between seen unseen).balance.added =
      ∑ o ∈ outPoints unseen \ outPoints seen, value o := by
    rw [← gained_between]
    exact (hunseen.filter _).balance_eq
  have hremoved : (between seen unseen).balance.removed =
      ∑ o ∈ outPoints seen \ outPoints unseen, value o := by
    rw [← lost_between]
    exact (hseen.filter _).balance_eq
  rw [hadded, hremoved, hseen.balance_eq, hunseen.balance_eq, add_sub_assoc,
    Finset.sum_sdiff_sub_sum_sdiff, add_sub_cancel]

end Update

lemma net_append_singleton (reports : List BalanceUpdate) (p : BalanceUpdate) :
    net (reports ++ [p]) = net reports + p.added - p.removed := by
  simp only [net, List.map_append, List.sum_append, List.map_cons, List.map_nil, List.sum_singleton]
  abel

end Sums

end WatchWallet
