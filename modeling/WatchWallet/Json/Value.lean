/-!
JSON values.

A number without point and exponent is an integer; any other number is kept as the decimal
it was written as, so that nothing is rounded before a reader asks for it. The members of an object
have their order, and different names where the object comes from a text.
-/

namespace WatchWallet

/-- The decimal `± digits · 10 ^ exponent`. -/
structure Decimal where
  negative : Bool
  digits : Nat
  exponent : Int
deriving DecidableEq, Repr

namespace Decimal

/-- The least magnitude that rounds to no finite double: `2 ^ 1024 - 2 ^ 970`, halfway between
the greatest of them and `2 ^ 1024`. -/
def overflow : Nat := (Nat.pow 2 54 - 1) * Nat.pow (Nat.pow 2 97) 10

/-- Whether the number rounds to a finite double. The digits are compared with the limit only
where the exponent leaves a doubt, so that no power is larger than the digits call for. -/
def isFinite (d : Decimal) : Bool :=
  match d.exponent with
  | .ofNat e => d.digits = 0 || (e ≤ 308 && d.digits * Nat.pow 10 e < overflow)
  | .negSucc e => d.digits.log2 ≤ e || d.digits < overflow * Nat.pow 10 (e + 1)

theorem overflow_pos : 0 < overflow := by decide +kernel

theorem cube_pow_le {m e : Nat} (h : m * 3 ≤ e) : Nat.pow (Nat.pow 10 m) 3 ≤ Nat.pow 10 e := by
  have e₁ : Nat.pow 10 (m * 3) = Nat.pow (Nat.pow 10 m) 3 := Nat.pow_mul ..
  rw [← e₁]
  exact Nat.pow_le_pow_right (by decide) h

theorem overflow_le {e : Nat} (h : 308 < e) : overflow ≤ Nat.pow 10 e := by
  have h₁ : overflow ≤ Nat.pow (Nat.pow 10 103) 3 := by decide +kernel
  exact Nat.le_trans h₁ (cube_pow_le (by omega))

/-- A whole number is finite exactly below the limit. -/
theorem isFinite_ofNat (negative : Bool) (digits e : Nat) :
    isFinite ⟨negative, digits, .ofNat e⟩ = true ↔ digits * Nat.pow 10 e < overflow := by
  have large (hd : digits ≠ 0) (he : 308 < e) : ¬ digits * Nat.pow 10 e < overflow := by
    have h : Nat.pow 10 e ≤ digits * Nat.pow 10 e :=
      Nat.le_mul_of_pos_left _ (Nat.pos_of_ne_zero hd)
    exact Nat.not_lt.mpr (Nat.le_trans (overflow_le he) h)
  by_cases hd : digits = 0
  · simp [isFinite, hd, overflow_pos]
  · by_cases he : e ≤ 308
    · simp [isFinite, hd, he]
    · simpa [isFinite, hd, he] using Nat.not_lt.mp (large hd (by omega))

end Decimal

inductive Json where
  | null
  | bool (b : Bool)
  | integer (n : Int)
  | decimal (d : Decimal)
  | string (s : String)
  | array (items : List Json)
  | object (members : List (String × Json))
deriving Repr, Inhabited

namespace Json

/-- The first member of a name. -/
def member? (key : String) : Json → Option Json
  | .object members => members.lookup key
  | _ => none

def items? : Json → Option (List Json)
  | .array items => some items
  | _ => none

def string? : Json → Option String
  | .string s => some s
  | _ => none

def bool? : Json → Option Bool
  | .bool b => some b
  | _ => none

/-- An integer from zero up to, but not including, `bound`. -/
def natBelow? (bound : Nat) : Json → Option Nat
  | .integer (.ofNat n) => if n < bound then some n else none
  | _ => none

def decimal? : Json → Option Decimal
  | .integer n => some ⟨n < 0, n.natAbs, 0⟩
  | .decimal d => some d
  | _ => none

def ofNat (n : Nat) : Json := .integer (.ofNat n)

@[simp] theorem natBelow?_ofNat {bound n : Nat} (h : n < bound) :
    natBelow? bound (ofNat n) = some n := by simp [natBelow?, ofNat, h]

end Json

end WatchWallet
