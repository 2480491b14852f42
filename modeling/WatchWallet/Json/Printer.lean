import WatchWallet.Hex
import WatchWallet.Json.Value
/-!
JSON text of a value.

The text stands on one line without blanks, or has a line for each item and each member, indented
by a number of blanks for each bracket around it. In a string the quote, the backslash and the
characters below the space are escaped, by a letter where there is one, and nothing else is.
Members are written in the order that they are given in. A decimal is written with its own digits
and exponent, so that none of them is lost.
-/

namespace WatchWallet.Json

def natChars (n : Nat) : List Char :=
  if n = 0 then ['0'] else (Radix.digits 10 n).reverse.map Hex.digit

def intChars (n : Int) : List Char :=
  if n < 0 then '-' :: natChars n.natAbs else natChars n.natAbs

def decimalChars (d : Decimal) : List Char :=
  (if d.negative then ['-'] else []) ++ natChars d.digits ++ 'e' :: intChars d.exponent

/-- What escapes a character behind a backslash, where it is a single one. -/
def escapeLetter? : Char → Option Char
  | '\x22' => some '\x22'
  | '\\' => some '\\'
  | '\x08' => some 'b'
  | '\x0c' => some 'f'
  | '\n' => some 'n'
  | '\r' => some 'r'
  | '\t' => some 't'
  | _ => none

def escape (c : Char) : List Char :=
  match escapeLetter? c with
  | some letter => ['\\', letter]
  | none =>
    if c.toNat < 32 then '\\' :: 'u' :: '0' :: '0' :: Hex.encodeByte (UInt8.ofNat c.toNat)
    else [c]

def quote (s : List Char) : List Char := '\x22' :: s.flatMap escape ++ ['\x22']

/-! Layout: the number of blanks for each bracket, or none for a text on one line. -/

/-- What stands before an item, a member or a closing bracket, inside `depth` brackets. -/
def lead (indent : Option Nat) (depth : Nat) : List Char :=
  match indent with
  | some n => '\n' :: List.replicate (n * depth) ' '
  | none => []

/-- What stands before the value of a member. -/
def gap : Option Nat → List Char
  | some _ => [' ']
  | none => []

mutual

def chars (indent : Option Nat) (depth : Nat) : Json → List Char
  | .null => ['n', 'u', 'l', 'l']
  | .bool true => ['t', 'r', 'u', 'e']
  | .bool false => ['f', 'a', 'l', 's', 'e']
  | .integer n => intChars n
  | .decimal d => decimalChars d
  | .string s => quote s.toList
  | .array [] => ['[', ']']
  | .array (v :: vs) =>
    '[' :: lead indent (depth + 1) ++ chars indent (depth + 1) v ++ itemChars indent depth vs
  | .object [] => ['\x7b', '\x7d']
  | .object ((k, v) :: ms) =>
    '\x7b' :: lead indent (depth + 1) ++ quote k.toList ++ ':' :: gap indent ++
      chars indent (depth + 1) v ++ memberChars indent depth ms

/-- What follows an item of an array that is inside `depth` brackets. -/
def itemChars (indent : Option Nat) (depth : Nat) : List Json → List Char
  | [] => lead indent depth ++ [']']
  | v :: vs =>
    ',' :: lead indent (depth + 1) ++ chars indent (depth + 1) v ++ itemChars indent depth vs

/-- What follows a member of an object that is inside `depth` brackets. -/
def memberChars (indent : Option Nat) (depth : Nat) : List (String × Json) → List Char
  | [] => lead indent depth ++ ['\x7d']
  | (k, v) :: ms =>
    ',' :: lead indent (depth + 1) ++ quote k.toList ++ ':' :: gap indent ++
      chars indent (depth + 1) v ++ memberChars indent depth ms

end

def render (indent : Option Nat) (v : Json) : String := String.ofList (v.chars indent 0)

end WatchWallet.Json
