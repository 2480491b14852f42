import WatchWallet.Hex
import WatchWallet.Json.Value
/-!
Reading JSON text.

The reader is strict: one value, blanks around its tokens, at most one byte order mark at the
very start, and nothing else. A number that rounds to no finite double makes the whole text
malformed. Of members with one name the last counts. Every function takes what is left of the text
and gives back what it leaves. Nesting is bounded by the fuel, which `parse` takes from the length
of the text, so that it never runs out.
-/

namespace WatchWallet.Json

def isBlank (c : Char) : Bool := c = ' ' || c = '\t' || c = '\n' || c = '\r'

def skipBlank (cs : List Char) : List Char := cs.dropWhile isBlank

/-- The code unit that four hexadecimal digits write. -/
def codeUnit? (a b c d : Char) : Option Nat := do
  let a ← Hex.digitValue? a
  let b ← Hex.digitValue? b
  let c ← Hex.digitValue? c
  let d ← Hex.digitValue? d
  return ((a * 16 + b) * 16 + c) * 16 + d

def unescape? : Char → Option Char
  | '\x22' => some '\x22'
  | '\\' => some '\\'
  | '/' => some '/'
  | 'b' => some '\x08'
  | 'f' => some '\x0c'
  | 'n' => some '\n'
  | 'r' => some '\r'
  | 't' => some '\t'
  | _ => none

def isHighSurrogate (u : Nat) : Bool := 0xD800 ≤ u && u < 0xDC00

def isLowSurrogate (u : Nat) : Bool := 0xDC00 ≤ u && u < 0xE000

/-- A piece of a string: a character, or the code unit of a numeric escape. -/
inductive Piece where
  | char (c : Char)
  | unit (u : Nat)

/-- The pieces of a string up to its closing quote, and what follows the quote. -/
def readPieces : List Char → Option (List Piece × List Char)
  | [] => none
  | '\x22' :: cs => some ([], cs)
  | '\\' :: 'u' :: a :: b :: c :: d :: cs => do
    let u ← codeUnit? a b c d
    let (ps, rest) ← readPieces cs
    return (.unit u :: ps, rest)
  | '\\' :: c :: cs => do
    let c ← unescape? c
    let (ps, rest) ← readPieces cs
    return (.char c :: ps, rest)
  | c :: cs =>
    if c.toNat < 32 then none
    else do
      let (ps, rest) ← readPieces cs
      return (.char c :: ps, rest)

/-- The characters that pieces write. Surrogates count only as a pair of numeric escapes. -/
def joinPieces : List Piece → Option (List Char)
  | [] => some []
  | .char c :: ps => (c :: ·) <$> joinPieces ps
  | .unit u :: ps =>
    if isHighSurrogate u then
      match ps with
      | .unit v :: ps =>
        if isLowSurrogate v then
          (Char.ofNat (0x10000 + (u - 0xD800) * 0x400 + (v - 0xDC00)) :: ·) <$> joinPieces ps
        else none
      | _ => none
    else if isLowSurrogate u then none
    else (Char.ofNat u :: ·) <$> joinPieces ps

/-- The rest of a string after its opening quote. -/
def readString (cs : List Char) : Option (List Char × List Char) := do
  let (ps, rest) ← readPieces cs
  return (← joinPieces ps, rest)

def natOfDigits (ds : List Char) : Nat := ds.foldl (fun n c => 10 * n + (c.toNat - 48)) 0

/-- A whole part: a zero alone, or digits that start with another digit. -/
def readWhole : List Char → Option (List Char × List Char)
  | '0' :: cs => some (['0'], cs)
  | cs => if (cs.takeWhile Char.isDigit).isEmpty then none
    else some (cs.takeWhile Char.isDigit, cs.dropWhile Char.isDigit)

/-- The digits after a point; none where there is no point. -/
def readFraction : List Char → Option (List Char × List Char)
  | '.' :: cs => if (cs.takeWhile Char.isDigit).isEmpty then none
    else some (cs.takeWhile Char.isDigit, cs.dropWhile Char.isDigit)
  | cs => some ([], cs)

def readExponentDigits (negative : Bool) (cs : List Char) : Option (Int × List Char) :=
  let ds := cs.takeWhile Char.isDigit
  if ds.isEmpty then none
  else
    let n : Int := .ofNat (natOfDigits ds)
    some (if negative then -n else n, cs.dropWhile Char.isDigit)

def readExponent : List Char → Option (Option Int × List Char)
  | e :: cs =>
    if e = 'e' || e = 'E' then
      (match cs with
        | '-' :: cs => readExponentDigits true cs
        | '+' :: cs => readExponentDigits false cs
        | cs => readExponentDigits false cs).map fun (n, rest) => (some n, rest)
    else some (none, e :: cs)
  | [] => some (none, [])

/-- A number after its sign. One that rounds to no finite double is refused, also as an
integer. -/
def readUnsignedNumber (negative : Bool) (cs : List Char) : Option (Json × List Char) := do
  let (whole, cs) ← readWhole cs
  let (fraction, cs) ← readFraction cs
  let (exponent, cs) ← readExponent cs
  let d : Decimal :=
    ⟨negative, natOfDigits (whole ++ fraction), exponent.getD 0 - fraction.length⟩
  if ¬ d.isFinite then none
  else if fraction.isEmpty && exponent.isNone then
    return (.integer (if negative then -(Int.ofNat d.digits) else .ofNat d.digits), cs)
  else return (.decimal d, cs)

def readNumber : List Char → Option (Json × List Char)
  | '-' :: cs => readUnsignedNumber true cs
  | cs => readUnsignedNumber false cs

/-- The members that count: of those with one name the last. -/
def lastOfEach : List (String × Json) → List (String × Json)
  | [] => []
  | (k, v) :: ms => if (ms.lookup k).isSome then lastOfEach ms else (k, v) :: lastOfEach ms

mutual

def readValue : (fuel : Nat) → List Char → Option (Json × List Char)
  | 0, _ => none
  | fuel + 1, cs =>
    match skipBlank cs with
    | 'n' :: 'u' :: 'l' :: 'l' :: cs => some (.null, cs)
    | 't' :: 'r' :: 'u' :: 'e' :: cs => some (.bool true, cs)
    | 'f' :: 'a' :: 'l' :: 's' :: 'e' :: cs => some (.bool false, cs)
    | '\x22' :: cs => (readString cs).map fun (s, rest) => (.string (.ofList s), rest)
    | '[' :: cs =>
      match skipBlank cs with
      | ']' :: cs => some (.array [], cs)
      | cs => (readItems fuel cs).map fun (vs, rest) => (.array vs, rest)
    | '\x7b' :: cs =>
      match skipBlank cs with
      | '\x7d' :: cs => some (.object [], cs)
      | cs => (readMembers fuel cs).map fun (ms, rest) => (.object (lastOfEach ms), rest)
    | cs => readNumber cs

/-- One or more items, up to the bracket that closes the array. -/
def readItems : (fuel : Nat) → List Char → Option (List Json × List Char)
  | 0, _ => none
  | fuel + 1, cs => do
    let (v, cs) ← readValue fuel cs
    match skipBlank cs with
    | ',' :: cs =>
      let (vs, rest) ← readItems fuel cs
      return (v :: vs, rest)
    | ']' :: cs => return ([v], cs)
    | _ => none

/-- One or more members, up to the brace that closes the object. -/
def readMembers : (fuel : Nat) → List Char → Option (List (String × Json) × List Char)
  | 0, _ => none
  | fuel + 1, cs =>
    match skipBlank cs with
    | '\x22' :: cs => do
      let (k, cs) ← readString cs
      match skipBlank cs with
      | ':' :: cs =>
        let (v, cs) ← readValue fuel cs
        match skipBlank cs with
        | ',' :: cs =>
          let (ms, rest) ← readMembers fuel cs
          return ((.ofList k, v) :: ms, rest)
        | '\x7d' :: cs => return ([(.ofList k, v)], cs)
        | _ => none
      | _ => none
    | _ => none

end

/-- A text without the byte order mark that it may start with. -/
def skipMark : List Char → List Char
  | '\ufeff' :: cs => cs
  | cs => cs

def parseChars (cs : List Char) : Option Json :=
  match readValue (2 * cs.length + 2) (skipMark cs) with
  | some (v, rest) => if (skipBlank rest).isEmpty then some v else none
  | none => none

/-- The value that a JSON text writes; none where the text is not one JSON value. -/
def parse (text : String) : Option Json := parseChars text.toList

end WatchWallet.Json
