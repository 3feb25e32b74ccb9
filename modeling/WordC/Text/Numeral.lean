/-!
# Numerals

Reading decimal and hexadecimal digits, and numerals with a sign and a range.
A numeral may begin with `+` and may have leading zeros; it has at least one
digit and nothing but digits after its sign.
-/

namespace WordC

namespace Text

/-- The value of a digit, letters `a` to `f` of either case included. -/
def digitValue (c : Char) : Nat :=
  if c.isDigit then c.toNat - '0'.toNat
  else if 'a' ≤ c ∧ c ≤ 'f' then c.toNat - 'a'.toNat + 10
  else c.toNat - 'A'.toNat + 10

/-- A hexadecimal digit of either case. -/
def isHexDigit (c : Char) : Bool :=
  c.isDigit || ('a' ≤ c && c ≤ 'f') || ('A' ≤ c && c ≤ 'F')

/-- A digit of an octal escape. -/
def isOctalDigit (c : Char) : Bool :=
  '0' ≤ c && c ≤ '7'

/-- The number a run of digits denotes, most significant digit first. -/
def digitsValue (base : Nat) (digits : List Char) : Nat :=
  digits.foldl (fun n c => n * base + digitValue c) 0

/-- The number denoted by a non-empty run of decimal digits. -/
def decimal? (cs : List Char) : Option Nat :=
  if !cs.isEmpty && cs.all Char.isDigit then some (digitsValue 10 cs) else none

/-- An unsigned numeral below `limit`. -/
def natural? (limit : Nat) (cs : List Char) : Option Nat :=
  let digits := match cs with
    | '+' :: rest => rest
    | _ => cs
  (decimal? digits).filter (· < limit)

/-- The word holding `n`, when `n` fits. -/
def int64? (n : Int) : Option Int64 :=
  if Int64.minValue.toInt ≤ n ∧ n ≤ Int64.maxValue.toInt then some (Int64.ofInt n) else none

/-- A signed numeral in the range of a 64-bit word. -/
def integer? (cs : List Char) : Option Int64 :=
  match cs with
  | '-' :: rest => (decimal? rest).bind fun n => int64? (-n)
  | '+' :: rest => (decimal? rest).bind fun n => int64? n
  | _ => (decimal? cs).bind fun n => int64? n

/-- The decimal text of a word. -/
def decimal (n : Int64) : String :=
  toString n.toInt

/-- The decimal text of a word, with its sign even when it is not negative. -/
def signed (n : Int64) : String :=
  if 0 ≤ n.toInt then "+" ++ decimal n else decimal n

end Text

end WordC
