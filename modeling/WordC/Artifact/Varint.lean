/-!
# Numbers as bytes

A number is written in groups of seven bits, the lowest first. All bytes but
the last have their top bit set. A signed number is first mapped to the
natural numbers, so that small magnitudes take few bytes.
-/

namespace WordC

/-- Why bytes cannot be read. -/
inductive ArtifactError where
  /-- The bytes end too early. -/
  | endOfBytes
  /-- A number is too long or too large. -/
  | badNumber
  /-- The bytes of a text are not UTF-8. -/
  | badText
  /-- An optional value is neither absent nor present. -/
  | badOption
  /-- A code stands for no alternative. -/
  | badCode
  deriving DecidableEq, Repr

/-- The wording of a failure. -/
def ArtifactError.message (e : ArtifactError) : String :=
  "IR artifact: " ++
    match e with
    | endOfBytes => "Hit the end of buffer, expected more data"
    | badNumber =>
      "Found a varint that didn't terminate. Is the usize too big for this platform?"
    | badText => "Tried to parse invalid utf-8"
    | badOption => "Found an Option discriminant that wasn't 0 or 1"
    | badCode => "Serde Deserialization Error"

/-- A reader takes bytes from the front of a list. -/
abbrev Reader := StateT (List UInt8) (Except ArtifactError)

/-- The bytes of a number. -/
def writeNumber (n : Nat) : List UInt8 :=
  if n < 128 then [UInt8.ofNat n]
  else UInt8.ofNat (n % 128 + 128) :: writeNumber (n / 128)
  termination_by n
  decreasing_by omega

/-- The natural number that stands for a signed one: even for those from zero
up, odd for negative ones. -/
def zigzag : Int → Nat
  | .ofNat n => 2 * n
  | .negSucc n => 2 * n + 1

/-- The signed number that a natural number stands for. -/
def unzigzag (n : Nat) : Int :=
  if n % 2 = 0 then .ofNat (n / 2) else .negSucc (n / 2)

/-- The bytes of a signed number. -/
def writeSigned (n : Int64) : List UInt8 :=
  writeNumber (zigzag n.toInt)

namespace Reader

/-- Takes a byte. -/
def byte : Reader UInt8 := fun bytes =>
  match bytes with
  | [] => .error .endOfBytes
  | b :: rest => .ok (b, rest)

/-- Takes a number of at most the given number of bytes. -/
def groups : Nat → Reader Nat
  | 0 => throw .badNumber
  | count + 1 => do
    let b ← byte
    if b < 128 then return b.toNat
    else return b.toNat - 128 + 128 * (← groups count)

/-- Takes a number of at most `count` bytes that is below `limit`. -/
def numberBelow (count limit : Nat) : Reader Nat := do
  let n ← groups count
  if n < limit then return n else throw .badNumber

/-- Takes a number of 32 bits. -/
def number32 : Reader Nat :=
  numberBelow 5 UInt32.size

/-- Takes a number of 64 bits. -/
def number64 : Reader Nat :=
  numberBelow 10 UInt64.size

/-- Takes a signed number. -/
def signed : Reader Int64 := do
  return Int64.ofInt (unzigzag (← number64))

end Reader

end WordC
