import CallAlign.Document.Value
import CallAlign.Json.Text

/-!
# Reading JSON

A JSON text as a value. A number without fraction and exponent that fits 64 bits, signed or
unsigned, is an integer; every other one, and `-0`, is a double. Doubles are read fast rather than
to the last place: as many digits as 64 bits hold, then one multiplication or division by a power of
ten. The entries of an object are sorted by key, and of two with the same key the later one counts.
-/

namespace CallAlign.Json

open CallAlign.Text

/-- Values nest no deeper than this. -/
def maxDepth : Nat := 127

def blanks : Parser Unit := do
  let _ ← Parser.takeWhile fun c => c = ' ' || c = '\n' || c = '\r' || c = '\t'

def digits : Parser (List Char) := Parser.takeWhile1 (isDigit 10)

def exponent : Parser Int := do
  let _ ← Parser.satisfy fun c => c = 'e' || c = 'E'
  let sign ← Parser.optional (Parser.satisfy fun c => c = '+' || c = '-')
  let power := natOf 10 (← digits)
  return if sign = some '-' then -(power : Int) else power

/-- The significand `n` with digits behind it as long as 64 bits hold it, and the digits left. -/
def absorb (n : Nat) : List Char → Nat × List Char
  | [] => (n, [])
  | c :: rest =>
    let next := n * 10 + natOf 10 [c]
    if next < 0x10000000000000000 then absorb next rest else (n, c :: rest)

/-- The value of an integer of 64 bits as it is written; a negative one needs a sign bit too, and
zero has no negative. -/
def integerValue (negative : Bool) (n : Nat) : Value :=
  if !negative then .int n
  else if 0 < n ∧ n ≤ 0x8000000000000000 then .int (-(n : Int))
  else .float (.ofDecimal true ⟨n, 0⟩)

/-- The double with these digits in front of and behind the point. Digits that 64 bits do not hold
are left out; those in front of the point still count as places. -/
def doubleValue (negative : Bool) (whole behind : List Char) (power : Int) : Parser Value := do
  let (front, dropped) := absorb 0 whole
  let (significand, left) := absorb front behind
  let places : Int := dropped.length - (behind.length - left.length)
  match Double.ofScaled? negative significand.toUInt64 (places + power) with
  | some x => return .float x
  | none => failure

def number : Parser Value := do
  let negative := (← Parser.optional (Parser.char '-')).isSome
  let whole ← digits
  if 1 < whole.length ∧ whole.head? = some '0' then failure
  let fraction ← Parser.optional (do Parser.char '.'; digits)
  let power ← Parser.optional exponent
  if fraction.isNone && power.isNone && natOf 10 whole < 0x10000000000000000 then
    return integerValue negative (natOf 10 whole)
  doubleValue negative whole (fraction.getD []) (power.getD 0)

/-- Items between a bracket, already read, and its partner, with commas between them. -/
def listOf {α : Type} (item : Parser α) (close : Char) : Parser (List α) := do
  blanks
  (do Parser.char close; return []) <|> do
    let items ← Parser.sepBy1 item (do Parser.char ','; blanks)
    Parser.char close
    return items

/-- Of neighbours with the same key, the last. -/
def keepLast : List (String × Value) → List (String × Value)
  | first :: second :: rest =>
    if first.1 = second.1 then keepLast (second :: rest) else first :: keepLast (second :: rest)
  | entries => entries

/-- The entries of an object in the order of their keys. -/
def tableOf (entries : List (String × Value)) : Value :=
  .table (keepLast (entries.mergeSort fun a b => !decide (b.1 < a.1)))

/-- A value, and the blanks behind it, with at most `depth` levels of nesting. -/
def value (depth : Nat) : Parser Value := do
  let v ← match ← Parser.any with
    | 'n' => do Parser.word "ull"; pure .null
    | 't' => do Parser.word "rue"; pure (.bool true)
    | 'f' => do Parser.word "alse"; pure (.bool false)
    | '"' => .string <$> stringBody
    | '[' => match depth with
      | 0 => failure
      | depth + 1 => .array <$> listOf (value depth) ']'
    | '\x7b' => match depth with
      | 0 => failure
      | depth + 1 =>
        let entry : Parser (String × Value) := do
          Parser.char '"'
          let key ← stringBody
          blanks
          Parser.char ':'
          blanks
          return (key, ← value depth)
        tableOf <$> listOf entry '\x7d'
    | c => fun s => number (c :: s)
  blanks
  return v

def read? (text : String) : Option Value := Parser.parse? (do blanks; value maxDepth) text

end CallAlign.Json
