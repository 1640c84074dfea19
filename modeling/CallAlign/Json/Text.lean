import CallAlign.Text.Digits
import CallAlign.Text.Parser

/-!
# JSON strings

The characters between the quotes of a JSON string, with its escapes, in both directions. An escape
by number stands for a UTF-16 unit, so that two of them together name a character beyond the basic
plane; half of such a pair alone is refused.
-/

namespace CallAlign.Json

/-- What a string is written with: characters and UTF-16 units given by number. -/
inductive Piece where
  | char (c : Char)
  | unit (code : Nat)

/-- The character that a letter behind a backslash stands for. -/
def unescape? : Char → Option Char
  | '"' => some '"'
  | '\\' => some '\\'
  | '/' => some '/'
  | 'b' => some '\x08'
  | 'f' => some '\x0c'
  | 'n' => some '\n'
  | 'r' => some '\r'
  | 't' => some '\t'
  | _ => none

/-- The pieces up to the closing quote, and what comes behind it. -/
def pieces : List Char → Option (List Piece × List Char)
  | [] => none
  | '"' :: rest => some ([], rest)
  | '\\' :: 'u' :: a :: b :: c :: d :: rest => do
    if [a, b, c, d].all (Text.isDigit 16) then
      let (more, rest) ← pieces rest
      return (.unit (Text.natOf 16 [a, b, c, d]) :: more, rest)
    else none
  | '\\' :: e :: rest => do
    let c ← unescape? e
    let (more, rest) ← pieces rest
    return (.char c :: more, rest)
  | c :: rest =>
    if c.toNat < 0x20 then none
    else (pieces rest).map fun (more, rest) => (.char c :: more, rest)

/-- Whether a UTF-16 unit opens a pair. -/
def isHigh (code : Nat) : Bool := 0xd800 ≤ code && code < 0xdc00

/-- Whether a UTF-16 unit closes a pair. -/
def isLow (code : Nat) : Bool := 0xdc00 ≤ code && code < 0xe000

/-- The characters that the pieces stand for. -/
def join? : List Piece → Option (List Char)
  | [] => some []
  | .char c :: rest => (join? rest).map (c :: ·)
  | .unit high :: .unit low :: rest =>
    if isHigh high then
      if isLow low then
        (join? rest).map (Char.ofNat (0x10000 + (high - 0xd800) * 0x400 + (low - 0xdc00)) :: ·)
      else none
    else if isLow high then none
    else (join? (.unit low :: rest)).map (Char.ofNat high :: ·)
  | .unit code :: rest =>
    if isHigh code || isLow code then none else (join? rest).map (Char.ofNat code :: ·)

/-- A string, behind its opening quote. -/
def stringBody : Text.Parser String := fun s => do
  let (ps, rest) ← pieces s
  let cs ← join? ps
  return (String.ofList cs, rest)

/-! ## Writing -/

def escape (c : Char) : List Char :=
  match c with
  | '"' => ['\\', '"']
  | '\\' => ['\\', '\\']
  | '\n' => ['\\', 'n']
  | '\r' => ['\\', 'r']
  | '\t' => ['\\', 't']
  | _ =>
    if c.toNat < 0x20 then
      ['\\', 'u', '0', '0', Nat.digitChar (c.toNat / 16), Nat.digitChar (c.toNat % 16)]
    else [c]

def stringText (text : String) : List Char := '"' :: text.toList.flatMap escape ++ ['"']

end CallAlign.Json
