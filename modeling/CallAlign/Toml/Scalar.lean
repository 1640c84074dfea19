import CallAlign.Document.Value
import CallAlign.Text.Digits
import CallAlign.Text.Parser

/-!
# TOML scalars

Strings, numbers, truth values and moments of TOML 1.0. Integers have 64 bits with sign; a number
that does not fit is refused, as is a positive double beyond the finite ones.
-/

namespace CallAlign.Toml

open CallAlign.Text

/-! ## Blanks and lines -/

/-- Space and tab. -/
def isBlank (c : Char) : Bool := c = ' ' || c = '\t'

/-- What may stand in a comment or string: no control character but the tab. -/
def isPlain (c : Char) : Bool := c = '\t' || (0x20 ≤ c.toNat && c.toNat ≠ 0x7f)

def blanks : Parser Unit := do let _ ← Parser.takeWhile isBlank

/-- A line feed, or one behind a carriage return. -/
def newline : Parser Unit := Parser.char '\n' <|> Parser.word "\r\n"

def comment : Parser Unit := do
  Parser.char '#'
  let _ ← Parser.takeWhile isPlain

/-- The end of a line or of the text. -/
def lineEnd : Parser Unit := newline <|> Parser.atEnd

/-- The rest of a line with nothing but a comment on it. -/
def lineRest : Parser Unit := do
  blanks
  let _ ← Parser.optional comment
  lineEnd

/-- Blanks, comments and line breaks, as between the items of an array. -/
def gap : Parser Unit := do
  let _ ← Parser.many <|
    (do let _ ← Parser.takeWhile1 isBlank) <|> newline <|> (do comment; newline)

/-! ## Strings -/

/-- Whether a number is that of a character. -/
def isScalar (n : Nat) : Bool := n < 0xd800 || (0xe000 ≤ n && n < 0x110000)

/-- A character given by so many hexadecimal digits. -/
def numberedChar (digits : Nat) : Parser Char := do
  let n := natOf 16 (← Parser.count (isDigit 16) digits)
  if isScalar n then return Char.ofNat n else failure

def escaped : Parser Char := do
  Parser.char '\\'
  match ← Parser.any with
  | 'b' => return '\x08'
  | 't' => return '\t'
  | 'n' => return '\n'
  | 'f' => return '\x0c'
  | 'r' => return '\r'
  | '"' => return '"'
  | '\\' => return '\\'
  | 'u' => numberedChar 4
  | 'U' => numberedChar 8
  | _ => failure

/-- A character that stands for itself in a basic string. -/
def basicChar : Parser Char := Parser.satisfy fun c => isPlain c && c ≠ '"' && c ≠ '\\'

/-- A string between double quotes. -/
def basicString : Parser String := do
  Parser.char '"'
  let cs ← Parser.many (basicChar <|> escaped)
  Parser.char '"'
  return String.ofList cs

/-- A string between single quotes, without escapes. -/
def literalString : Parser String := do
  Parser.char '\''
  let cs ← Parser.takeWhile fun c => isPlain c && c ≠ '\''
  Parser.char '\''
  return String.ofList cs

/-- One or two quotes inside a string that three of them close. -/
def innerQuotes (quote : Char) : Parser (List Char) := do
  let run ← Parser.takeWhile1 (· = quote)
  if run.length ≤ 2 then return run else failure

/-- The three closing quotes, with up to two in front of them that belong to the string. -/
def closingQuotes (quote : Char) : Parser (List Char) := do
  let run ← Parser.takeWhile1 (· = quote)
  if 3 ≤ run.length ∧ run.length ≤ 5 then return run.drop 3 else failure

/-- A line break in a string, kept as a line feed. -/
def innerNewline : Parser (List Char) := do
  newline
  return ['\n']

/-- A backslash at the end of a line, which takes all blanks and line breaks behind it away. -/
def joinedLines : Parser (List Char) := do
  Parser.char '\\'
  blanks
  newline
  let _ ← Parser.many ((do let _ ← Parser.satisfy isBlank) <|> newline)
  return []

/-- A string of several lines between quotes, given what it may hold besides quotes; a line break
right behind the opening quotes is left out. -/
def longString (quote : Char) (content : Parser (List Char)) : Parser String := do
  Parser.exactly [quote, quote, quote]
  let _ ← Parser.optional newline
  let parts ← Parser.many (content <|> innerNewline <|> innerQuotes quote)
  let last ← closingQuotes quote
  return String.ofList (parts.flatten ++ last)

def longBasicString : Parser String :=
  longString '"' (List.singleton <$> basicChar <|> joinedLines <|> List.singleton <$> escaped)

def longLiteralString : Parser String :=
  longString '\'' (Parser.takeWhile1 fun c => isPlain c && c ≠ '\'')

def string : Parser String :=
  longBasicString <|> basicString <|> longLiteralString <|> literalString

/-! ## Numbers -/

/-- Digits in a base, with single underscores between them. -/
def underscored (base : Nat) : Parser (List Char) := do
  let first ← Parser.satisfy (isDigit base)
  let rest ← Parser.many ((do Parser.char '_'; Parser.satisfy (isDigit base)) <|>
    Parser.satisfy (isDigit base))
  return first :: rest

/-- A sign, and whether it is a minus. -/
def sign : Parser Bool :=
  (do Parser.char '-'; return true) <|> (do Parser.char '+'; return false) <|> pure false

/-- The digits of a decimal integer, without a leading zero. -/
def wholeDigits : Parser (List Char) :=
  (do Parser.char '0'; return ['0']) <|> underscored 10

/-- An integer with sign, if 64 bits hold it. -/
def checkedInt (negative : Bool) (n : Nat) : Parser Value :=
  if negative then
    if n ≤ 0x8000000000000000 then pure (.int (-(n : Int))) else failure
  else
    if n < 0x8000000000000000 then pure (.int n) else failure

def decimalInteger : Parser Value := do
  let negative ← sign
  checkedInt negative (natOf 10 (← wholeDigits))

/-- An integer in the base that its mark announces. -/
def markedInteger (mark : String) (base : Nat) : Parser Value := do
  Parser.word mark
  checkedInt false (natOf base (← underscored base))

def exponent : Parser Int := do
  let _ ← Parser.satisfy fun c => c = 'e' || c = 'E'
  let negative ← sign
  let n := natOf 10 (← underscored 10)
  return if negative then -(n : Int) else n

/-- A number with a fraction, an exponent or both. -/
def fractional : Parser Value := do
  let negative ← sign
  let whole ← wholeDigits
  let fraction ← Parser.optional (do Parser.char '.'; underscored 10)
  let power ← Parser.optional exponent
  if fraction.isNone && power.isNone then failure
  let behind := fraction.getD []
  let x := Double.ofDecimal negative ⟨natOf 10 (whole ++ behind), power.getD 0 - behind.length⟩
  if x = Double.infinity then failure else return .float x

/-- An infinite number, or none. -/
def special : Parser Value := do
  let negative ← sign
  let x ← (do Parser.word "inf"; return Double.infinity) <|>
    (do Parser.word "nan"; return Double.notANumber)
  return .float (if negative then x.neg else x)

def truth : Parser Value :=
  (do Parser.word "true"; return .bool true) <|> (do Parser.word "false"; return .bool false)

/-! ## Moments -/

/-- A number of so many digits between two bounds, as it is written. -/
def bounded (digits low high : Nat) : Parser (List Char) := do
  let cs ← Parser.count (isDigit 10) digits
  if low ≤ natOf 10 cs ∧ natOf 10 cs ≤ high then return cs else failure

def oneOf (cs : List Char) : Parser (List Char) :=
  List.singleton <$> Parser.satisfy (cs.contains ·)

/-- What some parsers read one after another. -/
def inOrder (parts : List (Parser (List Char))) : Parser (List Char) :=
  List.flatten <$> parts.mapM id

def daysIn (year month : Nat) : Nat :=
  if month = 2 then
    if year % 4 = 0 ∧ (year % 100 ≠ 0 ∨ year % 400 = 0) then 29 else 28
  else if [4, 6, 9, 11].contains month then 30
  else 31

def date : Parser (List Char) := do
  let year ← bounded 4 0 9999
  Parser.char '-'
  let month ← bounded 2 1 12
  Parser.char '-'
  let day ← bounded 2 1 (daysIn (natOf 10 year) (natOf 10 month))
  return year ++ ['-'] ++ month ++ ['-'] ++ day

def orEmpty (p : Parser (List Char)) : Parser (List Char) := p <|> pure []

/-- A time of day, a leap second included. -/
def time : Parser (List Char) :=
  inOrder [bounded 2 0 23, oneOf [':'], bounded 2 0 59, oneOf [':'], bounded 2 0 60,
    orEmpty (inOrder [oneOf ['.'], Parser.takeWhile1 (isDigit 10)])]

/-- The distance from universal time. -/
def zone : Parser (List Char) :=
  oneOf ['Z', 'z'] <|> inOrder [oneOf ['+', '-'], bounded 2 0 23, oneOf [':'], bounded 2 0 59]

/-- A day, a time or both. -/
def moment : Parser Value := do
  let cs ← inOrder [date, orEmpty (inOrder [oneOf ['T', 't', ' '], time, orEmpty zone])] <|> time
  return .moment (String.ofList cs)

/-- A value without parts. -/
def scalar : Parser Value :=
  .string <$> string <|> truth <|> moment <|> fractional <|> special <|>
    markedInteger "0x" 16 <|> markedInteger "0o" 8 <|> markedInteger "0b" 2 <|> decimalInteger

end CallAlign.Toml
