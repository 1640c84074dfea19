import CallAlign.Toml.Scalar
import CallAlign.Toml.Table

/-!
# Reading TOML

A TOML 1.0 text as the entries of its table. A text that breaks a rule of the grammar, defines
something twice or holds a number out of bounds has none.
-/

namespace CallAlign.Toml

open CallAlign.Text

/-- Arrays and inline tables nest no deeper than this, and no dotted key is longer. -/
def maxDepth : Nat := 79

/-- What a key may hold without quotes. -/
def isBare (c : Char) : Bool := c.isAlphanum || c = '_' || c = '-'

/-- A key without dots, with the blanks around it. -/
def simpleKey : Parser String := do
  blanks
  let name ← basicString <|> literalString <|> String.ofList <$> Parser.takeWhile1 isBare
  blanks
  return name

def key : Parser Key := do
  let names ← Parser.sepBy1 simpleKey (Parser.char '.')
  if maxDepth < names.length then failure
  match names.getLast? with
  | some last => return ⟨names.dropLast, last⟩
  | none => failure

/-- A key and its value on one line. -/
def assignment (value : Parser Value) : Parser Assignment := do
  let k ← key
  Parser.char '='
  blanks
  return ⟨k, ← value⟩

/-- The items of an array, over any number of lines, a comma behind the last one allowed. -/
def arrayItems (value : Parser Value) : Parser (List Value) := do
  let item : Parser Value := do
    gap
    let v ← value
    gap
    return v
  let items ← Parser.optional (do
    let items ← Parser.sepBy1 item (Parser.char ',')
    let _ ← Parser.optional (Parser.char ',')
    return items)
  gap
  return items.getD []

/-- The entries of an inline table, on one line. -/
def inlineEntries (value : Parser Value) : Parser Entries := do
  let entry : Parser Assignment := do
    let a ← assignment value
    blanks
    return a
  let entries ← Parser.optional (Parser.sepBy1 entry (Parser.char ','))
  blanks
  match assignAll (entries.getD []) [] with
  | some entries => return entries
  | none => failure

/-- A value with at most `depth` levels of arrays and inline tables. -/
def value (depth : Nat) : Parser Value :=
  match depth with
  | 0 => scalar
  | depth + 1 =>
    (do
      Parser.char '['
      let items ← arrayItems (value depth)
      Parser.char ']'
      return .array items) <|>
    (do
      Parser.char '\x7b'
      let entries ← inlineEntries (value depth)
      Parser.char '\x7d'
      return .table (entryValues entries)) <|>
    scalar

/-- A statement, up to the end of its line. -/
def statement : Parser Statement := do
  let s ← (do
      Parser.word "[["
      let k ← key
      Parser.word "]]"
      return .tableArray k) <|>
    (do
      Parser.char '['
      let k ← key
      Parser.char ']'
      return .table k) <|>
    (do
      let a ← assignment (value maxDepth)
      return .assign a.key a.value)
  lineRest
  return s

/-- A line without a statement that is not the end of the text. -/
def emptyLine : Parser (Option Statement) := do
  if (← Parser.peek?).isNone then failure
  lineRest
  return none

def statements : Parser (List Statement) := do
  let _ ← Parser.optional (Parser.char '\ufeff')
  let lines ← Parser.many (do
    blanks
    emptyLine <|> some <$> statement)
  blanks
  Parser.atEnd
  return lines.filterMap id

/-- The entries of the table that a TOML text holds. -/
def read? (text : String) : Option (List (String × Value)) :=
  ((Parser.parse? statements text).bind build).map entryValues

/-- Numbers are always positional, and a tie goes up. -/
def numberStyle : Double.Style := ⟨fun _ => true, true⟩

end CallAlign.Toml
