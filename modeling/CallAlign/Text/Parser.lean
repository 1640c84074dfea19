/-!
# Parsing text

A parser takes what it reads off the front of a list of characters, or fails. Alternatives start
again where the failed one began. Repetition ends when the repeated parser fails or reads nothing,
so every parser here is total.
-/

namespace CallAlign.Text

/-- Reads a value off the front of the text, or fails. -/
abbrev Parser (α : Type) := StateT (List Char) Option α

namespace Parser

def any : Parser Char
  | [] => none
  | c :: rest => some (c, rest)

/-- The next character, if it satisfies `p`. -/
def satisfy (p : Char → Bool) : Parser Char
  | [] => none
  | c :: rest => if p c then some (c, rest) else none

def char (c : Char) : Parser Unit := fun s => (satisfy (· = c) s).map fun (_, rest) => ((), rest)

def exactly : List Char → Parser Unit
  | [] => pure ()
  | c :: cs => do char c; exactly cs

def word (text : String) : Parser Unit := exactly text.toList

def atEnd : Parser Unit
  | [] => some ((), [])
  | _ :: _ => none

/-- What comes next, without reading it. -/
def peek? : Parser (Option Char) := fun s => some (s.head?, s)

/-- The longest run of characters that satisfy `p`. -/
def takeWhile (p : Char → Bool) : Parser (List Char) := fun s =>
  some (s.takeWhile p, s.dropWhile p)

/-- The longest run of characters that satisfy `p`, at least one. -/
def takeWhile1 (p : Char → Bool) : Parser (List Char) := do
  let run ← takeWhile p
  if run.isEmpty then failure else return run

/-- Exactly `n` characters that satisfy `p`. -/
def count (p : Char → Bool) : Nat → Parser (List Char)
  | 0 => pure []
  | n + 1 => do return (← satisfy p) :: (← count p n)

/-- What `p` reads, or nothing. -/
def optional {α : Type} (p : Parser α) : Parser (Option α) := (some <$> p) <|> pure none

/-- What `p` reads time and again, until it fails or reads no character. -/
def many {α : Type} (p : Parser α) (s : List Char) : Option (List α × List Char) :=
  match p s with
  | none => some ([], s)
  | some (a, rest) =>
    if rest.length < s.length then (many p rest).map fun (as, rest) => (a :: as, rest)
    else some ([], s)
termination_by s.length

/-- What `p` reads, once or more, with `sep` between. -/
def sepBy1 {α : Type} (p : Parser α) (sep : Parser Unit) : Parser (List α) := do
  let first ← p
  let rest ← many (do sep; p)
  return first :: rest

/-- The value of a parser that reads the whole text. -/
def parse? {α : Type} (p : Parser α) (text : String) : Option α :=
  (p text.toList).bind fun (a, rest) => if rest.isEmpty then some a else none

end Parser

end CallAlign.Text
