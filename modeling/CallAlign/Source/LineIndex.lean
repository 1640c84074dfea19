import CallAlign.Search

/-!
# Lines of a source text

A line ends at a line feed, at a carriage return, or at a carriage return with a line feed right
behind it, which is one line break. `LineIndex` holds where the lines of a text start and end, and
turns byte offsets into lines and columns. Columns count bytes. An offset past the text counts as
the end of the text, and an offset inside a line break as the end of its line.
-/

namespace CallAlign

/-- A line without its line break, by byte offsets. -/
structure Line where
  start : Nat
  stop : Nat
  deriving DecidableEq, Repr

/-- A source location: the byte offset with its line and column. -/
structure Position where
  offset : Nat
  line : Nat
  column : Nat
  deriving DecidableEq, Repr

/-- The lines of a text and its length in bytes. -/
structure LineIndex where
  lines : Array Line
  textLength : Nat
  deriving DecidableEq, Repr

namespace LineIndex

/-- The lines of the bytes from `position` on, in a line that began at `start`. Byte 10 is the line
feed and byte 13 the carriage return. -/
def linesFrom (start position : Nat) : List UInt8 → List Line
  | [] => [⟨start, position⟩]
  | 10 :: rest => ⟨start, position⟩ :: linesFrom (position + 1) (position + 1) rest
  | 13 :: 10 :: rest => ⟨start, position⟩ :: linesFrom (position + 2) (position + 2) rest
  | 13 :: rest => ⟨start, position⟩ :: linesFrom (position + 1) (position + 1) rest
  | _ :: rest => linesFrom start (position + 1) rest

def ofBytes (bytes : List UInt8) : LineIndex := ⟨(linesFrom 0 0 bytes).toArray, bytes.length⟩

/-- The index of `text`, over its UTF-8 bytes. -/
def ofText (text : String) : LineIndex := ofBytes text.toUTF8.data.toList

/-- The number of lines, at least one. -/
def lineCount (index : LineIndex) : Nat := index.lines.size

/-- Whether line `i` starts at or before `offset`. -/
def startsBy (index : LineIndex) (offset i : Nat) : Bool :=
  match index.lines[i]? with
  | some line => line.start ≤ offset
  | none => false

/-- The line of `offset`, counted from 0: the last one that starts at or before it. -/
def lineOf (index : LineIndex) (offset : Nat) : Nat :=
  bisect (index.startsBy (min offset index.textLength)) 0 index.lines.size - 1

/-- The line and column of `offset`, counted from 0. -/
def lineColumn (index : LineIndex) (offset : Nat) : Nat × Nat :=
  let i := index.lineOf offset
  match index.lines[i]? with
  | some line => (i, min (min offset index.textLength) line.stop - line.start)
  | none => (i, 0)

/-- The location of `offset`, with line and column counted from `base`. -/
def position (index : LineIndex) (offset base : Nat) : Position :=
  let (line, column) := index.lineColumn offset
  ⟨offset, line + base, column + base⟩

end LineIndex

end CallAlign
