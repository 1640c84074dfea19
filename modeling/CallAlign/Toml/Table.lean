import CallAlign.Document.Value

/-!
# TOML tables

A TOML document is a list of statements that define the entries of tables: assignments, whose keys
may be dotted, and headers, which name the table that the assignments behind them fill. What has
been defined is not defined again: a table knows how it came to be, because that decides who may
still add to it.

* A table with a header of its own, and a value, inline tables included, is complete.
* A table that a longer header implied may get a header of its own, once.
* A table that dotted keys made may get more entries by dotted keys from the same section.
-/

namespace CallAlign.Toml

/-- How a table came to be. -/
inductive Origin where
  /-- It has a header of its own. -/
  | header
  /-- A header of a table inside it implied it. -/
  | implied
  /-- Dotted keys made it. -/
  | dotted
  deriving DecidableEq, Repr

/-- What a key of a table under construction holds. -/
inductive Item where
  | value (v : Value)
  | table (origin : Origin) (entries : List (String × Item))
  /-- The tables of one header between double brackets, the last one apart. -/
  | tables (earlier : List (List (String × Item))) (last : List (String × Item))

/-- The entries of a table under construction. -/
abbrev Entries := List (String × Item)

/-- A key, dotted or not. -/
structure Key where
  /-- The tables on the way. -/
  path : List String
  /-- The entry in the last of them. -/
  last : String
  deriving DecidableEq, Repr

/-- What a document says. -/
inductive Statement where
  | assign (key : Key) (v : Value)
  | table (key : Key)
  | tableArray (key : Key)

/-- The entries with what `name` holds changed by `f`, which sees nothing when it holds nothing. -/
def alter (name : String) (f : Option Item → Option Item) : Entries → Option Entries
  | [] => (f none).map fun item => [(name, item)]
  | (key, item) :: rest =>
    if key = name then (f (some item)).map fun item => (key, item) :: rest
    else (alter name f rest).map ((key, item) :: ·)

/-- The entries with a value under a key that has none, tables on the way made if needed. The last
table on the way has to be one that dotted keys made. -/
def assign (path : List String) (last : String) (v : Value) (entries : Entries) : Option Entries :=
  match path with
  | [] => alter last (fun item => if item.isSome then none else some (.value v)) entries
  | name :: more =>
    let inside := assign more last v
    alter name (fun item => match item with
      | none => (inside []).map (.table .dotted)
      | some (.table .dotted inner) => (inside inner).map (.table .dotted)
      | some (.table .implied inner) =>
        if more.isEmpty then none else (inside inner).map (.table .implied)
      | some (.tables earlier inner) =>
        if more.isEmpty then none else (inside inner).map (.tables earlier)
      | some (.table .header _) | some (.value _) => none) entries

/-- The entries with what stands under a header's key changed by `f`. The way there leads through
tables of every origin and through the last of an array of tables; missing ones are implied. -/
def within (path : List String) (last : String) (f : Option Item → Option Item)
    (entries : Entries) : Option Entries :=
  match path with
  | [] => alter last f entries
  | name :: more =>
    let inside := within more last f
    alter name (fun item => match item with
      | none => (inside []).map (.table .implied)
      | some (.table origin inner) => (inside inner).map (.table origin)
      | some (.tables earlier inner) => (inside inner).map (.tables earlier)
      | some (.value _) => none) entries

/-- An assignment of a value to a key. -/
structure Assignment where
  key : Key
  value : Value

/-- The entries with some assignments added in order. -/
def assignAll (assignments : List Assignment) (entries : Entries) : Option Entries :=
  assignments.foldlM (fun entries a => assign a.key.path a.key.last a.value entries) entries

/-- A header with the assignments behind it. -/
structure Section where
  key : Key
  /-- Whether the header stands between double brackets. -/
  isArray : Bool
  body : List Assignment

/-- The assignments in front of the first header, and the sections behind it. -/
def sections : List Statement → List Assignment × List Section
  | [] => ([], [])
  | .assign key v :: rest => (⟨key, v⟩ :: (sections rest).1, (sections rest).2)
  | .table key :: rest => ([], ⟨key, false, (sections rest).1⟩ :: (sections rest).2)
  | .tableArray key :: rest => ([], ⟨key, true, (sections rest).1⟩ :: (sections rest).2)

/-- What a section makes of what stood under its key. -/
def Section.fill (s : Section) (item : Option Item) : Option Item :=
  if s.isArray then
    match item with
    | none => (assignAll s.body []).map (.tables [])
    | some (.tables earlier last) => (assignAll s.body []).map (.tables (earlier ++ [last]))
    | some _ => none
  else
    match item with
    | none => (assignAll s.body []).map (.table .header)
    | some (.table .implied inner) => (assignAll s.body inner).map (.table .header)
    | some _ => none

/-- The entries of the document that some statements make up. -/
def build (statements : List Statement) : Option Entries := do
  let (front, rest) := sections statements
  let entries ← assignAll front []
  rest.foldlM (fun entries s => within s.key.path s.key.last s.fill entries) entries

mutual

def Item.toValue : Item → Value
  | .value v => v
  | .table _ entries => .table (entryValues entries)
  | .tables earlier last => .array (tableValues earlier ++ [.table (entryValues last)])

def entryValues : List (String × Item) → List (String × Value)
  | [] => []
  | (key, item) :: rest => (key, item.toValue) :: entryValues rest

def tableValues : List (List (String × Item)) → List Value
  | [] => []
  | entries :: rest => .table (entryValues entries) :: tableValues rest

end

end CallAlign.Toml
