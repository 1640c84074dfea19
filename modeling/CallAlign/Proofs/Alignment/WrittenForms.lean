import Mathlib.Data.List.Forall2
import Mathlib.Data.List.Nodup
import CallAlign.Alignment.Data

/-!
# The forms of an alignment as data

A record is written as a table or as an array of its values. A table may hold its keys in any order
and other keys besides, and a record inside a record has the same choice again, so one alignment has
many written forms (`Alignment.WrittenAs`), of which `Alignment.toValue` is one.

**Theorem (`written_forms_read_back`).** Reading any of them gives the alignment back, as long as
its numbers are words of the width they are read with.

A table is read entry by entry into a draft. For a table that gives a record, the draft after some
entries is told by their keys alone: it holds the record's own value for each of them, and nothing
for the rest (`known`). One step lemma per record says so for one entry, and what a whole table
gives follows for all records alike (`foldlM_known`).
-/

namespace CallAlign

/-! ## Records -/

/-- A field of a record: its key, and the values that it may be written as. -/
structure Field where
  key : String
  Accepts : Value → Prop

/-- The items stand for the fields, one by one in order. -/
def Filled (fields : List Field) (items : List Value) : Prop :=
  List.Forall₂ Field.Accepts fields items

/-- The entries hold a value for each field under its key, in any order and among any other entries,
all keys being distinct. -/
structure Tabulated (fields : List Field) (entries : List (String × Value)) : Prop where
  distinct : (entries.map Prod.fst).Nodup
  order : ∃ (items : List Value) (others : List (String × Value)), Filled fields items ∧
    entries.Perm ((fields.map Field.key).zip items ++ others)

/-- The forms of a record: an array of its values in order, or a table of them. -/
inductive WrittenRecord (fields : List Field) : Value → Prop
  | array {items : List Value} (filled : Filled fields items) : WrittenRecord fields (.array items)
  | table {entries : List (String × Value)} (tabulated : Tabulated fields entries) :
      WrittenRecord fields (.table entries)

/-- If the entry has the key of a field, then also a value for it. -/
def Agrees (fields : List Field) (entry : String × Value) : Prop :=
  ∀ f ∈ fields, f.key = entry.1 → f.Accepts entry.2

theorem Filled.exists_mem_zip {fields : List Field} {items : List Value}
    (filled : Filled fields items) {f : Field} (hf : f ∈ fields) :
    ∃ v, (f.key, v) ∈ (fields.map Field.key).zip items ∧ f.Accepts v := by
  induction filled with
  | nil => simp at hf
  | @cons first v fields items hfirst _ ih =>
    rcases List.mem_cons.1 hf with rfl | hf
    · exact ⟨v, by simp, hfirst⟩
    · obtain ⟨w, hmem, haccepts⟩ := ih hf
      exact ⟨w, List.mem_cons_of_mem _ hmem, haccepts⟩

theorem Filled.exists_item {fields : List Field} {items : List Value}
    (filled : Filled fields items) {k : Nat} {f : Field} (hf : fields[k]? = some f)
    (record : String) (count : Nat) :
    ∃ v, Value.item record count items k = .ok v ∧ f.Accepts v := by
  obtain ⟨hk, rfl⟩ := List.getElem?_eq_some_iff.1 hf
  have hk' : k < items.length := filled.length_eq ▸ hk
  refine ⟨items[k], ?_, filled.get hk hk'⟩
  rw [Value.item, List.getElem?_eq_getElem hk']

namespace Tabulated

variable {fields : List Field} {entries : List (String × Value)}

theorem exists_entry (h : Tabulated fields entries) {f : Field} (hf : f ∈ fields) :
    ∃ v, (f.key, v) ∈ entries ∧ f.Accepts v := by
  obtain ⟨items, others, filled, order⟩ := h.order
  obtain ⟨v, hmem, haccepts⟩ := filled.exists_mem_zip hf
  exact ⟨v, order.symm.subset (List.mem_append_left _ hmem), haccepts⟩

theorem key_mem (h : Tabulated fields entries) {f : Field} (hf : f ∈ fields) :
    f.key ∈ entries.map Prod.fst := by
  obtain ⟨v, hmem, -⟩ := h.exists_entry hf
  exact List.mem_map_of_mem hmem

theorem agrees (h : Tabulated fields entries) {entry : String × Value} (hentry : entry ∈ entries) :
    Agrees fields entry := by
  intro f hf hkey
  obtain ⟨v, hmem, haccepts⟩ := h.exists_entry hf
  -- The key stands in the table only once.
  have hsame : (f.key, v) = entry := List.inj_on_of_nodup_map h.distinct hmem hentry hkey
  rw [← hsame]
  exact haccepts

end Tabulated

/-! ## Drafts -/

/-- What entries with the keys `given` say of a field whose value is `a`. -/
def ifGiven {α : Type} (key : String) (given : List String) (a : α) : Option α :=
  if key ∈ given then some a else none

section

variable {α : Type} {key other : String} {given : List String} {a : α}

theorem ifGiven_of_mem (h : key ∈ given) : ifGiven key given a = some a := if_pos h

@[simp] theorem ifGiven_nil : ifGiven key [] a = none := by simp [ifGiven]

@[simp] theorem ifGiven_cons_self : ifGiven key (key :: given) a = some a := by simp [ifGiven]

@[simp] theorem ifGiven_cons_of_ne (h : key ≠ other) :
    ifGiven key (other :: given) a = ifGiven key given a := by
  simp [ifGiven, h]

end

/-- What entries add to a draft that is told by the keys read so far. -/
theorem foldlM_known {Draft : Type} {read : Draft → String × Value → Except ReadError Draft}
    {known : List String → Draft} {entries : List (String × Value)}
    (step : ∀ entry ∈ entries, ∀ given,
      read (known given) entry = .ok (known (entry.1 :: given))) (given : List String) :
    entries.foldlM read (known given) =
      .ok (known ((entries.map Prod.fst).reverse ++ given)) := by
  induction entries generalizing given with
  | nil => rfl
  | cons entry rest ih =>
    have hrest := ih (fun later hlater => step later (List.mem_cons_of_mem _ hlater))
      (entry.1 :: given)
    rw [List.foldlM_cons, step entry List.mem_cons_self]
    simpa [bind, Except.bind] using hrest

/-- The table of a record is read to a draft that knows every field. -/
theorem Tabulated.exists_foldlM {fields : List Field} {entries : List (String × Value)}
    (h : Tabulated fields entries) {Draft : Type}
    {read : Draft → String × Value → Except ReadError Draft} {known : List String → Draft}
    (step : ∀ entry, Agrees fields entry → ∀ given,
      read (known given) entry = .ok (known (entry.1 :: given))) :
    ∃ given, (∀ f ∈ fields, f.key ∈ given) ∧
      entries.foldlM read (known []) = .ok (known given) := by
  refine ⟨_, ?_, foldlM_known (fun entry hentry => step entry (h.agrees hentry)) []⟩
  intro f hf
  rw [List.append_nil, List.mem_reverse]
  exact h.key_mem hf

/-! ## Scalars -/

theorem asNat_int {n limit : Nat} (h : n < limit) (expected : Expected) :
    (Value.int n).asNat limit expected = .ok n := by
  simp only [Value.asNat]
  rw [if_pos ⟨by omega, by omega⟩]
  rfl

theorem asWord32_of_eq {n : Nat} (h : n < UInt32.size) {v : Value} (hv : v = .int n) :
    v.asWord32 = .ok n := by
  rw [hv]
  exact asNat_int h .word32

theorem asWord64_of_eq {n : Nat} (h : n < UInt64.size) {v : Value} (hv : v = .int n) :
    v.asWord64 = .ok n := by
  rw [hv]
  exact asNat_int h .word64

theorem asText_of_eq {text : String} {v : Value} (hv : v = .string text) : v.asText = .ok text := by
  rw [hv]
  rfl

/-! ## Positions -/

namespace Position

/-- The numbers of the position are 32-bit words. -/
structure Fits (p : Position) : Prop where
  offset : p.offset < UInt32.size
  line : p.line < UInt32.size
  column : p.column < UInt32.size

def fields (p : Position) : List Field :=
  [⟨"offset", (· = .int p.offset)⟩, ⟨"line", (· = .int p.line)⟩, ⟨"column", (· = .int p.column)⟩]

/-- `v` is a written form of the position. -/
def WrittenAs (p : Position) (v : Value) : Prop := WrittenRecord p.fields v

theorem writtenAs_toValue (p : Position) : p.WrittenAs p.toValue := by
  have filled : Filled p.fields [.int p.offset, .int p.line, .int p.column] := by
    simp [Filled, fields]
  refine .table ⟨?_, _, [], filled, .refl _⟩
  show ["offset", "line", "column"].Nodup
  decide

/-- What entries with the keys `given` say of the position. -/
def known (p : Position) (given : List String) : Draft where
  offset := ifGiven "offset" given p.offset
  line := ifGiven "line" given p.line
  column := ifGiven "column" given p.column

theorem readEntry_known {p : Position} (fits : p.Fits) {entry : String × Value}
    (agrees : Agrees p.fields entry) (given : List String) :
    (p.known given).readEntry entry = .ok (p.known (entry.1 :: given)) := by
  obtain ⟨key, v⟩ := entry
  simp only [Agrees, fields, List.mem_cons, List.not_mem_nil, or_false, forall_eq_or_imp,
    forall_eq] at agrees
  obtain ⟨hoffset, hline, hcolumn⟩ := agrees
  unfold Draft.readEntry
  split
  · rename_i hkey
    subst hkey
    simp [known, asWord32_of_eq fits.offset (hoffset rfl), Except.map]
  · rename_i hkey
    subst hkey
    simp [known, asWord32_of_eq fits.line (hline rfl), Except.map]
  · rename_i hkey
    subst hkey
    simp [known, asWord32_of_eq fits.column (hcolumn rfl), Except.map]
  · rename_i hoffset hline hcolumn
    simp [known, Ne.symm hoffset, Ne.symm hline, Ne.symm hcolumn]

theorem known_of_all {p : Position} {given : List String}
    (hkeys : ∀ f ∈ p.fields, f.key ∈ given) :
    p.known given = ⟨some p.offset, some p.line, some p.column⟩ := by
  simp only [fields, List.mem_cons, List.not_mem_nil, or_false, forall_eq_or_imp,
    forall_eq] at hkeys
  simp [known, ifGiven_of_mem, hkeys]

theorem ofEntries_of_tabulated {p : Position} (fits : p.Fits) {entries : List (String × Value)}
    (h : Tabulated p.fields entries) : ofEntries entries = .ok p := by
  have hempty : p.known [] = {} := by simp [known]
  obtain ⟨given, hkeys, hread⟩ := h.exists_foldlM fun _ => readEntry_known fits
  rw [hempty, known_of_all hkeys] at hread
  rw [ofEntries, hread]
  rfl

theorem ofItems_of_filled {p : Position} (fits : p.Fits) {items : List Value}
    (filled : Filled p.fields items) : ofItems items = .ok p := by
  have hlength : items.length = 3 := filled.length_eq.symm
  have hitem := fun k f (hf : p.fields[k]? = some f) => filled.exists_item hf "Position" 3
  obtain ⟨_, hoffset, hoffset'⟩ := hitem 0 _ rfl
  obtain ⟨_, hline, hline'⟩ := hitem 1 _ rfl
  obtain ⟨_, hcolumn, hcolumn'⟩ := hitem 2 _ rfl
  simp [ofItems, hoffset, hline, hcolumn, hlength, asWord32_of_eq fits.offset hoffset',
    asWord32_of_eq fits.line hline', asWord32_of_eq fits.column hcolumn', bind, Except.bind, pure,
    Except.pure]

theorem ofValue_of_written {p : Position} (fits : p.Fits) {v : Value} (h : p.WrittenAs v) :
    ofValue v = .ok p := by
  cases h with
  | array filled => exact ofItems_of_filled fits filled
  | table tabulated => exact ofEntries_of_tabulated fits tabulated

end Position

/-! ## Operations -/

namespace Operation

/-- The numbers of the operation are words: its code offset one of 64 bits, all others of 32. -/
structure Fits (op : Operation) : Prop where
  node : op.node.number < UInt32.size
  startPosition : op.startPosition.Fits
  endPosition : op.endPosition.Fits
  methodStartPosition : op.methodStartPosition.Fits
  methodEndPosition : op.methodEndPosition.Fits
  bytecodeOffset : op.bytecodeOffset < UInt64.size

def fields (op : Operation) : List Field :=
  [⟨"node", (· = .int op.node.number)⟩, ⟨"startPosition", op.startPosition.WrittenAs⟩,
   ⟨"endPosition", op.endPosition.WrittenAs⟩,
   ⟨"methodStartPosition", op.methodStartPosition.WrittenAs⟩,
   ⟨"methodEndPosition", op.methodEndPosition.WrittenAs⟩,
   ⟨"methodName", (· = .string op.methodName)⟩,
   ⟨"declaringType", (· = .string op.declaringType.text)⟩,
   ⟨"bytecodeOffset", (· = .int op.bytecodeOffset)⟩]

/-- `v` is a written form of the operation. -/
def WrittenAs (op : Operation) (v : Value) : Prop := WrittenRecord op.fields v

theorem writtenAs_toValue (op : Operation) : op.WrittenAs op.toValue := by
  have filled : Filled op.fields
      [.int op.node.number, op.startPosition.toValue, op.endPosition.toValue,
        op.methodStartPosition.toValue, op.methodEndPosition.toValue, .string op.methodName,
        .string op.declaringType.text, .int op.bytecodeOffset] := by
    simp [Filled, fields, Position.writtenAs_toValue]
  refine .table ⟨?_, _, [], filled, .refl _⟩
  show ["node", "startPosition", "endPosition", "methodStartPosition", "methodEndPosition",
    "methodName", "declaringType", "bytecodeOffset"].Nodup
  decide

/-- What entries with the keys `given` say of the operation. -/
def known (op : Operation) (given : List String) : Draft where
  node := ifGiven "node" given op.node
  startPosition := ifGiven "startPosition" given op.startPosition
  endPosition := ifGiven "endPosition" given op.endPosition
  methodStartPosition := ifGiven "methodStartPosition" given op.methodStartPosition
  methodEndPosition := ifGiven "methodEndPosition" given op.methodEndPosition
  methodName := ifGiven "methodName" given op.methodName
  declaringType := ifGiven "declaringType" given op.declaringType
  bytecodeOffset := ifGiven "bytecodeOffset" given op.bytecodeOffset

theorem readEntry_known {op : Operation} (fits : op.Fits) {entry : String × Value}
    (agrees : Agrees op.fields entry) (given : List String) :
    (op.known given).readEntry entry = .ok (op.known (entry.1 :: given)) := by
  obtain ⟨key, v⟩ := entry
  simp only [Agrees, fields, List.mem_cons, List.not_mem_nil, or_false, forall_eq_or_imp,
    forall_eq] at agrees
  obtain ⟨hnode, hstart, hend, hmethodStart, hmethodEnd, hname, htype, hoffset⟩ := agrees
  unfold Draft.readEntry
  split
  · rename_i hkey
    subst hkey
    simp [known, asWord32_of_eq fits.node (hnode rfl), Except.map]
  · rename_i hkey
    subst hkey
    simp [known, Position.ofValue_of_written fits.startPosition (hstart rfl), Except.map]
  · rename_i hkey
    subst hkey
    simp [known, Position.ofValue_of_written fits.endPosition (hend rfl), Except.map]
  · rename_i hkey
    subst hkey
    simp [known, Position.ofValue_of_written fits.methodStartPosition (hmethodStart rfl),
      Except.map]
  · rename_i hkey
    subst hkey
    simp [known, Position.ofValue_of_written fits.methodEndPosition (hmethodEnd rfl), Except.map]
  · rename_i hkey
    subst hkey
    simp [known, asText_of_eq (hname rfl), Except.map]
  · rename_i hkey
    subst hkey
    simp [known, asText_of_eq (htype rfl), Except.map]
  · rename_i hkey
    subst hkey
    simp [known, asWord64_of_eq fits.bytecodeOffset (hoffset rfl), Except.map]
  · rename_i hnode hstart hend hmethodStart hmethodEnd hname htype hoffset
    simp [known, Ne.symm hnode, Ne.symm hstart, Ne.symm hend, Ne.symm hmethodStart,
      Ne.symm hmethodEnd, Ne.symm hname, Ne.symm htype, Ne.symm hoffset]

/-- The draft with every field of the operation. -/
def complete (op : Operation) : Draft where
  node := some op.node
  startPosition := some op.startPosition
  endPosition := some op.endPosition
  methodStartPosition := some op.methodStartPosition
  methodEndPosition := some op.methodEndPosition
  methodName := some op.methodName
  declaringType := some op.declaringType
  bytecodeOffset := some op.bytecodeOffset

theorem known_of_all {op : Operation} {given : List String}
    (hkeys : ∀ f ∈ op.fields, f.key ∈ given) : op.known given = op.complete := by
  simp only [fields, List.mem_cons, List.not_mem_nil, or_false, forall_eq_or_imp,
    forall_eq] at hkeys
  simp [known, complete, ifGiven_of_mem, hkeys]

theorem ofEntries_of_tabulated {op : Operation} (fits : op.Fits) {entries : List (String × Value)}
    (h : Tabulated op.fields entries) : ofEntries entries = .ok op := by
  have hempty : op.known [] = {} := by simp [known]
  obtain ⟨given, hkeys, hread⟩ := h.exists_foldlM fun _ => readEntry_known fits
  rw [hempty, known_of_all hkeys] at hread
  rw [ofEntries, hread]
  rfl

theorem ofItems_of_filled {op : Operation} (fits : op.Fits) {items : List Value}
    (filled : Filled op.fields items) : ofItems items = .ok op := by
  have hlength : items.length = 8 := filled.length_eq.symm
  have hitem := fun k f (hf : op.fields[k]? = some f) => filled.exists_item hf "Operation" 8
  obtain ⟨_, hnode, hnode'⟩ := hitem 0 _ rfl
  obtain ⟨_, hstart, hstart'⟩ := hitem 1 _ rfl
  obtain ⟨_, hend, hend'⟩ := hitem 2 _ rfl
  obtain ⟨_, hmethodStart, hmethodStart'⟩ := hitem 3 _ rfl
  obtain ⟨_, hmethodEnd, hmethodEnd'⟩ := hitem 4 _ rfl
  obtain ⟨_, hname, hname'⟩ := hitem 5 _ rfl
  obtain ⟨_, htype, htype'⟩ := hitem 6 _ rfl
  obtain ⟨_, hoffset, hoffset'⟩ := hitem 7 _ rfl
  simp [ofItems, hnode, hstart, hend, hmethodStart, hmethodEnd, hname, htype, hoffset, hlength,
    asWord32_of_eq fits.node hnode', Position.ofValue_of_written fits.startPosition hstart',
    Position.ofValue_of_written fits.endPosition hend',
    Position.ofValue_of_written fits.methodStartPosition hmethodStart',
    Position.ofValue_of_written fits.methodEndPosition hmethodEnd', asText_of_eq hname',
    asText_of_eq htype', asWord64_of_eq fits.bytecodeOffset hoffset', bind, Except.bind, pure,
    Except.pure]

theorem ofValue_of_written {op : Operation} (fits : op.Fits) {v : Value} (h : op.WrittenAs v) :
    ofValue v = .ok op := by
  cases h with
  | array filled => exact ofItems_of_filled fits filled
  | table tabulated => exact ofEntries_of_tabulated fits tabulated

end Operation

/-! ## Alignments -/

theorem mapM_eq_ok {α β : Type} {f : β → Except ReadError α} {as : List α} {bs : List β}
    (h : List.Forall₂ (fun a b => f b = .ok a) as bs) : bs.mapM f = .ok as := by
  induction h with
  | nil => rfl
  | cons hb _ ih =>
    rw [List.mapM_cons, hb, ih]
    rfl

namespace Alignment

/-- `v` is a written form of the alignment: an array with a written form of each operation. -/
def WrittenAs (a : Alignment) (v : Value) : Prop :=
  ∃ items : List Value, v = .array items ∧
    List.Forall₂ Operation.WrittenAs a.operations.toList items

theorem writtenAs_toValue (a : Alignment) : a.WrittenAs a.toValue := by
  refine ⟨_, rfl, ?_⟩
  rw [List.forall₂_map_right_iff, List.forall₂_same]
  intro op _
  exact op.writtenAs_toValue

theorem ofValue_of_written {a : Alignment} (fits : ∀ op ∈ a.operations, op.Fits) {v : Value}
    (h : a.WrittenAs v) : ofValue v = .ok a := by
  obtain ⟨items, rfl, hitems⟩ := h
  have hfits : List.Forall₂ (fun op v => op.Fits ∧ op.WrittenAs v) a.operations.toList items := by
    rw [List.forall₂_and_left]
    exact ⟨fun op hop => fits op (Array.mem_toList_iff.1 hop), hitems⟩
  have hoperations : List.Forall₂ (fun op v => Operation.ofValue v = .ok op)
      a.operations.toList items :=
    hfits.imp fun op v h => Operation.ofValue_of_written h.1 h.2
  rw [ofValue, mapM_eq_ok hoperations]
  rfl

/-- **Reading undoes writing.** Take an alignment whose numbers are words. Its data form is one of
its written forms, and reading any of these gives the alignment back. -/
theorem written_forms_read_back (a : Alignment) (fits : ∀ op ∈ a.operations, op.Fits) :
    a.WrittenAs a.toValue ∧ ofValue a.toValue = .ok a ∧
      ∀ v, a.WrittenAs v → ofValue v = .ok a := by
  refine ⟨a.writtenAs_toValue, ofValue_of_written fits a.writtenAs_toValue, ?_⟩
  intro v hwritten
  exact ofValue_of_written fits hwritten

/-- Numbers at their limits. -/
def farPosition : Position := ⟨0xffffffff, 0xffffffff, 0xffffffff⟩

def farOperation : Operation where
  node := ⟨0xffffffff⟩
  startPosition := farPosition
  endPosition := ⟨7, 1, 8⟩
  methodStartPosition := farPosition
  methodEndPosition := farPosition
  methodName := "<init>"
  declaringType := ⟨"app/Main$Inner"⟩
  bytecodeOffset := 0xffffffffffffffff

/-- `farOperation` with its keys from the last to the first behind an unknown one, and with its
positions in three forms. -/
def farValue : Value :=
  .table [("note", .null), ("bytecodeOffset", .int 0xffffffffffffffff),
    ("declaringType", .string "app/Main$Inner"), ("methodName", .string "<init>"),
    ("methodEndPosition", farPosition.toValue), ("methodStartPosition", farPosition.toValue),
    ("endPosition", .table [("note", .array []), ("column", .int 8), ("line", .int 1),
      ("offset", .int 7)]),
    ("startPosition", .array [.int 0xffffffff, .int 0xffffffff, .int 0xffffffff]),
    ("node", .int 0xffffffff)]

theorem farValue_reads_back : ofValue (.array [farValue]) = .ok ⟨#[farOperation]⟩ := by
  have hfar : farPosition.Fits := ⟨by decide, by decide, by decide⟩
  have hend : farOperation.endPosition.WrittenAs
      (.table [("note", .array []), ("column", .int 8), ("line", .int 1), ("offset", .int 7)]) := by
    have filled : Filled farOperation.endPosition.fields [.int 7, .int 1, .int 8] := by
      simp [Filled, Position.fields, farOperation]
    exact .table ⟨by decide, _, [("note", .array [])], filled, (List.reverse_perm _).symm⟩
  have hstart : farOperation.startPosition.WrittenAs
      (.array [.int 0xffffffff, .int 0xffffffff, .int 0xffffffff]) := by
    refine .array ?_
    simp [Filled, Position.fields, farOperation, farPosition]
  have hmethod : farPosition.WrittenAs farPosition.toValue := farPosition.writtenAs_toValue
  have hvalue : farOperation.WrittenAs farValue := by
    have filled : Filled farOperation.fields
        [.int 0xffffffff, .array [.int 0xffffffff, .int 0xffffffff, .int 0xffffffff],
          .table [("note", .array []), ("column", .int 8), ("line", .int 1), ("offset", .int 7)],
          farPosition.toValue, farPosition.toValue, .string "<init>", .string "app/Main$Inner",
          .int 0xffffffffffffffff] :=
      .cons rfl (.cons hstart (.cons hend (.cons hmethod (.cons hmethod
        (.cons rfl (.cons rfl (.cons rfl .nil)))))))
    exact .table ⟨by decide, _, [("note", .null)], filled, (List.reverse_perm _).symm⟩
  refine (written_forms_read_back ⟨#[farOperation]⟩ ?_).2.2 _ ⟨_, rfl, .cons hvalue .nil⟩
  intro op hop
  rw [Array.mem_singleton.1 hop]
  exact ⟨by decide, hfar, ⟨by decide, by decide, by decide⟩, hfar, hfar, by decide⟩

end Alignment

end CallAlign
