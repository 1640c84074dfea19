import CallAlign.Proofs.Alignment.Verdict
import CallAlign.Proofs.Source.LineColumns

/-!
# The positions of operations

An operation says where a call and the name of its method start and end, each by offset and by line
and column.

**Theorem (`positions_in_order`).** The start comes no later than the end, whichever way they are
compared. The name behind a receiver takes up the end of the text it shares with the receiver, and
as many bytes as the name has, unless there are fewer. Counting from 1 instead of 0 adds 1 to every
line and column and leaves the rest of a run as it is.

That positions are in order comes from two sides: the offsets because spans run forward, and the
lines and columns because they keep the order of offsets (`LineIndex.lineColumn_mono`). How lines
and columns are counted is up to the operation made of a call and its instruction alone, so the two
ways of counting are compared call by call, along one cursor.
-/

namespace CallAlign

namespace Position

/-- `p` comes no later than `q`, by offset as well as by line and column. -/
structure NoLater (p q : Position) : Prop where
  offset : p.offset ≤ q.offset
  lineColumn : toLex (p.line, p.column) ≤ toLex (q.line, q.column)

/-- The position with one more line and one more column. -/
def countFromOne (p : Position) : Position :=
  { p with line := p.line + 1, column := p.column + 1 }

end Position

/-! ## Positions of a text -/

namespace LineIndex

theorem position_noLater (bytes : List UInt8) {a b : Nat} (h : a ≤ b) (base : Nat) :
    ((ofBytes bytes).position a base).NoLater ((ofBytes bytes).position b base) := by
  refine ⟨h, ?_⟩
  have hmono := Prod.Lex.toLex_le_toLex.1 (lineColumn_mono bytes h)
  rw [Prod.Lex.toLex_le_toLex]
  show ((ofBytes bytes).lineColumn a).1 + base < ((ofBytes bytes).lineColumn b).1 + base ∨
    ((ofBytes bytes).lineColumn a).1 + base = ((ofBytes bytes).lineColumn b).1 + base ∧
      ((ofBytes bytes).lineColumn a).2 + base ≤ ((ofBytes bytes).lineColumn b).2 + base
  omega

/-- In a text that is short enough, lines and columns are words, also when counted from 1. -/
theorem position_lt_size {bytes : List UInt8} (hshort : bytes.length < UInt32.size - 1)
    (offset : Nat) {base : Nat} (hbase : base ≤ 1) :
    ((ofBytes bytes).position offset base).line < UInt32.size ∧
      ((ofBytes bytes).position offset base).column < UInt32.size := by
  obtain ⟨hline, hcolumn⟩ := lineColumn_le bytes offset
  constructor
  · show ((ofBytes bytes).lineColumn offset).1 + base < UInt32.size
    omega
  · show ((ofBytes bytes).lineColumn offset).2 + base < UInt32.size
    omega

end LineIndex

/-! ## The name behind a receiver -/

namespace Span

/-- Where the last `n` bytes of a span start: so many in front of its end, but not in front of its
start, and at its start when the end is less than `n`. -/
def lastStart (s : Span) (n : Nat) : Nat :=
  if n ≤ s.stop then max (s.stop - n) s.start else s.start

theorem ofBounds_self (s : Span) : ofBounds s.start s.stop = .ok s := dif_pos s.start_le_stop

theorem ofBounds_lastStart (s : Span) (n : Nat) :
    ofBounds (s.lastStart n) s.stop = .ok (s.suffix n) := by
  have hle := s.start_le_stop
  have hstart : s.lastStart n = (s.suffix n).start := by
    unfold lastStart suffix
    split
    · exact Nat.max_comm ..
    · simp only
      omega
  rw [hstart]
  exact ofBounds_self (s.suffix n)

theorem length_suffix (s : Span) (n : Nat) : (s.suffix n).length = min n s.length := by
  have hle := s.start_le_stop
  simp only [length, suffix]
  omega

theorem start_le_suffix (s : Span) (n : Nat) : s.start ≤ (s.suffix n).start := Nat.le_max_left ..

end Span

theorem Call.methodSpan_of_site {call : Call} {resolver : Resolver} {site : CallSite}
    (h : call.site resolver = .ok site) : site.methodSpan = call.callee.methodSpan := by
  unfold Call.site at h
  cases htype : call.callee.declaringType resolver with
  | error reason =>
    rw [htype] at h
    cases h
  | ok name =>
    rw [htype] at h
    cases h
    rfl

/-! ## Counting from 0 and from 1 -/

/-- The operation with its four positions counted from 1. -/
def Operation.countFromOne (op : Operation) : Operation :=
  { op with
    startPosition := op.startPosition.countFromOne
    endPosition := op.endPosition.countFromOne
    methodStartPosition := op.methodStartPosition.countFromOne
    methodEndPosition := op.methodEndPosition.countFromOne }

/-- The alignment with the positions of all operations counted from 1. -/
def Alignment.countFromOne (a : Alignment) : Alignment :=
  ⟨a.operations.map Operation.countFromOne⟩

namespace Request

/-- The request with lines and columns counted from 1, or from 0, and all else as it is. -/
def counting (request : Request) (oneBased : Bool) : Request :=
  { request with settings := { request.settings with oneBasedPositions := oneBased } }

section

variable (request : Request) (oneBased : Bool)

@[simp] theorem counting_code : (request.counting oneBased).code = request.code := rfl

@[simp] theorem counting_ranges : (request.counting oneBased).ranges = request.ranges := rfl

@[simp] theorem counting_resolver : (request.counting oneBased).resolver = request.resolver := rfl

@[simp] theorem counting_calls : (request.counting oneBased).calls = request.calls := rfl

@[simp] theorem counting_skips (call : Call) :
    (request.counting oneBased).skips call = request.skips call := rfl

end

/-- The way of counting is up to the operation that a call makes. -/
theorem operation_counting (request : Request) (call : Call) (site : CallSite) (offset : Nat) :
    (request.counting true).operation call site offset =
      ((request.counting false).operation call site offset).countFromOne := rfl

theorem matchCalls_counting (request : Request) (cursor : Cursor) (calls : List Call) :
    (request.counting true).matchCalls cursor calls =
      ((request.counting false).matchCalls cursor calls).map
        (List.map Operation.countFromOne) := by
  induction calls generalizing cursor with
  | nil =>
    simp only [matchCalls, counting_code]
    cases (cursor.nextCall request.code).found <;> rfl
  | cons call rest ih =>
    cases hfound : (cursor.nextCall request.code).found with
    | none => simp [matchCalls, hfound, Run.map, Except.map]
    | some offset =>
      cases hskip : request.skips call with
      | true => simp [matchCalls, hfound, hskip, ih, Run.map_after]
      | false =>
        cases hsite : call.site request.resolver with
        | error reason => simp [matchCalls, hfound, hskip, hsite, Run.map, Except.map]
        | ok site =>
          simp [matchCalls, hfound, hskip, hsite, ih, operation_counting, Run.map_map,
            Run.map_after]

/-- **Counting from 1.** Counting lines and columns from 1 instead of 0 changes a run by that alone,
in its result and in its log. -/
theorem run_counting (request : Request) :
    (request.counting true).run = (request.counting false).run.map Alignment.countFromOne := by
  unfold run
  simp only [counting_code, counting_ranges, counting_calls, matchCalls_counting]
  cases request.ranges.excess? request.code.size with
  | some fault => rfl
  | none =>
    simp only [Run.map_map]
    congr 1
    funext operations
    simp [Alignment.countFromOne]

/-! ## Positions in an alignment -/

/-- Every operation of an alignment is made of a call and a call instruction of the request. -/
theorem exists_call_of_mem {request : Request} {alignment : Alignment}
    (h : request.align = .ok alignment) {op : Operation} (hop : op ∈ alignment.operations) :
    ∃ call ∈ request.calls, ∃ offset ∈ request.callOffsets, ∃ site,
      call.site request.resolver = .ok site ∧ op = request.operation call site offset := by
  have hverdict := verdict_align request
  rw [h] at hverdict
  cases hverdict with
  | @aligned fits operations free all made =>
    obtain ⟨i, hi, rfl⟩ := List.mem_iff_getElem.1 (List.mem_toArray.1 hop)
    have hi' : i < (request.keptPairs request.calls request.callOffsets).length :=
      made.length_eq ▸ hi
    have hpair := List.of_mem_zip (List.mem_filter.1 (List.getElem_mem hi')).1
    obtain ⟨site, hsite, hop⟩ := made.get hi' hi
    exact ⟨_, hpair.1, _, hpair.2, site, hsite, hop⟩

/-- **Positions are in order.** In any text the position of an earlier offset comes no later, and if
the text has less than `UInt32.size - 1` bytes, lines and columns counted from 0 or 1 are 32-bit
words. So in every alignment an operation starts no later than it ends, and so does the name of its
method, at the offsets of the call that the operation is made of. The name behind a receiver ends
where the whole ends, starts no earlier, and has as many bytes as the name, or all there are; its
bounds always make a span. Counting from 1 adds 1 to every line and column and changes nothing else
in a run. -/
theorem positions_in_order (request : Request) (text : String) :
    let index := LineIndex.ofText text
    (∀ a b base : Nat, a ≤ b → (index.position a base).NoLater (index.position b base)) ∧
    (text.utf8ByteSize < UInt32.size - 1 → ∀ offset base : Nat, base ≤ 1 →
      (index.position offset base).line < UInt32.size ∧
      (index.position offset base).column < UInt32.size) ∧
    (∀ alignment : Alignment, { request with lineIndex := index }.align = .ok alignment →
      ∀ op ∈ alignment.operations,
        op.startPosition.NoLater op.endPosition ∧
        op.methodStartPosition.NoLater op.methodEndPosition ∧
        ∃ call ∈ request.calls, op.node = call.id ∧
          op.startPosition.offset = call.span.start ∧ op.endPosition.offset = call.span.stop ∧
          op.methodStartPosition.offset = call.callee.methodSpan.start ∧
          op.methodEndPosition.offset = call.callee.methodSpan.stop) ∧
    (∀ (name : String) (select : Span) (receiver : SubExpr),
      let method := (Callee.member name select receiver).methodSpan
      method.stop = select.stop ∧ select.start ≤ method.start ∧
      method.length = min name.utf8ByteSize select.length ∧
      Span.ofBounds (select.lastStart name.utf8ByteSize) select.stop = .ok method) ∧
    (request.counting true).run = (request.counting false).run.map Alignment.countFromOne := by
  intro index
  have hposition : ∀ {a b : Nat}, a ≤ b → ∀ base : Nat,
      (index.position a base).NoLater (index.position b base) :=
    LineIndex.position_noLater text.toUTF8.data.toList
  refine ⟨fun a b base h => hposition h base, ?_, ?_, ?_, run_counting request⟩
  · intro hshort offset base hbase
    exact LineIndex.position_lt_size hshort offset hbase
  · intro alignment halign op hop
    obtain ⟨call, hcall, offset, -, site, hsite, rfl⟩ := exists_call_of_mem halign hop
    have hmethod := Call.methodSpan_of_site hsite
    refine ⟨hposition call.span.start_le_stop _, hposition site.methodSpan.start_le_stop _, call,
      hcall, rfl, rfl, rfl, congrArg Span.start hmethod, congrArg Span.stop hmethod⟩
  · intro name select receiver
    exact ⟨rfl, select.start_le_suffix _, select.length_suffix _, select.ofBounds_lastStart _⟩

/-- A call of a method whose receiver stands on the line before. -/
def brokenSelect : Request where
  nodes :=
    [.call ⟨⟨1⟩, { start := 0, stop := 10 },
      .member "cde" { start := 0, stop := 8 } ⟨⟨2⟩, { start := 0, stop := 2 }⟩, false⟩]
  ranges := ⟨[⟨0, 3⟩], by decide, by decide⟩
  code := ⟨#[182, 0, 0], by decide⟩
  resolver := ⟨fun _ => .declared ⟨"A"⟩, fun _ => none⟩
  lineIndex := .ofText "ab\r\n.cde()"

/-- The operation of the call in `brokenSelect`. -/
def brokenSelectOperation : Operation where
  node := ⟨1⟩
  startPosition := ⟨0, 1, 1⟩
  endPosition := ⟨10, 2, 7⟩
  methodStartPosition := ⟨5, 2, 2⟩
  methodEndPosition := ⟨8, 2, 5⟩
  methodName := "cde"
  declaringType := ⟨"A"⟩
  bytecodeOffset := 0

theorem positions_brokenSelect :
    brokenSelect.align = .ok ⟨#[brokenSelectOperation]⟩ ∧
    brokenSelectOperation.startPosition.NoLater brokenSelectOperation.endPosition ∧
    brokenSelectOperation.methodStartPosition.NoLater brokenSelectOperation.methodEndPosition ∧
    (brokenSelect.lineIndex.position 3 1).NoLater (brokenSelect.lineIndex.position 4 1) ∧
    (brokenSelect.lineIndex.position 0xffffffff 1).line < UInt32.size := by
  have halign : brokenSelect.align = .ok ⟨#[brokenSelectOperation]⟩ := by decide +kernel
  obtain ⟨hmono, hwords, hoperations, -⟩ := positions_in_order brokenSelect "ab\r\n.cde()"
  obtain ⟨hcall, hmethod, -⟩ := hoperations _ halign brokenSelectOperation (by simp)
  exact ⟨halign, hcall, hmethod, hmono 3 4 1 (by decide),
    (hwords (by decide) 0xffffffff 1 (by decide)).1⟩

end Request

end CallAlign
