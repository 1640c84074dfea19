import CallAlign.Proofs.Alignment.Pairing
import CallAlign.Proofs.Bytecode.ScanProgress

/-!
# Every loop ends

An alignment is a loop over the calls of the source, with a scan in every turn and one more at the
end. Each call that finds an instruction consumes it, so the alignment is a drain that may stop
early, and what lies ahead of its cursor goes down as in a drain.

**Theorem (`loops_make_progress`).** From every cursor over every code, the turns of a scan take
down what lies ahead of it, and so does finding a call and consuming it. So scans, drains and
alignments end, with what `Cursor.step`, `Cursor.drain` and `Request.run` give.

Nothing is asked of the cursor: its ranges may overlap, run backwards or lie past the code, and its
position may be anywhere. The code may be any bytes.
-/

namespace CallAlign

namespace Request

/-- An alignment under way: where its cursor stands, the calls without an instruction, and the
operations and events so far. -/
structure Underway where
  cursor : Cursor
  calls : List Call
  operations : List Operation
  events : List Event

/-- One turn of an alignment: the next call of the source takes the next call instruction. The
alignment is over when either has none left, or when the call cannot be described. -/
def matchTurn (request : Request) (s : Underway) : Turn Underway (Run (List Operation)) :=
  let scan := s.cursor.nextCall request.code
  let events := s.events ++ scan.moves.map .moved
  match s.calls, scan.found with
  | [], some offset => .done ⟨.error (.leftover offset), events ++ [.leftover offset]⟩
  | [], none => .done ⟨.ok s.operations, events⟩
  | call :: _, none => .done ⟨.error (.exhausted call.id), events ++ [.exhausted call.id]⟩
  | call :: rest, some offset =>
    let next := scan.cursor.consume request.code offset
    if request.skips call then
      .again ⟨next, rest, s.operations, events ++ [.claimed call.id offset]⟩
    else
      match call.site request.resolver with
      | .error reason =>
        .done ⟨.error (.undescribed call.id reason), events ++ [.undescribed call.id reason]⟩
      | .ok site =>
        .again ⟨next, rest, s.operations ++ [request.operation call site offset],
          events ++ [.matched call.id offset site.methodName site.declaringType]⟩

/-- What an alignment under way has to come to. -/
def outcome (request : Request) (s : Underway) : Run (List Operation) :=
  ((request.matchCalls s.cursor s.calls).map (s.operations ++ ·)).after s.events

theorem outcome_of_nothing (request : Request) (cursor : Cursor) (calls : List Call) :
    request.outcome ⟨cursor, calls, [], []⟩ = request.matchCalls cursor calls := by
  simp only [outcome, List.nil_append]
  exact Run.map_id _

theorem advances_matchTurn (request : Request) (s : Underway) :
    (request.matchTurn s).Advances (fun s => s.cursor.ahead) request.outcome s := by
  obtain ⟨cursor, calls, operations, events⟩ := s
  cases hfound : (cursor.nextCall request.code).found with
  | none =>
    -- No instruction is left, and the alignment is over, with a call left or without.
    cases calls <;>
      simp [matchTurn, Turn.Advances, outcome, matchCalls, hfound, Run.map, Run.after, Except.map]
  | some offset =>
    have hlt := Cursor.ahead_consume_lt hfound
    cases calls with
    | nil =>
      simp [matchTurn, Turn.Advances, outcome, matchCalls, hfound, Run.map, Run.after, Except.map]
    | cons call rest =>
      by_cases hskip : request.skips call = true
      · simp only [matchTurn, hfound, hskip, if_true]
        refine ⟨hlt, ?_⟩
        simp [outcome, matchCalls, hfound, hskip, Run.map_after, Run.after_after]
      · cases hsite : call.site request.resolver with
        | error reason =>
          simp [matchTurn, Turn.Advances, outcome, matchCalls, hfound, hskip, hsite, Run.map,
            Run.after, Except.map]
        | ok site =>
          simp only [matchTurn, hfound, hskip, hsite]
          refine ⟨hlt, ?_⟩
          simp [outcome, matchCalls, hfound, hskip, hsite, Run.map_after, Run.map_map,
            Run.after_after]

/-- **An alignment ends**, from every cursor and for every list of calls. -/
theorem match_ends (request : Request) (cursor : Cursor) (calls : List Call) :
    Turn.Ends request.matchTurn ⟨cursor, calls, [], []⟩ (request.matchCalls cursor calls) := by
  have hends := Turn.ends_of_advances request.advances_matchTurn ⟨cursor, calls, [], []⟩
  rwa [outcome_of_nothing] at hends

end Request

/-- **Every loop makes progress and ends.** Take any code and any cursor. The turns of a scan, one
or more, take down what lies ahead of the cursor, unless the scan is over; so do finding a call and
consuming it. Hence the scan that a step asks for ends, with what the step answers; a drain ends,
with all calls left; and the pairing of calls with instructions ends, whatever the request, the
cursor and the calls. So every run ends: its ranges are refused, or it is one such pairing. -/
theorem loops_make_progress (code : Code) :
    (∀ s t : Cursor.Underway, Relation.TransGen (Turn.GoesOn (Cursor.scanTurn code)) s t →
      t.cursor.ahead < s.cursor.ahead) ∧
    (∀ (c : Cursor) (offset : Nat), (c.nextCall code).found = some offset →
      ((c.nextCall code).cursor.consume code offset).ahead < c.ahead) ∧
    (∀ (c : Cursor) (step : Cursor.Step), step.scans = true →
      ∃ scan, Turn.Ends (Cursor.scanTurn code) ⟨c, []⟩ scan ∧
        c.step code step = ⟨step.answer scan.found, scan.cursor, scan.moves⟩) ∧
    (∀ c : Cursor, Turn.Ends (Cursor.drainTurn code) ⟨[], c, []⟩ (c.drain code)) ∧
    (∀ (request : Request) (cursor : Cursor) (calls : List Call),
      Turn.Ends request.matchTurn ⟨cursor, calls, [], []⟩ (request.matchCalls cursor calls)) ∧
    (∀ request : Request, (∃ fault, request.run = ⟨.error (.unfitRanges fault), []⟩) ∨
      ∃ run, Turn.Ends request.matchTurn ⟨.start request.ranges, request.calls, [], []⟩ run ∧
        request.run = run.map fun operations => ⟨operations.toArray⟩) := by
  refine ⟨?_, ?_, ?_, ?_, ?_, ?_⟩
  · intro s t hturns
    exact Cursor.ahead_lt_of_turns hturns
  · intro c offset hfound
    exact Cursor.ahead_consume_lt hfound
  · intro c step hscans
    exact ⟨c.nextCall code, Cursor.scan_ends code c, Cursor.step_of_scans hscans code c⟩
  · exact Cursor.drain_ends code
  · exact Request.match_ends
  · intro request
    by_cases hfits : request.Fits
    · exact .inr ⟨_, request.match_ends _ _, Request.run_of_fits hfits⟩
    · exact .inl (Request.run_of_not_fits hfits)

end CallAlign
