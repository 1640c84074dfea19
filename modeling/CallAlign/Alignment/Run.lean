import CallAlign.Settings
import CallAlign.Alignment.Failure
import CallAlign.Alignment.Event
import CallAlign.Alignment.Operation

/-!
# Aligning calls with instructions

The calls of a source line, in evaluation order, are paired with the call instructions of its code
ranges, in code order, one to one. The alignment is all or nothing: it fails at the first call
without an instruction or without a description, and when instructions are left over at the end.
A synthetic call that the settings skip takes its instruction and yields no operation.
-/

namespace CallAlign

/-- What an alignment works with. -/
structure Request where
  /-- The nodes of the source line, in evaluation order. -/
  nodes : List Node
  /-- The parts of the code that were compiled for the line. -/
  ranges : RangeList
  /-- The code of the method around the line. -/
  code : Code
  /-- The constants of the method's class, kept for callers; no alignment depends on them. -/
  constantPool : Array UInt8 := #[]
  resolver : Resolver
  lineIndex : LineIndex
  settings : Settings := {}

/-- The outcome of an alignment, with what happened on the way. -/
structure Run (α : Type) where
  result : Except Alignment.Failure α
  events : List Event

namespace Run

/-- A run with `events` in front of its own. -/
def after {α : Type} (events : List Event) (run : Run α) : Run α :=
  ⟨run.result, events ++ run.events⟩

/-- A run with its value changed. -/
def map {α β : Type} (f : α → β) (run : Run α) : Run β := ⟨run.result.map f, run.events⟩

@[simp] theorem after_result {α : Type} (events : List Event) (run : Run α) :
    (run.after events).result = run.result := rfl

@[simp] theorem after_events {α : Type} (events : List Event) (run : Run α) :
    (run.after events).events = events ++ run.events := rfl

@[simp] theorem map_result {α β : Type} (f : α → β) (run : Run α) :
    (run.map f).result = run.result.map f := rfl

@[simp] theorem map_events {α β : Type} (f : α → β) (run : Run α) :
    (run.map f).events = run.events := rfl

end Run

namespace Request

def calls (request : Request) : List Call := request.nodes.filterMap Node.call?

/-- Whether the settings leave the call without an operation. -/
def skips (request : Request) (call : Call) : Bool :=
  call.synthetic && request.settings.skipSynthetic

/-- The location of `offset` in the source, counted as the settings say. -/
def position (request : Request) (offset : Nat) : Position :=
  request.lineIndex.position offset request.settings.base

/-- The operation of a call described by `site` whose instruction stands at `offset`. -/
def operation (request : Request) (call : Call) (site : CallSite) (offset : Nat) : Operation where
  node := call.id
  startPosition := request.position call.span.start
  endPosition := request.position call.span.stop
  methodStartPosition := request.position site.methodSpan.start
  methodEndPosition := request.position site.methodSpan.stop
  methodName := site.methodName
  declaringType := site.declaringType
  bytecodeOffset := offset

/-- The operations of `calls`, whose instructions the cursor has yet to reach. -/
def matchCalls (request : Request) (cursor : Cursor) : List Call → Run (List Operation)
  | [] =>
    let scan := cursor.nextCall request.code
    let moves := scan.moves.map .moved
    match scan.found with
    | some offset => ⟨.error (.leftover offset), moves ++ [.leftover offset]⟩
    | none => ⟨.ok [], moves⟩
  | call :: rest =>
    let scan := cursor.nextCall request.code
    let moves := scan.moves.map .moved
    match scan.found with
    | none => ⟨.error (.exhausted call.id), moves ++ [.exhausted call.id]⟩
    | some offset =>
      let next := scan.cursor.consume request.code offset
      if request.skips call then
        (request.matchCalls next rest).after (moves ++ [.claimed call.id offset])
      else
        match call.site request.resolver with
        | .error reason =>
          ⟨.error (.undescribed call.id reason), moves ++ [.undescribed call.id reason]⟩
        | .ok site =>
          ((request.matchCalls next rest).map (request.operation call site offset :: ·)).after
            (moves ++ [.matched call.id offset site.methodName site.declaringType])

/-- The alignment of the request's calls with the call instructions of its ranges. -/
def run (request : Request) : Run Alignment :=
  match request.ranges.excess? request.code.size with
  | some fault => ⟨.error (.unfitRanges fault), []⟩
  | none =>
    (request.matchCalls (.start request.ranges) request.calls).map fun operations =>
      ⟨operations.toArray⟩

def align (request : Request) : Except Alignment.Failure Alignment := request.run.result

end Request

end CallAlign
