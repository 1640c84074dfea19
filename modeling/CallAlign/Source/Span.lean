/-!
# Spans of source text

A span is a run of bytes in the source, from `start` up to, not including, `stop`. Inverted bounds
make no span.
-/

namespace CallAlign

/-- A run of source bytes. -/
structure Span where
  start : Nat
  stop : Nat
  start_le_stop : start ≤ stop := by omega
  deriving DecidableEq, Repr

/-- Why bounds make no span. -/
inductive SpanError where
  /-- The end comes before the start. -/
  | inverted
  deriving DecidableEq, Repr

def SpanError.message : SpanError → String
  | .inverted => "assertion failed: start.raw <= end.raw"

namespace Span

/-- The span between two bounds. -/
def ofBounds (start stop : Nat) : Except SpanError Span :=
  if h : start ≤ stop then .ok ⟨start, stop, h⟩ else .error .inverted

def length (s : Span) : Nat := s.stop - s.start

/-- The last `n` bytes of the span, or all of it when it is shorter. -/
def suffix (s : Span) (n : Nat) : Span :=
  ⟨max s.start (s.stop - n), s.stop, Nat.max_le.2 ⟨s.start_le_stop, Nat.sub_le ..⟩⟩

end Span

end CallAlign
