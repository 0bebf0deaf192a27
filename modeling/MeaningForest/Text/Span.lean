/-!
# Spans of code points

Character classes are given by lists of spans: arithmetic progressions of code points.
-/

namespace MeaningForest.Text

/-- The code points `first, first + step, …` up to `last`. -/
structure Span where
  first : Nat
  last : Nat
  step : Nat
  deriving DecidableEq, Repr

/-- Membership of a code point in a span. -/
def Span.mem (s : Span) (c : Nat) : Bool := s.first ≤ c && c ≤ s.last && (c - s.first) % s.step == 0

/-- Membership in one of several spans. -/
def Span.anyMem (ss : List Span) (c : Nat) : Bool := ss.any (·.mem c)

end MeaningForest.Text
