/-!
# Positions and spans

A position is a byte offset into the file plus one, so that zero is free to mean "nowhere". A node
that does not come from a file has the span `Span.none`, whose two ends are both zero.
-/

namespace Contracts

/-- A stretch of a file from the position `lo` up to the position `hi`. -/
structure Span where
  lo : Nat
  hi : Nat
  deriving DecidableEq, Repr, Inhabited

namespace Span

/-- The span of what is not in any file. -/
def none : Span := ⟨0, 0⟩

def isNone (s : Span) : Bool :=
  s == none

/-- Whether `inner` lies within `outer`, ends included. -/
def contains (outer inner : Span) : Bool :=
  outer.lo ≤ inner.lo && inner.hi ≤ outer.hi

def length (s : Span) : Nat :=
  s.hi - s.lo

/-- From the start of `s` to the end of `t`. -/
def through (s t : Span) : Span :=
  ⟨s.lo, t.hi⟩

end Span

end Contracts
