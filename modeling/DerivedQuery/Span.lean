/-!
# Byte ranges

A span locates a run of words inside a method descriptor by byte offsets.
The two offsets are plain data and need not be ordered; merging takes the
least start and the greatest end.
-/

namespace DerivedQuery

/-- A range of byte offsets, the end being exclusive. -/
structure Span where
  start : Nat
  stop : Nat
  deriving DecidableEq, Repr

namespace Span

/-- The range from the lesser start to the greater end. -/
def merge (left right : Span) : Span :=
  ⟨min left.start right.start, max left.stop right.stop⟩

/-- Whether both offsets coincide. -/
def isEmpty (span : Span) : Bool :=
  span.start == span.stop

end Span

end DerivedQuery
