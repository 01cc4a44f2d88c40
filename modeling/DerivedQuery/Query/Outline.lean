import DerivedQuery.Query.Split

/-!
# Outlines of queries

The outline of a query run is the tree of its connectives over the runs that
state single conditions. It depends on the words and the split strategy alone;
a part that cannot be divided keeps the error in its place.
-/

namespace DerivedQuery

/-- The connectives of a query over the runs of its conditions. -/
inductive Outline
  | leaf (run : List Word)
  | node (connective : Connective) (left right : Outline)
  | broken (error : SplitError)
  deriving DecidableEq, Repr

namespace Outline

/-- The outline of a run under a split strategy. -/
def ofRun (strategy : SplitStrategy) (run : List Word) : Outline :=
  match _divided : strategy.split run with
  | .error error => .broken error
  | .ok (.leaf inner) => .leaf inner
  | .ok (.divided connective left right) =>
      .node connective (ofRun strategy left) (ofRun strategy right)
termination_by run.length
decreasing_by
  · exact (SplitStrategy.length_lt_of_split _divided).1
  · exact (SplitStrategy.length_lt_of_split _divided).2

end Outline

end DerivedQuery
