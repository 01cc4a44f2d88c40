import DerivedQuery.Codec.Record
import DerivedQuery.Query

/-!
# Queries as JSON
-/

namespace DerivedQuery

namespace Comparator

/-- Comparators. -/
def codec : Codec Comparator :=
  Codec.enumeration all name

end Comparator

namespace Connective

/-- Connectives. -/
def codec : Codec Connective :=
  Codec.enumeration all name

end Connective

namespace Condition

/-- Conditions. -/
def codec : Codec Condition :=
  (Codec.Record.build Condition.mk
    |>.required "comparator" Comparator.codec Condition.comparator
    |>.required "field" Codec.string Condition.field
    |>.required "params" Codec.string.list Condition.params).codec

end Condition

namespace QueryExpr

/-- A connective with the two parts it joins. -/
structure Branch where
  connective : Connective
  left : QueryExpr
  right : QueryExpr

namespace Branch

/-- Branches, over a codec for the parts. -/
def codec (part : Codec QueryExpr) : Codec Branch :=
  (Codec.Record.build Branch.mk
    |>.required "connective" Connective.codec Branch.connective
    |>.required "left" part Branch.left
    |>.required "right" part Branch.right).codec

end Branch

/-- Trees, over a codec for the parts of a connective. -/
def layer (part : Codec QueryExpr) : Codec QueryExpr :=
  Codec.tagged
    [.holding "Leaf" Condition.codec .leaf,
      .holding "Node" (Branch.codec part) fun branch =>
        .node branch.connective branch.left branch.right]
    fun expr =>
      match expr with
      | .leaf condition => .tagged "Leaf" (Condition.codec.write condition)
      | .node connective left right =>
          .tagged "Node" ((Branch.codec part).write ⟨connective, left, right⟩)

/-- Trees. -/
def codec : Codec QueryExpr :=
  Codec.fix layer height

end QueryExpr

namespace Query

/-- Queries. -/
def codec : Codec Query :=
  Codec.tagged
    [.plain "All" .all, .holding "By" QueryExpr.codec .matching]
    fun query =>
      match query with
      | .all => .string "All"
      | .matching expr => .tagged "By" (QueryExpr.codec.write expr)

end Query

end DerivedQuery
