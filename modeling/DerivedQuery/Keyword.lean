import DerivedQuery.Word

/-!
# Keywords

The words with a structural meaning. Seven of them start an operation; the
others mark modes, queries, connectives, brackets, clauses and collections.
-/

namespace DerivedQuery

/-- A word with structural meaning in a descriptor. -/
inductive Keyword
  | insert
  | find
  | update
  | delete
  | count
  | transaction
  | bulk
  | one
  | many
  | byQuery
  | allQuery
  | and
  | or
  | leftBracket
  | rightBracket
  | order
  | desc
  | skip
  | limit
  | upsert
  | collection
  deriving DecidableEq, Repr

/-- The kinds of operation a method can stand for. -/
inductive OperationKind
  | insert
  | find
  | update
  | delete
  | count
  | transaction
  | bulk
  deriving DecidableEq, Repr

namespace Keyword

/-- The spelling of a keyword. -/
def text : Keyword -> String
  | .insert => "Insert"
  | .find => "Find"
  | .update => "Update"
  | .delete => "Delete"
  | .count => "Count"
  | .transaction => "Transaction"
  | .bulk => "Bulk"
  | .one => "One"
  | .many => "Many"
  | .byQuery => "By"
  | .allQuery => "All"
  | .and => "And"
  | .or => "Or"
  | .leftBracket => "Lb"
  | .rightBracket => "Rb"
  | .order => "Order"
  | .desc => "Desc"
  | .skip => "Skip"
  | .limit => "Limit"
  | .upsert => "Upsert"
  | .collection => "Collection"

/-- The keyword with a given spelling. -/
def ofText? : String -> Option Keyword
  | "Insert" => some .insert
  | "Find" => some .find
  | "Update" => some .update
  | "Delete" => some .delete
  | "Count" => some .count
  | "Transaction" => some .transaction
  | "Bulk" => some .bulk
  | "One" => some .one
  | "Many" => some .many
  | "By" => some .byQuery
  | "All" => some .allQuery
  | "And" => some .and
  | "Or" => some .or
  | "Lb" => some .leftBracket
  | "Rb" => some .rightBracket
  | "Order" => some .order
  | "Desc" => some .desc
  | "Skip" => some .skip
  | "Limit" => some .limit
  | "Upsert" => some .upsert
  | "Collection" => some .collection
  | _ => none

/-- A keyword as diagnostics name it. -/
def describe : Keyword -> String
  | .leftBracket => "left bracket 'Lb'"
  | .rightBracket => "right bracket 'Rb'"
  | keyword => "'" ++ keyword.text ++ "'"

/-- The operation a keyword starts, if it starts one. -/
def operation? : Keyword -> Option OperationKind
  | .insert => some .insert
  | .find => some .find
  | .update => some .update
  | .delete => some .delete
  | .count => some .count
  | .transaction => some .transaction
  | .bulk => some .bulk
  | _ => none

/-- Whether a keyword starts an operation. -/
def isOperation (keyword : Keyword) : Bool :=
  keyword.operation?.isSome

theorem ofText?_text (keyword : Keyword) : ofText? keyword.text = some keyword := by
  cases keyword <;> rfl

end Keyword

namespace OperationKind

/-- The keyword that introduces a kind of operation. -/
def keyword : OperationKind -> Keyword
  | .insert => .insert
  | .find => .find
  | .update => .update
  | .delete => .delete
  | .count => .count
  | .transaction => .transaction
  | .bulk => .bulk

/-- The name of a kind of operation. -/
def name (kind : OperationKind) : String :=
  kind.keyword.text

/-- The kind with a given name. -/
def ofName? (word : String) : Option OperationKind :=
  (Keyword.ofText? word).bind Keyword.operation?

theorem operation?_keyword (kind : OperationKind) :
    kind.keyword.operation? = some kind := by
  cases kind <;> rfl

end OperationKind

namespace Word

/-- The keyword a word spells, if it spells one. -/
def keyword? (word : Word) : Option Keyword :=
  Keyword.ofText? word.text

/-- Whether a word spells the given keyword. -/
def is (word : Word) (keyword : Keyword) : Bool :=
  word.keyword? == some keyword

end Word

end DerivedQuery
