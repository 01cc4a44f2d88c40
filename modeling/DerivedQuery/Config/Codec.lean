import DerivedQuery.Codec.Record
import DerivedQuery.Config

/-!
# Configurations as JSON

Every member has a default, so a configuration names only what differs.
-/

namespace DerivedQuery

namespace SplitStrategy

/-- Split strategies. -/
def codec : Codec SplitStrategy :=
  Codec.enumeration all name

end SplitStrategy

namespace Config

/-- Add a type that defaults to that of the standard configuration. -/
def typeMember
    {β : Type}
    (record : Codec.Record Config (TypeExpr -> β))
    (key : String)
    (get : Config -> TypeExpr) :
    Codec.Record Config β :=
  record.defaulted key Codec.typeExpr get (get standard)

/-- Configurations. -/
def codec : Codec Config :=
  (Codec.Record.build Config.mk
    |> (typeMember · "context_type" contextType)
    |> (typeMember · "error_type" errorType)
    |> (typeMember · "client_type" clientType)
    |> (typeMember · "collection_type" collectionType)
    |> (typeMember · "bulk_result_type" bulkResult)
    |> (typeMember · "insert_one_result" insertOneResult)
    |> (typeMember · "insert_many_result" insertManyResult)
    |> (typeMember · "one_result" oneResult)
    |> (typeMember · "many_result" manyResult)
    |> (typeMember · "count_result" countResult)
    |> (typeMember · "paging_type" pagingType)
    |>.defaulted "split_strategy" SplitStrategy.codec splitStrategy standard.splitStrategy).codec

end Config

end DerivedQuery
