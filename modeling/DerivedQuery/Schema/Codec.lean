import DerivedQuery.Codec.Record
import DerivedQuery.Schema

/-!
# Schemas as JSON
-/

namespace DerivedQuery

namespace FieldOf

/-- Fields, over a codec for the schemas nested in them. -/
def codec {Nested : Type} (nested : Codec Nested) : Codec (FieldOf Nested) :=
  (Codec.Record.build FieldOf.mk
    |>.required "name" Codec.string FieldOf.name
    |>.required "storage_key" Codec.string FieldOf.storageKey
    |>.required "type" Codec.typeExpr FieldOf.type
    |>.omissible "nested" nested FieldOf.nested).codec

end FieldOf

namespace Schema

/-- Schemas, over a codec for the schemas nested in them. -/
def layer (nested : Codec Schema) : Codec Schema :=
  (Codec.Record.build Schema.mk
    |>.required "name" Codec.string Schema.name
    |>.defaulted "fields" (FieldOf.codec nested).list Schema.fields []).codec

/-- Schemas. -/
def codec : Codec Schema :=
  Codec.fix layer height

end Schema

namespace Field

/-- Fields of schemas. -/
def codec : Codec Field :=
  FieldOf.codec Schema.codec

end Field

end DerivedQuery
