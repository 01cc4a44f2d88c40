import DerivedQuery.Method
import DerivedQuery.Schema.Codec

/-!
# Methods and interfaces as JSON
-/

namespace DerivedQuery

namespace Param

/-- Parameters. -/
def codec : Codec Param :=
  (Codec.Record.build Param.mk
    |>.required "name" Codec.string Param.name
    |>.required "type" Codec.typeExpr Param.type).codec

end Param

namespace Method

/-- Methods. -/
def codec : Codec Method :=
  (Codec.Record.build Method.mk
    |>.required "name" Codec.string Method.name
    |>.required "descriptor" Codec.string Method.descriptor
    |>.defaulted "params" Param.codec.list Method.params []
    |>.defaulted "returns" Codec.typeExpr.list Method.returns []).codec

end Method

namespace Interface

/-- Interfaces. -/
def codec : Codec Interface :=
  (Codec.Record.build Interface.mk
    |>.required "name" Codec.string Interface.name
    |>.required "schema" Schema.codec Interface.schema
    |>.defaulted "methods" Method.codec.list Interface.methods []).codec

end Interface

namespace InterfaceFile

/-- Interface files. -/
def codec : Codec InterfaceFile :=
  (Codec.Record.build InterfaceFile.mk
    |>.defaulted "interfaces" Interface.codec.list InterfaceFile.interfaces []).codec

end InterfaceFile

end DerivedQuery
