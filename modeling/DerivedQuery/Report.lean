import DerivedQuery.Codec.Record
import DerivedQuery.Compile
import DerivedQuery.Operation.Codec

/-!
# Compilation results as JSON

Results are written for the tools that generate code from them.
-/

namespace DerivedQuery

namespace Span

/-- Spans. -/
def codec : Codec Span :=
  (Codec.Record.build Span.mk
    |>.required "start" Codec.natural Span.start
    |>.required "end" Codec.natural Span.stop).codec

end Span

namespace MethodError

/-- The JSON form of an error. -/
def toJson (error : MethodError) : Json :=
  .object [
    ("method", .string error.method),
    ("kind", .string error.kind.name),
    ("message", .string error.message),
    ("span", Span.codec.optional.write error.fault.span)]

end MethodError

namespace CompiledInterface

/-- The JSON form of the result of one method. -/
def resultToJson : Except MethodError Operation -> Json
  | .ok operation => .tagged "Ok" (Operation.codec.write operation)
  | .error error => .tagged "Err" error.toJson

/-- The JSON form of the results of an interface. -/
def toJson (compiled : CompiledInterface) : Json :=
  .object [
    ("name", .string compiled.name),
    ("results", .array (compiled.results.map resultToJson))]

end CompiledInterface

end DerivedQuery
