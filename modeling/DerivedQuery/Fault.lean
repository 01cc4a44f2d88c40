import DerivedQuery.Operation

/-!
# Faults

Why a method does not compile. A cause says what is wrong and fixes both the
kind of the fault and its wording; a fault adds the run of words at fault, and
a method error adds the method.
-/

namespace DerivedQuery

/-- The four kinds of fault. -/
inductive FaultKind
  /-- Wrong number or type of parameters or results. -/
  | signature
  /-- Words that fit no grammar rule, or parameters left over. -/
  | grammar
  /-- Words that name nothing in the schema or the parameters. -/
  | resolution
  /-- A bound parameter of another type than required. -/
  | type
  deriving DecidableEq, Repr

namespace FaultKind

/-- The name of a kind of fault. -/
def name : FaultKind -> String
  | .signature => "Signature"
  | .grammar => "Grammar"
  | .resolution => "Resolution"
  | .type => "Type"

/-- The code of a kind of fault. -/
def code : FaultKind -> String
  | .signature => "E-SIGNATURE"
  | .grammar => "E-GRAMMAR"
  | .resolution => "E-RESOLVE"
  | .type => "E-TYPE"

end FaultKind

/-- Why a method does not compile. -/
inductive Cause
  | emptyDescriptor
  | unknownOperation
  | unexpectedWords (run : List String) (place : String)
  | missingMode (operation : Keyword)
  | emptyStep (operation : Keyword) (mode : Mode)
  | unusedParams (first : String)
  | missingQuery
  | wordsAfterAll
  | emptyQuery
  | unbalancedBrackets
  | danglingConnective
  | shortCondition (run : List String)
  | missingComparator (run : List String)
  | missingField (run : List String) (comparator : Comparator)
  | repeatedClause (clause : String)
  | emptyOrder
  | descWithoutField
  | limitInOneMode
  | unsupportedInBulk
  | insertManyInBulk
  | insertWithoutOne
  | emptyBulk
  | unsupportedInTransaction
  | emptyTransaction
  | loneCollection
  | collectionWithoutOperation
  | collectionWithoutName
  | bulkWithoutBracket
  | bulkUnclosed
  | noFieldWords
  | unknownField (run : List String)
  | severalFields (run : List String)
  | unknownCollection (name : String)
  | fieldType (actual : TypeExpr) (param : String) (required : TypeExpr)
  | pagingType (clause : Keyword) (required : TypeExpr) (param : String) (actual : TypeExpr)
  | insertModeType (mode : Mode) (actual : TypeExpr)
  | insertShape (mode : Mode) (param : String) (actual : TypeExpr)
  | entityNotPointer (actual : TypeExpr) (param : String)
  | entityMismatch (entity : String) (actual : TypeExpr) (param : String)
  | fewParams (least : Nat)
  | missingParams
  | paramCount (count : Nat)
  | returnCount (count : Nat)
  | paramType (index : Nat) (required : TypeExpr)
  | returnType (index : Nat) (required : TypeExpr)
  | writeResult (one many : TypeExpr)
  | insertResult (required : TypeExpr)
  | documentShape
  | resultShape
  | onlyReturn (required : TypeExpr)
  deriving DecidableEq, Repr

namespace Cause

/-- The kind of a fault is fixed by its cause. -/
def kind : Cause -> FaultKind
  | .noFieldWords | .unknownField _ | .severalFields _ | .unknownCollection _ => .resolution
  | .fieldType .. | .pagingType .. | .insertModeType .. | .insertShape ..
  | .entityNotPointer .. | .entityMismatch .. => .type
  | .fewParams _ | .missingParams | .paramCount _ | .returnCount _ | .paramType ..
  | .returnType .. | .writeResult .. | .insertResult _ | .documentShape | .resultShape
  | .onlyReturn _ => .signature
  | _ => .grammar

/-- The word for a position in a list of parameters or results. -/
def ordinal : Nat -> String
  | 0 => "first"
  | 1 => "second"
  | 2 => "third"
  | _ => "next"

/-- The word for the least number of parameters. -/
def leastCount : Nat -> String
  | 1 => "one"
  | 2 => "two"
  | _ => "the required number of"

/-- The shape a document of an Insert must have. -/
def documentShapeOf : Mode -> String
  | .one => "a pointer"
  | .many => "a slice"

/-- The wording of a cause. -/
def message : Cause -> String
  | .emptyDescriptor => "the method descriptor is empty"
  | .unknownOperation =>
      "wrong operation name, should be Insert, Find, Update, Delete, Count, Transaction, Bulk"
  | .unexpectedWords run place => "unexpected tokens " ++ Word.quote run ++ " " ++ place
  | .missingMode operation => operation.describe ++ " should be followed by One or Many"
  | .emptyStep operation mode =>
      "there is no content after " ++ operation.text ++ " " ++ mode.name
  | .unusedParams first =>
      "too many method parameters written, " ++ first ++
        " and subsequent parameters are useless"
  | .missingQuery => "no By or All specified"
  | .wordsAfterAll => "there's no need to follow any tokens behind All"
  | .emptyQuery => "By needs to be followed by query tokens"
  | .unbalancedBrackets => "mismatched parentheses"
  | .danglingConnective => "And or Or needs to be followed by query tokens"
  | .shortCondition run => "there are grammar errors in " ++ Word.quote run
  | .missingComparator run =>
      "there are grammar errors in " ++ Word.quote run ++ ", not ending with " ++
        ", ".intercalate (Comparator.all.map Comparator.name)
  | .missingField run comparator =>
      "there are grammar errors in " ++ Word.quote run ++ ", no field before " ++ comparator.name
  | .repeatedClause clause => clause ++ " can only be used once"
  | .emptyOrder => "there are no sorted fields after the Order"
  | .descWithoutField => "no field to be specified before Desc"
  | .limitInOneMode => "Limit operation is not supported in Find One mode"
  | .unsupportedInBulk =>
      "the Bulk operation does not support Find, Count, Bulk, Transaction, " ++
        "only supports Insert, Update, Delete"
  | .insertManyInBulk =>
      "the Bulk operation does not support Insert Many, only supports Insert One"
  | .insertWithoutOne => "Insert should be followed by One"
  | .emptyBulk => "the Bulk operation contains no Insert, Update or Delete"
  | .unsupportedInTransaction =>
      "the Transaction operation does not support Find, Count, Transaction, " ++
        "only supports Insert, Update, Delete, Bulk"
  | .emptyTransaction => "the Transaction operation contains no Insert, Update, Delete or Bulk"
  | .loneCollection => "no tokens specified after Collection"
  | .collectionWithoutOperation =>
      "there is no Insert, Update, Delete, Bulk tokens after the Collection"
  | .collectionWithoutName => "no collection name specified after Collection"
  | .bulkWithoutBracket => "parentheses need to be specified after Transaction Bulk operation"
  | .bulkUnclosed => "the Transaction Bulk operation did not specify a right parenthesis"
  | .noFieldWords => "the length of the field name requested for parsing is empty"
  | .unknownField run => "no field name corresponding to " ++ Word.quote run ++ " found"
  | .severalFields run => "only one field name can be included in " ++ Word.quote run
  | .unknownCollection name =>
      "the collection name " ++ name ++
        " specified in tokens was not found in the method parameters"
  | .fieldType actual param required =>
      "the field type in the parameter transfer: " ++ actual.render ++ " (" ++ param ++
        "), the actual required field type: " ++ required.render
  | .pagingType clause required param actual =>
      clause.text ++ " requires passing in a value of type " ++ required.render ++ ", but " ++
        param ++ " is " ++ actual.render
  | .insertModeType mode actual =>
      "Insert " ++ mode.name ++ " does not match the type of the inserted parameter " ++
        actual.render
  | .insertShape mode param actual =>
      "Insert " ++ mode.name ++ " requires " ++ documentShapeOf mode ++ ", but " ++ param ++
        " is " ++ actual.render
  | .entityNotPointer actual param =>
      "the input when updating the whole structure is not a structure pointer: " ++
        actual.render ++ " (" ++ param ++ ")"
  | .entityMismatch entity actual param =>
      "the input when updating the whole structure is not in the form of *Package." ++ entity ++
        ": " ++ actual.render ++ " (" ++ param ++ ")"
  | .fewParams least => "less than " ++ leastCount least ++ " input parameters"
  | .missingParams => "insufficient number of input parameters"
  | .paramCount count => "input parameter not equal to " ++ toString count
  | .returnCount count => "return parameter not equal to " ++ toString count
  | .paramType index required =>
      "the " ++ ordinal index ++ " parameter in the input parameters should be " ++
        required.render
  | .returnType index required =>
      "the " ++ ordinal index ++ " parameter in the return parameters should be " ++
        required.render
  | .writeResult one many =>
      "the first parameter in the return parameters should be " ++ one.render ++ " or " ++
        many.render
  | .insertResult required =>
      "inconsistent types, the first parameter in the return parameters should be " ++
        required.render
  | .documentShape =>
      "the second parameter in the input parameters should be a pointer or a slice"
  | .resultShape =>
      "the first parameter in the return parameters should be a pointer or a slice"
  | .onlyReturn required =>
      "the only parameter in the return parameters should be " ++ required.render

end Cause

/-- A cause and the part of the descriptor it is about, if there is one. -/
structure Fault where
  cause : Cause
  span : Option Span
  deriving DecidableEq, Repr

namespace Fault

/-- A fault about a run of words. -/
def on (cause : Cause) (run : List Word) : Fault :=
  ⟨cause, Word.runSpan? run⟩

/-- A fault about no particular words. -/
def overall (cause : Cause) : Fault :=
  ⟨cause, none⟩

end Fault

/-- The one error the compilation of a method can end with. -/
structure MethodError where
  method : String
  fault : Fault
  deriving DecidableEq, Repr

namespace MethodError

/-- The kind of a method error. -/
def kind (error : MethodError) : FaultKind :=
  error.fault.cause.kind

/-- The wording of a method error, without the method. -/
def message (error : MethodError) : String :=
  error.fault.cause.message

/-- The wording of a method error. -/
def display (error : MethodError) : String :=
  "method " ++ error.method ++ " has syntax errors, specific reasons: " ++ error.message

end MethodError

end DerivedQuery
