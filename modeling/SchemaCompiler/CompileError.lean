/-!
# Compile errors

Defects of a schema or of a keyword definition. They end a compilation and are never the outcome
of a validation.
-/

namespace SchemaCompiler

/-- What a relative data pointer was after. -/
inductive DataTarget where
  | property
  | data
  deriving DecidableEq, Repr, Inhabited

def DataTarget.text : DataTarget → String
  | .property => "property/index"
  | .data => "data"

inductive CompileError where
  | schemaTypeMismatch (keyword expected : String)
  | missingDependencies (keyword : String) (dependencies : List String)
  | invalidKeywordSchema (message : String)
  | asyncKeywordInSyncSchema (keyword : String)
  | keywordCompileFailed (keyword : String)
  | outsideKeyword
  | invalidSchema (message : String)
  | invalidDataPointer (pointer : String)
  | dataPointerOutOfRange (target : DataTarget) (up level : Nat)
  | unknownKeyword (keyword : String)
  | duplicateKeyword (keyword : String)
  | invalidKeywordName (keyword : String)
  | invalidKeywordMetaSchema
  deriving DecidableEq, Repr, Inhabited

namespace CompileError

def kind : CompileError → String
  | .schemaTypeMismatch .. => "SchemaTypeMismatch"
  | .missingDependencies .. => "MissingDependencies"
  | .invalidKeywordSchema .. => "InvalidKeywordSchema"
  | .asyncKeywordInSyncSchema .. => "AsyncKeywordInSyncSchema"
  | .keywordCompileFailed .. => "KeywordCompileFailed"
  | .outsideKeyword => "OutsideKeyword"
  | .invalidSchema .. => "InvalidSchema"
  | .invalidDataPointer .. => "InvalidDataPointer"
  | .dataPointerOutOfRange .. => "DataPointerOutOfRange"
  | .unknownKeyword .. => "UnknownKeyword"
  | .duplicateKeyword .. => "DuplicateKeyword"
  | .invalidKeywordName .. => "InvalidKeywordName"
  | .invalidKeywordMetaSchema => "InvalidKeywordMetaSchema"

def message : CompileError → String
  | .schemaTypeMismatch keyword expected => keyword ++ " must be " ++ expected
  | .missingDependencies keyword dependencies =>
    "parent schema must have dependencies of " ++ keyword ++ ": " ++ ",".intercalate dependencies
  | .invalidKeywordSchema message => "keyword schema is invalid: " ++ message
  | .asyncKeywordInSyncSchema _ => "async keyword in sync schema"
  | .keywordCompileFailed keyword => "custom keyword \"" ++ keyword ++ "\" failed to compile"
  | .outsideKeyword => "this function can only be used in keyword"
  | .invalidSchema message => "schema is invalid: " ++ message
  | .invalidDataPointer pointer => "Invalid JSON-pointer: " ++ pointer
  | .dataPointerOutOfRange target up level =>
    "Cannot access " ++ target.text ++ " " ++ up.repr ++ " levels up, current level is "
      ++ level.repr
  | .unknownKeyword keyword => "unknown keyword: \"" ++ keyword ++ "\""
  | .duplicateKeyword keyword => "Keyword " ++ keyword ++ " is already defined"
  | .invalidKeywordName keyword => "Keyword " ++ keyword ++ " has invalid name"
  | .invalidKeywordMetaSchema => "invalid keyword meta-schema"

/-- The short name used in diagnostic codes. -/
def code : CompileError → String
  | .schemaTypeMismatch .. => "schema_type"
  | .missingDependencies .. => "missing_dependencies"
  | .invalidKeywordSchema .. => "invalid_keyword_schema"
  | .asyncKeywordInSyncSchema .. => "async_in_sync"
  | .keywordCompileFailed .. => "keyword_compile_failed"
  | .outsideKeyword => "outside_keyword"
  | .invalidSchema .. => "invalid_schema"
  | .invalidDataPointer .. => "invalid_pointer"
  | .dataPointerOutOfRange .. => "pointer_out_of_range"
  | .unknownKeyword .. => "unknown_keyword"
  | .duplicateKeyword .. => "duplicate_keyword"
  | .invalidKeywordName .. => "invalid_keyword_name"
  | .invalidKeywordMetaSchema => "invalid_meta_schema"

/-- Advice on how to mend the defect. -/
def help : CompileError → Option String
  | .asyncKeywordInSyncSchema _ => some "declare the root schema with \"$async\": true"
  | .unknownKeyword _ =>
    some "register the keyword with `Validator::add_keyword` or disable strict mode"
  | _ => none

end CompileError

end SchemaCompiler
