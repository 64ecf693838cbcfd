/-! # Faults

Why an annotation or a signature has no schema. A fault concerns one function and never ends a
run.
-/

namespace CallSchema

inductive Fault where
  | unsupportedType (hint reason : String)
  | unsupportedKeyType (hint : String)
  | unsupportedLiteral (value : String)
  | unresolvedType (name module : String)
  | externalType (name module : String)
  | cyclicDefinition (chain : List String)
  | invalidSignature (function reason : String)
deriving DecidableEq, Repr, Inhabited

namespace Fault

/-- A stable name for the kind of fault. -/
def code : Fault → String
  | .unsupportedType .. => "unsupported_type"
  | .unsupportedKeyType .. => "unsupported_key_type"
  | .unsupportedLiteral .. => "unsupported_literal_value"
  | .unresolvedType .. => "unresolved_type"
  | .externalType .. => "unsupported_external_type"
  | .cyclicDefinition .. => "cyclic_type_definition"
  | .invalidSignature .. => "invalid_signature"

def message : Fault → String
  | .unsupportedType hint reason => "unsupported type annotation '" ++ hint ++ "': " ++ reason
  | .unsupportedKeyType hint => "unsupported key type in '" ++ hint ++ "': mapping keys must be str"
  | .unsupportedLiteral value =>
    "unsupported literal value " ++ value ++
      ": literal values must be None, bool, str, int or float"
  | .unresolvedType name module =>
    "cannot resolve type '" ++ name ++ "' from module '" ++ module ++ "'"
  | .externalType name module =>
    "type '" ++ name ++ "' used in module '" ++ module ++ "' is imported from an external package"
  | .cyclicDefinition chain => "cyclic type definition: " ++ " -> ".intercalate chain
  | .invalidSignature function reason =>
    "invalid signature for function '" ++ function ++ "': " ++ reason

end Fault

end CallSchema
