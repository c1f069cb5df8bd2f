import ApiSurface.TypeRef

namespace ApiSurface

inductive ModelError where
  | unknownPrimitive (name : String)
  -- Wildcards and arrays have no model.
  | unsupportedShape (type : TypeRef)
  | undeclaredVariable (name : String) (owner : VarOwner)
  | unknownDeclaration (name : String)
  -- Type arguments for something without a class component, given by its text.
  | notAClass (raw : String)
  | arityMismatch (name : String) (declared given : Nat)
deriving DecidableEq

namespace ModelError

def message : ModelError → String
  | unknownPrimitive name         => "unsupported type " ++ name
  | unsupportedShape type         => "unsupported type " ++ type.display
  | undeclaredVariable name owner =>
    "unsupported type type variable " ++ name ++ " is not declared on " ++ owner.identity
  | unknownDeclaration name       => "unknown declaration " ++ name
  | notAClass raw                 =>
    "type model invariant violated: parameterized raw type '" ++ raw ++ "' is not a class"
  | arityMismatch name declared given =>
    "type model invariant violated: '" ++ name ++ "' declares " ++ toString declared
      ++ " type parameter(s) but " ++ toString given ++ " argument(s) were given"

end ModelError

end ApiSurface
