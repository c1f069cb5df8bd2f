import ApiSurface.Model

namespace ApiSurface

structure Method where
  owner      : String
  name       : String
  -- Whether the method itself asks for types that are not modelled otherwise.
  permitsAny : Bool := false
deriving DecidableEq, Repr

def Method.qualifiedName (m : Method) : String :=
  m.owner ++ "#" ++ m.name

structure Signature where
  method     : Method
  -- The names and types of the parameters, in order.
  params     : List (String × Model)
  returnType : Model

-- Where a type is used in a signature.
inductive Position where
  | parameter
  | result
deriving DecidableEq, Repr

def Position.label : Position → String
  | parameter => "parameter"
  | result    => "return"

end ApiSurface
