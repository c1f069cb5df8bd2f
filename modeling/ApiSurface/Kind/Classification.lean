import ApiSurface.Kind
import ApiSurface.Flags
import ApiSurface.WellKnown

namespace ApiSurface.Kind

-- The names that have a kind of their own, whatever a declaration of that name is flagged as.
def wellKnown : List (String × Kind) :=
  [(WellKnown.void, void), (WellKnown.boxedVoid, void), (WellKnown.string, string),
   (WellKnown.jsonObject, jsonObject), (WellKnown.jsonArray, jsonArray),
   (WellKnown.list, list), (WellKnown.set, set), (WellKnown.map, map)]
  ++ WellKnown.throwables.map (·, throwable)
  ++ WellKnown.primitives.map (·.1, primitive)
  ++ WellKnown.primitives.map (·.2, boxedPrimitive)

def ofFlags (flags : Flags) : Kind :=
  if flags.valueObject then valueObject
  else if flags.api then api
  else if flags.enumeration then enumeration
  else other

def ofDeclaration (name : String) (flags : Flags) : Kind :=
  (wellKnown.lookup name).getD (ofFlags flags)

-- The kind of a name that is known by its two annotations only.
def ofAnnotations (name : String) (valueObject api : Bool) : Kind :=
  ofDeclaration name { valueObject := valueObject, api := api }

end ApiSurface.Kind
