import ApiSurface.Json.Fields
import ApiSurface.Json.Text
import ApiSurface.Legality.Method

namespace ApiSurface

open Json (Reader Value)

-- Where types that are not modelled otherwise may be used.
structure Permissions where
  anyInParams  : Bool := false
  anyInReturns : Bool := false
deriving DecidableEq, Repr

namespace Permissions

-- Whether any type is allowed at a position of a method, which may ask for it by itself.
def allowsAny (p : Permissions) (method : Method) (position : Position) : Bool :=
  (match position with
    | .parameter => p.anyInParams
    | .result    => p.anyInReturns) || method.permitsAny

def paramsKey  : String := "permitAnyInParams"
def returnsKey : String := "permitAnyInReturns"

def toValue (p : Permissions) : Value :=
  .object [(paramsKey, .bool p.anyInParams), (returnsKey, .bool p.anyInReturns)]

-- The JSON text of permissions.
def write (p : Permissions) : String :=
  p.toValue.text

-- Reads the next member of the object, behind the given ones.
def readMember (before : List (String × Bool)) : Reader (String × Bool) :=
  Json.readMember fun key =>
    if key ≠ paramsKey && key ≠ returnsKey then .error .mismatched
    else if before.any (·.1 = key) then .error .mismatched
    else .ok (Json.readWanted Value.asBool)

-- Reads the next item of the array form, behind the given ones. There are no more than two.
def readItem (before : List Bool) : Reader Bool :=
  if before.length < 2 then Json.readWanted Value.asBool else fun _ => .error .malformed

def readValue : Reader Permissions
  | []      => .error .truncated
  | c :: cs =>
    if c = '[' then do
      let (items, rest) ← Json.readGroup ']' readItem cs
      .ok ({ anyInParams := items[0]?.getD false, anyInReturns := items[1]?.getD false }, rest)
    else if c = '{' then do
      let (members, rest) ← Json.readGroup '}' readMember cs
      .ok ({ anyInParams  := (members.lookup paramsKey).getD false
             anyInReturns := (members.lookup returnsKey).getD false }, rest)
    else do
      let _ ← Json.readScalar (c :: cs)
      .error .mismatched

-- The permissions in a JSON text.
def read (s : String) : Except Fault Permissions := do
  let (p, rest) ← readValue (Json.skipBlanks s.toList)
  Json.expectEnd rest
  return p

end Permissions

end ApiSurface
