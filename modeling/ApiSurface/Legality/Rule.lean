import ApiSurface.Legality.Method

namespace ApiSurface

-- A model that contradicts itself, named by the text of its type.
structure Inconsistency where
  typeName : String
  reason   : String
deriving DecidableEq, Repr

namespace Inconsistency

def message (i : Inconsistency) : String :=
  "invariant violated for '" ++ i.typeName ++ "': " ++ i.reason

-- A container without type arguments.
def notApplied (type : Model) : Inconsistency where
  typeName := type.display
  reason   := "container type is not parameterized"

-- A map with less than two type arguments.
def missingKeyOrValue (type : Model) : Inconsistency where
  typeName := type.display
  reason   := "map type needs key and value arguments"

-- A list or set with an empty list of type arguments.
def missingElement (type : Model) : Inconsistency where
  typeName := type.display
  reason   := "collection type needs an element argument"

end Inconsistency

-- Judges a type on a method, in a monad of its own: one rule consults others without knowing
-- anything about them. The flag loosens a rule so that it accepts types which are not modelled
-- otherwise; each rule decides what it makes of it.
abbrev Rule (m : Type → Type) := Method → Model → Bool → m Bool

namespace Rule

-- The kinds that are legal as a basic argument: the basic ones and API interfaces, and if any type
-- is allowed all others but the containers.
def isArgument (k : Kind) (any : Bool) : Bool :=
  k.isBasic || k = .api || (any && !k.isContainer)

variable {m : Type → Type} [Monad m]

-- Accepts basic arguments.
def argument : Rule m := fun _ type any =>
  pure (isArgument type.kind any)

-- Accepts value objects, abstract or not, whether or not any type is allowed.
def valueObject : Rule m := fun _ type _ =>
  pure (type.kind = .valueObject)

variable [MonadExceptOf Inconsistency m]

-- Accepts lists and sets whose element passes one of two rules or is an enumeration, and maps from
-- strings to values that pass the first rule. The second rule is never asked to allow any type.
def container (argument valueObject : Rule m) : Rule m := fun method type any =>
  if !type.kind.isContainer then pure false
  else match type with
    | .applied _ args =>
      if type.kind = .map then
        match args with
        | key :: value :: _ => if key.kind = .string then argument method value any else pure false
        | _                 => throw (Inconsistency.missingKeyOrValue type)
      else
        match args with
        | element :: _ =>
          argument method element any
            <||> valueObject method element false
            <||> pure (element.kind = .enumeration)
        | []           => throw (Inconsistency.missingElement type)
    | _ => throw (Inconsistency.notApplied type)

-- Whether a type may be used at a position: a basic argument, a value object, an enumeration, a
-- type variable or a container of such. Nothing but a return type may be void itself.
def usage (position : Position) : Rule m := fun method type any =>
  match type with
  | .void      => pure (position = .result)
  | .typeVar _ => pure true
  | _          =>
    argument method type any
      <||> valueObject method type false
      <||> pure (type.kind = .enumeration)
      <||> container argument valueObject method type any

end Rule

end ApiSurface
