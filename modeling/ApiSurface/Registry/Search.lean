import ApiSurface.Capability
import ApiSurface.Registry
import ApiSurface.TypeRef.Substitution

namespace ApiSurface

-- A search under way: the references still to be looked at, and the declarations met so far.
structure Search where
  queue   : List TypeRef
  visited : List String := []

-- How a search stands after a step.
inductive Search.Progress where
  | searching (s : Search)
  | found (args : List TypeRef)
  | exhausted

namespace Registry

-- The declaration that a reference leads to, with its arguments. A reference without arguments
-- leads to a registered declaration only, whose parameters then stand for themselves.
def instance? (R : Registry) : TypeRef → Option (String × List TypeRef)
  | .named name        => (R.declaration? name).map fun d => (name, d.params.map (.classVar name))
  | .applied name args => some (name, args)
  | _                  => none

-- The supertypes of a declaration as seen from a reference that gives it arguments.
def supertypes (R : Registry) (name : String) (args : List TypeRef) : List TypeRef :=
  match R.declaration? name with
  | none   => []
  | some d => d.supertypes.map (TypeRef.substitute name (TypeRef.bind d.params args))

-- Takes the first reference from the queue. If it leads to a declaration not met before, that one
-- is the target or its supertypes join the queue.
def searchStep (R : Registry) (target : String) (s : Search) : Search.Progress :=
  match s.queue with
  | []         => .exhausted
  | t :: queue =>
    match R.instance? t with
    | none              => .searching { s with queue }
    | some (name, args) =>
      if name ∈ s.visited then .searching { s with queue }
      else if name = target then .found args
      else .searching { queue := queue ++ R.supertypes name args, visited := name :: s.visited }

-- The arguments of the target, if it is met within a number of steps.
def searchWithin (R : Registry) (target : String) : Nat → Search → Option (List TypeRef)
  | 0,     _ => none
  | n + 1, s =>
    match R.searchStep target s with
    | .searching s => R.searchWithin target n s
    | .found args  => some args
    | .exhausted   => none

-- The number of references that a search can ever queue: the one it starts with, and the
-- supertypes of each declaration once.
def searchBound (R : Registry) : Nat :=
  1 + (R.declarations.entries.flatMap (·.supertypes)).length

-- The arguments that a reference binds on a capability.
def capabilityArgs? (R : Registry) (t : TypeRef) (c : Capability) : Option (List TypeRef) :=
  R.searchWithin c.declaration R.searchBound { queue := [t] }

-- The type that a reference binds to the type parameter of a capability at a position.
def resolve (R : Registry) (t : TypeRef) (c : Capability) (index : Nat) : Option TypeRef :=
  (R.capabilityArgs? t c).bind (·[index]?)

end Registry

end ApiSurface
