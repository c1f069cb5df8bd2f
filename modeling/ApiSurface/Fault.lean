import ApiSurface.ModelError

namespace ApiSurface

-- What can be wrong with a text that should hold a model or permissions.
inductive Fault where
  -- The text ends before the value does.
  | truncated
  -- The text is no JSON text.
  | malformed
  -- The value is not of the form that is wanted.
  | mismatched
  -- The value has the right form and describes a model that cannot be.
  | inconsistent (cause : ModelError)
deriving DecidableEq

-- The text for a fault that has one.
def Fault.message? : Fault → Option String
  | inconsistent cause => some cause.message
  | _                  => none

end ApiSurface
