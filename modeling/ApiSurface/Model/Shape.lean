import ApiSurface.Model

namespace ApiSurface

inductive Shape where
  | void
  | primitive
  | cls
  | api
  | valueObject
  | enumeration
  | applied
  | typeVar
deriving DecidableEq, Repr

namespace Shape

def all : List Shape :=
  [void, primitive, cls, api, valueObject, enumeration, applied, typeVar]

def label : Shape → String
  | void        => "void"
  | primitive   => "primitive"
  | cls         => "class"
  | api         => "api"
  | valueObject => "valueObject"
  | enumeration => "enum"
  | applied     => "parameterized"
  | typeVar     => "typeVariable"

-- The shape with a given label. Labels are case-sensitive.
def ofLabel? (s : String) : Option Shape :=
  all.find? (·.label = s)

@[simp] theorem ofLabel?_label (s : Shape) : ofLabel? s.label = some s := by
  cases s <;> decide

end Shape

namespace ParamOwner

inductive Form where
  | cls
  | method
deriving DecidableEq, Repr

namespace Form

def all : List Form := [cls, method]

def label : Form → String
  | cls    => "class"
  | method => "method"

end Form

def form : ParamOwner → Form
  | cls _      => .cls
  | method _ _ => .method

end ParamOwner

def Model.shape : Model → Shape
  | void            => .void
  | primitive _ _   => .primitive
  | cls _           => .cls
  | api _ _         => .api
  | valueObject _ _ => .valueObject
  | enumeration _ _ => .enumeration
  | applied _ _     => .applied
  | typeVar _       => .typeVar

end ApiSurface
