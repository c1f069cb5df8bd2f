import ApiSurface.Dotted
import ApiSurface.Flags
import ApiSurface.TypeRef

namespace ApiSurface

structure Declaration where
  name        : String
  packageName : String := Dotted.package name
  flags       : Flags := {}
  -- The declared type variables, in order.
  params      : List String := []
  -- The superclass and the interfaces, in order.
  supertypes  : List TypeRef := []
  -- The constants of an enumeration, in order.
  constants   : List String := []
deriving DecidableEq

-- The position of a declared type variable, the first one if the name is declared twice.
def Declaration.paramIndex? (d : Declaration) (name : String) : Option Nat :=
  d.params.findIdx? (· = name)

-- The description of a module, which stands in one of its packages.
structure ModuleHeader where
  name         : String
  groupPackage : String
deriving DecidableEq, Repr

structure Package where
  name   : String
  header : Option ModuleHeader := none
deriving DecidableEq, Repr

-- The module that something belongs to, with the package that carries its header.
structure ModuleRef where
  packageName  : String
  name         : String
  groupPackage : String
deriving DecidableEq, Repr

end ApiSurface
