import ApiSurface.Catalog
import ApiSurface.Declaration

namespace ApiSurface

structure Registry where
  declarations : Catalog Declaration.name := .empty
  packages     : Catalog Package.name := .empty
deriving Inhabited

namespace Registry

-- Takes the place of a declaration of the same name.
def register (R : Registry) (d : Declaration) : Registry :=
  { R with declarations := R.declarations.insert d }

-- Takes the place of a package of the same name.
def registerPackage (R : Registry) (p : Package) : Registry :=
  { R with packages := R.packages.insert p }

def declaration? (R : Registry) (name : String) : Option Declaration :=
  R.declarations.find? name

def package? (R : Registry) (name : String) : Option Package :=
  R.packages.find? name

-- The module of the first package in the list that has a header, if every package before it
-- is registered.
def firstModule (R : Registry) : List String → Option ModuleRef
  | []            => none
  | name :: names =>
    match R.package? name with
    | none   => none
    | some p =>
      match p.header with
      | some d => some { packageName := p.name, name := d.name, groupPackage := d.groupPackage }
      | none   => R.firstModule names

-- The module that a package belongs to: that of the nearest package upwards with a header. A
-- package that is not registered ends the search.
def moduleOf (R : Registry) (packageName : String) : Option ModuleRef :=
  R.firstModule (Dotted.lineage packageName)

theorem name_of_declaration? {R : Registry} {name : String} {d : Declaration}
    (h : R.declaration? name = some d) : d.name = name :=
  Catalog.key_of_find? h

theorem name_of_package? {R : Registry} {name : String} {p : Package}
    (h : R.package? name = some p) : p.name = name :=
  Catalog.key_of_find? h

end Registry

end ApiSurface
