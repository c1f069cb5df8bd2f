import ApiSurface.Proofs.Build.Opening
import ApiSurface.Proofs.Model.Nodes
import Mathlib.Logic.Relation

namespace ApiSurface.Registry

open Relation

variable {R : Registry} {opened : List String} {d : Declaration} {name : String}
  {args : List TypeRef} {t u v : TypeRef} {owner : VarOwner}

end ApiSurface.Registry
