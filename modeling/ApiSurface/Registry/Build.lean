import ApiSurface.Kind.Classification
import ApiSurface.Model
import ApiSurface.Registry.Search

namespace ApiSurface.Registry

def classInfo (R : Registry) (d : Declaration) : ClassInfo where
  kind   := Kind.ofDeclaration d.name d.flags
  name   := d.name
  home   := R.moduleOf d.packageName
  params := d.params.mapIdx fun index name => { owner := .cls d.name, index, name }

-- The model of a declaration without type arguments. An API interface gets the slots that
-- `slotsOf` has for it.
def buildNamed (R : Registry) (slotsOf : Declaration → Except ModelError (Slots Model))
    (name : String) : Except ModelError Model :=
  match R.declaration? name with
  | none   => .error (.unknownDeclaration name)
  | some d =>
    let info := R.classInfo d
    match info.kind with
    | .enumeration => .ok (.enumeration info d.constants)
    | .api         => (slotsOf d).map (.api info)
    | .valueObject => .ok (.valueObject info d.flags.isAbstract)
    | _            => .ok (.cls info)

-- The model of a type variable, which its owner has to declare.
def buildVariable (R : Registry) (owner : VarOwner) (name : String) : Except ModelError Model := do
  let (paramOwner, index?) ← match owner with
    | .cls cls =>
      match R.declaration? cls with
      | none   => .error (.unknownDeclaration cls)
      | some d => .ok (ParamOwner.cls cls, d.paramIndex? name)
    | .method declaring method params =>
      .ok (ParamOwner.method declaring method, params.findIdx? (· = name))
  match index? with
  | none       => .error (.undeclaredVariable name owner)
  | some index => .ok (.typeVar { owner := paramOwner, index, name })

mutual

-- The model of a reference whose API interfaces get the slots that `slotsOf` has for them.
def buildWith (R : Registry) (slotsOf : Declaration → Except ModelError (Slots Model)) :
    TypeRef → Except ModelError Model
  | .void               => .ok .void
  | .primitive name     =>
    match WellKnown.boxOf? name with
    | none       => .error (.unknownPrimitive name)
    | some boxed => .ok (.primitive name boxed)
  | .named name         => R.buildNamed slotsOf name
  | .applied name args  => do
    let args ← buildListWith R slotsOf args
    let raw ← R.buildNamed slotsOf name
    raw.applyTo? args
  | .typeVar owner name => R.buildVariable owner name
  | .wildcard upper lower => .error (.unsupportedShape (.wildcard upper lower))
  | .array component      => .error (.unsupportedShape (.array component))
termination_by structural t => t

def buildListWith (R : Registry) (slotsOf : Declaration → Except ModelError (Slots Model)) :
    List TypeRef → Except ModelError (List Model)
  | []      => .ok []
  | t :: ts => do
    let m ← buildWith R slotsOf t
    let ms ← buildListWith R slotsOf ts
    .ok (m :: ms)
termination_by structural ts => ts

end

-- The model of a reference inside the slots of the API interfaces `opened`, which are left with
-- empty slots; others are opened in turn, at most `depth` of them within each other.
def buildInside (R : Registry) : Nat → List String → TypeRef → Except ModelError Model
  | 0,         _      => R.buildWith fun _ => .ok .empty
  | depth + 1, opened => R.buildWith fun d =>
    if d.name ∈ opened then .ok .empty
    else Slots.fill fun slot =>
      match R.resolve (.named d.name) slot.capability slot.index with
      | none   => .ok none
      | some t => (R.buildInside depth (d.name :: opened) t).map some

-- The model of a reference. No more interfaces can be open within each other than there are
-- declarations.
def build (R : Registry) (t : TypeRef) : Except ModelError Model :=
  R.buildInside R.declarations.size [] t

end ApiSurface.Registry
