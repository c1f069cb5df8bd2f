import ApiSurface.Capability
import ApiSurface.Declaration
import ApiSurface.Kind
import ApiSurface.ModelError

namespace ApiSurface

-- What declares a type parameter.
inductive ParamOwner where
  | cls (name : String)
  | method (declaring name : String)
deriving DecidableEq, Repr

def ParamOwner.display : ParamOwner → String
  | cls name              => name
  | method declaring name => declaring ++ "#" ++ name

-- A type parameter and its position among those of its owner.
structure TypeParam where
  owner : ParamOwner
  index : Nat
  name  : String
deriving DecidableEq, Repr

-- What the models of all classes, interfaces and enumerations have in common.
structure ClassInfo where
  kind   : Kind
  name   : String
  -- The module of its package.
  home   : Option ModuleRef
  params : List TypeParam
deriving DecidableEq, Repr

inductive Model where
  | void
  | primitive (name boxed : String)
  | cls (info : ClassInfo)
  | api (info : ClassInfo) (slots : Slots Model)
  | valueObject (info : ClassInfo) (isAbstract : Bool)
  | enumeration (info : ClassInfo) (constants : List String)
  | applied (raw : Model) (args : List Model)
  | typeVar (param : TypeParam)
deriving Repr, Inhabited

namespace Model

-- What is known of the class of a model, also of one that has type arguments.
def info? : Model → Option ClassInfo
  | cls info | api info _ | valueObject info _ | enumeration info _ => some info
  | applied raw _                                                   => info? raw
  | void | primitive _ _ | typeVar _                                => none

def kind : Model → Kind
  | void            => .void
  | primitive _ _   => .primitive
  | cls info        => info.kind
  | api _ _         => .api
  | valueObject _ _ => .valueObject
  | enumeration _ _ => .enumeration
  | applied raw _   => kind raw
  | typeVar _       => .other

-- The full name of the class, or the name of the primitive or variable.
def name : Model → String
  | void             => "void"
  | primitive name _ => name
  | cls info | api info _ | valueObject info _ | enumeration info _ => info.name
  | applied raw _    => name raw
  | typeVar param    => param.name

-- A class, interface or enumeration without type arguments.
def isClass : Model → Bool
  | cls _ | api _ _ | valueObject _ _ | enumeration _ _ => true
  | _                                                   => false

def isApplied : Model → Bool
  | applied _ _ => true
  | _           => false

-- The type arguments; none for a model that is not applied to any.
def args : Model → List Model
  | applied _ args => args
  | _              => []

-- The model without its type arguments.
def raw : Model → Model
  | applied raw _ => raw
  | m             => m

-- The capability slots of an API interface, also of one that has type arguments.
def slots? (m : Model) : Option (Slots Model) :=
  match m.raw with
  | api _ slots => some slots
  | _           => none

def home? (m : Model) : Option ModuleRef :=
  m.info?.bind (·.home)

mutual

-- A model as the reference that it stands for is written.
def display : Model → String
  | applied raw args => display raw ++ "<" ++ ",".intercalate (displayList args) ++ ">"
  | m                => m.name
termination_by structural m => m

def displayList : List Model → List String
  | []      => []
  | m :: ms => display m :: displayList ms
termination_by structural ms => ms

end

theorem displayList_eq_map (ms : List Model) : displayList ms = ms.map display := by
  induction ms with
  | nil          => rfl
  | cons m ms ih => simp [displayList, ih]

-- Gives a model its type arguments: at least one, and as many as its class declares.
def applyTo? (raw : Model) (args : List Model) : Except ModelError Model :=
  match raw.info? with
  | none      => .error (.notAClass raw.display)
  | some info =>
    if args.isEmpty || args.length != info.params.length then
      .error (.arityMismatch info.name info.params.length args.length)
    else
      .ok (applied raw args)

end Model

end ApiSurface
