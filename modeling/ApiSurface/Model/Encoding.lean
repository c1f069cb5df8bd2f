import ApiSurface.Json.Value
import ApiSurface.Model.Shape

namespace ApiSurface

open Json (Value)

def Kind.toValue (k : Kind) : Value :=
  .string k.label

def ParamOwner.toValue : ParamOwner → Value
  | cls name              => .object [("kind", .string Form.cls.label), ("name", .string name)]
  | method declaring name =>
    .object [("kind", .string Form.method.label), ("class", .string declaring),
      ("method", .string name)]

def TypeParam.toValue (p : TypeParam) : Value :=
  .object [("owner", p.owner.toValue), ("index", .natural p.index), ("name", .string p.name)]

def ModuleRef.toValue (m : ModuleRef) : Value :=
  .object [("package", .string m.packageName), ("name", .string m.name),
    ("groupPackage", .string m.groupPackage)]

def ClassInfo.members (i : ClassInfo) : List (String × Value) :=
  [("kind", i.kind.toValue), ("name", .string i.name),
   ("module", (i.home.map ModuleRef.toValue).getD .null),
   ("typeParams", .array (i.params.map TypeParam.toValue))]

def ClassInfo.toValue (i : ClassInfo) : Value :=
  .object i.members

namespace Model

-- The object of a model: its tag, and then what belongs to its shape.
def tagged (shape : Shape) (members : List (String × Value)) : Value :=
  .object (("shape", .string shape.label) :: members)

mutual

def toValue : Model → Value
  | void                       => tagged .void []
  | primitive name boxed       =>
    tagged .primitive [("name", .string name), ("boxed", .string boxed)]
  | cls info                   => tagged .cls info.members
  | api info slots             =>
    tagged .api [("class", info.toValue), ("args", .object (slotMembers slots))]
  | valueObject info isAbstract =>
    tagged .valueObject [("class", info.toValue), ("isAbstract", .bool isAbstract)]
  | enumeration info constants =>
    tagged .enumeration [("class", info.toValue), ("values", .array (constants.map .string))]
  | applied raw args           =>
    tagged .applied [("raw", toValue raw), ("args", .array (toValueList args))]
  | typeVar param              => tagged .typeVar [("param", param.toValue)]
termination_by structural m => m

def slotMembers : Slots Model → List (String × Value)
  | ⟨readStream, writeStream, handler, iterable, iterator, functionIn, functionOut⟩ =>
    [("readStreamArg", slotValue readStream), ("writeStreamArg", slotValue writeStream),
     ("handlerArg", slotValue handler), ("iterableArg", slotValue iterable),
     ("iteratorArg", slotValue iterator), ("functionArgIn", slotValue functionIn),
     ("functionArgOut", slotValue functionOut)]
termination_by structural s => s

def slotValue : Option Model → Value
  | none   => .null
  | some m => toValue m
termination_by structural s => s

def toValueList : List Model → List Value
  | []      => []
  | m :: ms => toValue m :: toValueList ms
termination_by structural ms => ms

end

theorem slotValue_eq (s : Option Model) : slotValue s = (s.map toValue).getD .null := by
  cases s <;> rfl

theorem toValueList_eq_map (ms : List Model) : toValueList ms = ms.map toValue := by
  induction ms with
  | nil          => rfl
  | cons m ms ih => simp [toValueList, ih]

-- The JSON text of a model.
def write (m : Model) : String :=
  m.toValue.text

end Model

end ApiSurface
