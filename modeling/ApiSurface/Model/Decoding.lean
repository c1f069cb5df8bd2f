import ApiSurface.Json.Fields
import ApiSurface.Json.Text
import ApiSurface.Model.Shape

namespace ApiSurface

open Json (Fields Reader Value)

-- The tag of an object in a model: one of several labels, or the position of one among them.
def tagOf? {α : Type} (all : List α) (label : α → String) : Value → Option α
  | .string s => all.find? (label · = s)
  | .number n => n.natural?.bind (all[·]?)
  | _         => none

namespace Kind

-- A kind is its label, or an object whose only key is the label and whose value is null.
def ofValue : Value → Except Fault Kind
  | .string s             => (ofLabel? s).elim (.error .mismatched) .ok
  | .object [(s, .null)]  => (ofLabel? s).elim (.error .mismatched) .ok
  | _                     => .error .mismatched

-- Inside a model an empty object may stand in the place of the null.
def ofMember : Value → Except Fault Kind
  | .object [(s, .object [])] => ofValue (.string s)
  | v                         => ofValue v

end Kind

def ParamOwner.ofValue (v : Value) : Except Fault ParamOwner := do
  let (form, content) ← v.untag "kind" (tagOf? Form.all Form.label)
  match form with
  | .cls    => do
    let name ← (Fields.required "name" Value.asString).read content
    return .cls name
  | .method => do
    let fields := (Fields.required "class" Value.asString).both <| .required "method" Value.asString
    let (declaring, name) ← fields.read content
    return .method declaring name

def TypeParam.ofValue (v : Value) : Except Fault TypeParam := do
  let fields := (Fields.required "owner" ParamOwner.ofValue).both <|
    (Fields.required "index" Value.asNatural).both <| .required "name" Value.asString
  let (owner, index, name) ← fields.read v
  return ⟨owner, index, name⟩

def ModuleRef.ofValue (v : Value) : Except Fault ModuleRef := do
  let fields := (Fields.required "package" Value.asString).both <|
    (Fields.required "name" Value.asString).both <| .required "groupPackage" Value.asString
  let (packageName, name, groupPackage) ← fields.read v
  return ⟨packageName, name, groupPackage⟩

def ClassInfo.ofValue (v : Value) : Except Fault ClassInfo := do
  let fields := (Fields.required "kind" Kind.ofMember).both <|
    (Fields.required "name" Value.asString).both <|
    (Fields.optional "module" ModuleRef.ofValue).both <|
    .required "typeParams" (Value.asList TypeParam.ofValue)
  let (kind, name, home, params) ← fields.read v
  return ⟨kind, name, home, params⟩

-- The slots of an API interface, each holding what `content` reads.
def Slots.ofValue {α : Type} (content : Value → Except Fault α) (v : Value) :
    Except Fault (Slots α) := do
  let fields := (Fields.optional "readStreamArg" content).both <|
    (Fields.optional "writeStreamArg" content).both <|
    (Fields.optional "handlerArg" content).both <|
    (Fields.optional "iterableArg" content).both <|
    (Fields.optional "iteratorArg" content).both <|
    (Fields.optional "functionArgIn" content).both <| .optional "functionArgOut" content
  let (readStream, writeStream, handler, iterable, iterator, functionIn, functionOut) ←
    fields.read v
  return ⟨readStream, writeStream, handler, iterable, iterator, functionIn, functionOut⟩

namespace Model

-- A model in a value whose tag has been taken. The models within it are read by `inner`.
def ofShape (inner : Value → Except Fault Model) (v : Value) : Shape → Except Fault Model
  | .void =>
    match v with
    | .array (_ :: _) => .error .mismatched
    | _               => .ok .void
  | .primitive => do
    let fields := (Fields.required "name" Value.asString).both <| .required "boxed" Value.asString
    let (name, boxed) ← fields.read v
    return .primitive name boxed
  | .cls => do return .cls (← ClassInfo.ofValue v)
  | .api => do
    let fields := (Fields.required "class" ClassInfo.ofValue).both <|
      .required "args" (Slots.ofValue inner)
    let (info, slots) ← fields.read v
    return .api info slots
  | .valueObject => do
    let fields := (Fields.required "class" ClassInfo.ofValue).both <|
      .required "isAbstract" Value.asBool
    let (info, isAbstract) ← fields.read v
    return .valueObject info isAbstract
  | .enumeration => do
    let fields := (Fields.required "class" ClassInfo.ofValue).both <|
      .required "values" (Value.asList Value.asString)
    let (info, constants) ← fields.read v
    return .enumeration info constants
  | .applied => do
    let fields := (Fields.required "raw" inner).both <| .required "args" (Value.asList inner)
    let (raw, args) ← fields.read v
    (raw.applyTo? args).mapError .inconsistent
  | .typeVar => do
    let param ← (Fields.required "param" TypeParam.ofValue).read v
    return .typeVar param

-- A model in a value whose models are nested no deeper than `depth`.
def ofValueWithin : (depth : Nat) → Value → Except Fault Model
  | 0,         _ => .error .mismatched
  | depth + 1, v => do
    let (shape, content) ← v.untag "shape" (tagOf? Shape.all Shape.label)
    ofShape (ofValueWithin depth) content shape

def ofValue (v : Value) : Except Fault Model :=
  ofValueWithin v.depth v

-- The tag of the outermost object, which has to be a label.
def wantTag : Value → Except Fault Value
  | .string s => if (Shape.ofLabel? s).isSome then .ok (.string s) else .error .mismatched
  | _         => .error .mismatched

-- Reads the next member of the outermost object, behind the given ones.
def readOuterMember (before : List (String × Value)) : Reader (String × Value) :=
  Json.readMember fun key =>
    if key ≠ "shape" then .ok (Json.readValue (Json.maxDepth - 1))
    else if before.any (·.1 = key) then .error .mismatched
    else .ok (Json.readWanted wantTag)

-- Reads the next item of the outermost array, behind the given ones.
def readOuterItem (before : List Value) : Reader Value :=
  if before.isEmpty then Json.readWanted wantTag else Json.readValue (Json.maxDepth - 1)

-- Reads the value that a model is to be found in, with an eye on its tag.
def readOuter : Reader Value
  | []      => .error .truncated
  | c :: cs =>
    if c = '[' then do
      let (items, rest) ← Json.readGroup ']' readOuterItem cs
      .ok (.array items, rest)
    else if c = '{' then do
      let (members, rest) ← Json.readGroup '}' readOuterMember cs
      .ok (.object members, rest)
    else Json.readScalar (c :: cs)

-- The model in a JSON text.
def read (s : String) : Except Fault Model := do
  let (v, rest) ← readOuter (Json.skipBlanks s.toList)
  let m ← ofValue v
  Json.expectEnd rest
  return m

end Model

end ApiSurface
