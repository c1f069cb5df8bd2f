import ApiSurface.Json.Value

namespace ApiSurface

namespace Json

-- The members of an object, in the order in which an array lists them.
inductive Fields : Type → Type 1 where
  -- `absent` is what an object without the member has in its place, if it may do without.
  | one {α : Type} (key : String) (read : Value → Except Fault α) (absent : Option α) : Fields α
  | both {α β : Type} (first : Fields α) (second : Fields β) : Fields (α × β)

namespace Fields

variable {α β : Type}

-- A member that has to be there.
def required (key : String) (read : Value → Except Fault α) : Fields α :=
  one key read none

-- A member that may be left out or null.
def optional (key : String) (read : Value → Except Fault α) : Fields (Option α) :=
  one key (fun v => match v with
    | .null => .ok none
    | v     => (read v).map some) (some none)

def keys : {α : Type} → Fields α → List String
  | _, one key _ _ => [key]
  | _, both f g    => f.keys ++ g.keys

-- The members that have been read so far.
@[reducible] def Draft : {α : Type} → Fields α → Type
  | α, one _ _ _ => Option α
  | _, both f g  => f.Draft × g.Draft

def blank : {α : Type} → (f : Fields α) → f.Draft
  | α, one _ _ _ => (none : Option α)
  | _, both f g  => (f.blank, g.blank)

-- Reads one more member of an object. A member may not be there twice.
def put : {α : Type} → (f : Fields α) → f.Draft → String → Value → Except Fault f.Draft
  | α, one name read _, got, key, v =>
    if key = name then
      match (got : Option α) with
      | some _ => .error .mismatched
      | none   => (read v).map some
    else .ok got
  | _, both f g, d, key, v =>
    if key ∈ f.keys then (f.put d.1 key v).map (·, d.2)
    else (g.put d.2 key v).map (d.1, ·)

-- What has been read, once all members have.
def finish : {α : Type} → (f : Fields α) → f.Draft → Except Fault α
  | α, one _ _ absent, got =>
    match (got : Option α) <|> absent with
    | some a => .ok a
    | none   => .error .mismatched
  | _, both f g, d => do
    let a ← f.finish d.1
    let b ← g.finish d.2
    .ok (a, b)

-- Reads further members of an object.
def putAll (f : Fields α) : f.Draft → List (String × Value) → Except Fault f.Draft
  | d, []           => .ok d
  | d, (k, v) :: ms => do
    let d ← f.put d k v
    f.putAll d ms

-- Reads the members from the start of an array; with them comes what is left of the array.
def take : {α : Type} → Fields α → List Value → Except Fault (α × List Value)
  | _, one _ _ _,    []      => .error .mismatched
  | _, one _ read _, v :: vs => (read v).map (·, vs)
  | _, both f g,     vs      => do
    let (a, vs) ← f.take vs
    let (b, vs) ← g.take vs
    .ok ((a, b), vs)

-- Reads a value that is an object with the members or an array of all of them.
def read (f : Fields α) : Value → Except Fault α
  | .object ms => do
    let d ← f.putAll f.blank ms
    f.finish d
  | .array vs  => do
    let (a, left) ← f.take vs
    if left.isEmpty then .ok a else .error .mismatched
  | _          => .error .mismatched

end Fields

namespace Value

def asString : Value → Except Fault String
  | string s => .ok s
  | _        => .error .mismatched

def asBool : Value → Except Fault Bool
  | bool b => .ok b
  | _      => .error .mismatched

-- A number that is written as a natural one and fits 64 bits.
def asNatural : Value → Except Fault Nat
  | number n =>
    match n.natural? with
    | some n => .ok n
    | none   => .error .mismatched
  | _        => .error .mismatched

-- An array whose items are read one after the other.
def asList {α : Type} (read : Value → Except Fault α) : Value → Except Fault (List α)
  | array vs => vs.mapM read
  | _        => .error .mismatched

-- Takes the tag from a value that has one: the member with a given key, which is there once, or
-- the first item of an array.
def untag {α : Type} (key : String) (read : Value → Option α) : Value → Except Fault (α × Value)
  | object ms =>
    match ms.filter (·.1 = key) with
    | [(_, v)] =>
      match read v with
      | some tag => .ok (tag, object (ms.filter (·.1 ≠ key)))
      | none     => .error .mismatched
    | _        => .error .mismatched
  | array (v :: vs) =>
    match read v with
    | some tag => .ok (tag, array vs)
    | none     => .error .mismatched
  | _ => .error .mismatched

end Value

end Json

end ApiSurface
