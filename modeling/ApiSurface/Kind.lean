namespace ApiSurface

inductive Kind where
  | void
  | primitive
  | boxedPrimitive
  | string
  | jsonObject
  | jsonArray
  | enumeration
  | api
  | valueObject
  | list
  | set
  | map
  | throwable
  -- Every declaration that is neither well-known nor flagged.
  | other
deriving DecidableEq, Repr

namespace Kind

def all : List Kind :=
  [void, primitive, boxedPrimitive, string, jsonObject, jsonArray, enumeration, api, valueObject,
   list, set, map, throwable, other]

theorem mem_all (k : Kind) : k ∈ all := by cases k <;> decide

-- The word for a kind in texts and in encoded models.
def label : Kind → String
  | void           => "VOID"
  | primitive      => "PRIMITIVE"
  | boxedPrimitive => "BOXED_PRIMITIVE"
  | string         => "STRING"
  | jsonObject     => "JSON_OBJECT"
  | jsonArray      => "JSON_ARRAY"
  | enumeration    => "ENUM"
  | api            => "API_INTERFACE"
  | valueObject    => "VALUE_OBJECT"
  | list           => "LIST"
  | set            => "SET"
  | map            => "MAP"
  | throwable      => "THROWABLE"
  | other          => "OTHER"

-- The kind with a given label. Labels are case-sensitive.
def ofLabel? (s : String) : Option Kind :=
  all.find? (·.label = s)

@[simp] theorem ofLabel?_label (k : Kind) : ofLabel? k.label = some k := by
  cases k <;> decide

-- A list, a set or a map.
def isContainer : Kind → Bool
  | list | set | map => true
  | _                => false

-- A primitive, a boxed primitive, a string or one of the JSON types.
def isBasic : Kind → Bool
  | primitive | boxedPrimitive | string | jsonObject | jsonArray => true
  | _                                                            => false

end Kind

end ApiSurface
