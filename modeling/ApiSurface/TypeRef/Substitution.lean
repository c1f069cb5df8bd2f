import ApiSurface.TypeRef

namespace ApiSurface.TypeRef

mutual

-- Puts `binding x` in the place of each variable `x` of the class `cls` that has a binding.
def substitute (cls : String) (binding : String → Option TypeRef) : TypeRef → TypeRef
  | typeVar (.cls owner) name =>
    if owner = cls then (binding name).getD (classVar owner name) else classVar owner name
  | applied name args    => applied name (substituteList cls binding args)
  | wildcard upper lower =>
    wildcard (substituteBound cls binding upper) (substituteBound cls binding lower)
  | array component => array (substitute cls binding component)
  | t               => t
termination_by structural t => t

def substituteBound (cls : String) (binding : String → Option TypeRef) :
    Option TypeRef → Option TypeRef
  | none       => none
  | some bound => some (substitute cls binding bound)
termination_by structural b => b

def substituteList (cls : String) (binding : String → Option TypeRef) :
    List TypeRef → List TypeRef
  | []      => []
  | t :: ts => substitute cls binding t :: substituteList cls binding ts
termination_by structural ts => ts

end

theorem substituteBound_eq_map (cls : String) (binding : String → Option TypeRef)
    (b : Option TypeRef) : substituteBound cls binding b = b.map (substitute cls binding) := by
  cases b <;> rfl

theorem substituteList_eq_map (cls : String) (binding : String → Option TypeRef)
    (ts : List TypeRef) : substituteList cls binding ts = ts.map (substitute cls binding) := by
  induction ts with
  | nil          => rfl
  | cons t ts ih => simp [substituteList, ih]

-- Parameters paired with arguments in order. A parameter that is declared twice takes the last of
-- its arguments, and one beyond the last argument stays unbound.
def bind (params : List String) (args : List TypeRef) (name : String) : Option TypeRef :=
  (params.zip args).reverse.lookup name

end ApiSurface.TypeRef
