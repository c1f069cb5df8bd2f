namespace ApiSurface

-- What declares a type variable: a class, or a generic method with its variables in order.
inductive VarOwner where
  | cls (name : String)
  | method (declaring name : String) (params : List String)
deriving DecidableEq, Repr

-- The text that identifies an owner.
def VarOwner.identity : VarOwner → String
  | cls name                => name
  | method declaring name _ => declaring ++ "#" ++ name

inductive TypeRef where
  | void
  | primitive (name : String)
  -- A class, interface or enumeration without type arguments.
  | named (name : String)
  | applied (name : String) (args : List TypeRef)
  | typeVar (owner : VarOwner) (name : String)
  | wildcard (upper lower : Option TypeRef)
  | array (component : TypeRef)
deriving Repr, Inhabited

namespace TypeRef

-- A variable that a class declares.
def classVar (cls name : String) : TypeRef :=
  typeVar (.cls cls) name

-- The name of the declaration that is referred to.
def declaration? : TypeRef → Option String
  | named name | applied name _ => some name
  | _                           => none

def owner? : TypeRef → Option VarOwner
  | typeVar owner _ => some owner
  | _               => none

mutual

-- A reference as it is written in a declaration.
def display : TypeRef → String
  | void                 => "void"
  | primitive name       => name
  | named name           => name
  | applied name args    => name ++ "<" ++ ",".intercalate (displayList args) ++ ">"
  | typeVar _ name       => name
  | wildcard upper lower => "?" ++ displayBound " extends " upper ++ displayBound " super " lower
  | array component      => display component ++ "[]"
termination_by structural t => t

def displayBound (word : String) : Option TypeRef → String
  | none       => ""
  | some bound => word ++ display bound
termination_by structural b => b

def displayList : List TypeRef → List String
  | []      => []
  | t :: ts => display t :: displayList ts
termination_by structural ts => ts

end

theorem displayList_eq_map (ts : List TypeRef) : displayList ts = ts.map display := by
  induction ts with
  | nil          => rfl
  | cons t ts ih => simp [displayList, ih]

mutual

-- Whether two references are the same tree.
def same : TypeRef → TypeRef → Bool
  | void,         void           => true
  | primitive m,  primitive n    => m == n
  | named m,      named n        => m == n
  | applied m ss, applied n ts   => m == n && sameList ss ts
  | typeVar o m,  typeVar p n    => o == p && m == n
  | wildcard u l, wildcard u' l' => sameBound u u' && sameBound l l'
  | array s,      array t        => same s t
  | _,            _              => false
termination_by structural s => s

def sameBound : Option TypeRef → Option TypeRef → Bool
  | none,   none   => true
  | some s, some t => same s t
  | _,      _      => false
termination_by structural b => b

def sameList : List TypeRef → List TypeRef → Bool
  | [],      []      => true
  | s :: ss, t :: ts => same s t && sameList ss ts
  | _,       _       => false
termination_by structural ss => ss

end

mutual

theorem same_iff : ∀ s t : TypeRef, same s t ↔ s = t
  | void,         t => by cases t <;> simp [same]
  | primitive _,  t => by cases t <;> simp [same]
  | named _,      t => by cases t <;> simp [same]
  | applied _ ss, t => by cases t <;> simp [same, sameList_iff ss]
  | typeVar _ _,  t => by cases t <;> simp [same]
  | wildcard u l, t => by cases t <;> simp [same, sameBound_iff u, sameBound_iff l]
  | array s,      t => by cases t <;> simp [same, same_iff s]
termination_by structural s => s

theorem sameBound_iff : ∀ b c : Option TypeRef, sameBound b c ↔ b = c
  | none,   c => by cases c <;> simp [sameBound]
  | some s, c => by cases c <;> simp [sameBound, same_iff s]
termination_by structural b => b

theorem sameList_iff : ∀ ss ts : List TypeRef, sameList ss ts ↔ ss = ts
  | [],      ts => by cases ts <;> simp [sameList]
  | s :: ss, ts => by cases ts <;> simp [sameList, same_iff s, sameList_iff ss]
termination_by structural ss => ss

end

instance : DecidableEq TypeRef := fun s t => decidable_of_iff _ (same_iff s t)

end TypeRef

end ApiSurface
