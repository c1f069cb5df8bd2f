namespace ApiSurface.Dotted

-- What stands before and behind the last dot, for a name that has one.
def cutLast : List Char → Option (List Char × List Char)
  | []      => none
  | c :: cs =>
    match cutLast cs with
    | some (before, behind) => some (c :: before, behind)
    | none                  => if c = '.' then some ([], cs) else none

-- The part before the last dot; none for a name without dots.
def parent? (name : String) : Option String :=
  (cutLast name.toList).map (String.ofList ·.1)

-- The package of a class, which is the root package `""` if its name has no dots.
def package (name : String) : String :=
  (parent? name).getD ""

def simpleName (name : String) : String :=
  match cutLast name.toList with
  | some (_, behind) => String.ofList behind
  | none             => name

-- The parts before each of the dots, the shortest first.
def ancestors : List Char → List (List Char)
  | []      => []
  | c :: cs => (if c = '.' then [[]] else []) ++ (ancestors cs).map (c :: ·)

-- A package, its parent, the parent of that one, and so on up to the last with no dot left.
def lineage (package : String) : List String :=
  package :: (ancestors package.toList).reverse.map String.ofList

end ApiSurface.Dotted
