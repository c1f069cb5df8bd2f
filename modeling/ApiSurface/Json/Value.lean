import ApiSurface.Json.Numeral
import ApiSurface.Json.Quoted

namespace ApiSurface.Json

inductive Value where
  | null
  | bool (b : Bool)
  | number (n : Numeral)
  | string (s : String)
  | array (items : List Value)
  -- Members in the order of the text. A key may stand there more than once.
  | object (members : List (String × Value))
deriving Inhabited

namespace Value

def natural (n : Nat) : Value :=
  number (.ofNat n)

mutual

-- The number of arrays and objects around the innermost value, itself included.
def depth : Value → Nat
  | array items    => depthItems items + 1
  | object members => depthMembers members + 1
  | _              => 0
termination_by structural v => v

def depthItems : List Value → Nat
  | []      => 0
  | v :: vs => max (depth v) (depthItems vs)
termination_by structural vs => vs

def depthMembers : List (String × Value) → Nat
  | []           => 0
  | (_, v) :: ms => max (depth v) (depthMembers ms)
termination_by structural ms => ms

end

mutual

-- The text of a value.
def render : Value → List Char
  | null           => ['n', 'u', 'l', 'l']
  | bool true      => ['t', 'r', 'u', 'e']
  | bool false     => ['f', 'a', 'l', 's', 'e']
  | number n       => n.toList
  | string s       => Quoted.quote s
  | array []       => ['[', ']']
  | array (v :: vs) => '[' :: (render v ++ (renderItems vs ++ [']']))
  | object []      => ['{', '}']
  | object ((k, v) :: ms) =>
    '{' :: (Quoted.quote k ++ ':' :: (render v ++ (renderMembers ms ++ ['}'])))
termination_by structural v => v

-- Further items, each behind a comma.
def renderItems : List Value → List Char
  | []      => []
  | v :: vs => ',' :: (render v ++ renderItems vs)
termination_by structural vs => vs

-- Further members, each behind a comma.
def renderMembers : List (String × Value) → List Char
  | []           => []
  | (k, v) :: ms => ',' :: (Quoted.quote k ++ ':' :: (render v ++ renderMembers ms))
termination_by structural ms => ms

end

-- The text of a value as a string.
def text (v : Value) : String :=
  String.ofList v.render

end Value

end ApiSurface.Json
