import ApiSurface.Fault

namespace ApiSurface.Json

-- Reads a value from the start of a text; with it comes what is left of the text.
abbrev Reader (α : Type) := List Char → Except Fault (α × List Char)

-- Space, tab, line feed and carriage return.
def isBlank (c : Char) : Bool :=
  c = ' ' || c = '\t' || c = '\n' || c = '\r'

def skipBlanks (cs : List Char) : List Char :=
  cs.dropWhile isBlank

-- The word has to follow, up to its last letter.
def readWord : List Char → List Char → Except Fault (List Char)
  | [],      cs      => .ok cs
  | _ :: _,  []      => .error .truncated
  | w :: ws, c :: cs => if c = w then readWord ws cs else .error .malformed

variable {α : Type}

-- Reads items with commas between them up to the closing bracket, starting with an item. An item
-- may depend on those before it, which it is given with the last one first. No more than `limit`
-- items are read, which is never too few if it is the length of the text.
def readItems (close : Char) (item : List α → Reader α) :
    (limit : Nat) → List α → Reader (List α)
  | 0,     _,  _  => .error .truncated
  | n + 1, as, cs => do
    let (a, cs) ← item as cs
    match skipBlanks cs with
    | []      => .error .truncated
    | c :: cs =>
      if c = close then .ok ((a :: as).reverse, cs)
      else if c = ',' then readItems close item n (a :: as) (skipBlanks cs)
      else .error .malformed

-- Reads what stands behind an opening bracket, up to the closing one.
def readGroup (close : Char) (item : List α → Reader α) : Reader (List α) := fun cs =>
  match skipBlanks cs with
  | []      => .error .truncated
  | c :: cs =>
    if c = close then .ok ([], cs)
    else readItems close item (cs.length + 1) [] (c :: cs)

end ApiSurface.Json
