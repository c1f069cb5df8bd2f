import ApiSurface.Json.Value

namespace ApiSurface.Json

-- The number of arrays and objects that may stand within each other.
def maxDepth : Nat := 127

-- Reads a value that is neither an array nor an object.
def readScalar : Reader Value
  | []      => .error .truncated
  | c :: cs =>
    if c = '"' then do
      let (s, rest) ← Quoted.read cs
      .ok (.string s, rest)
    else if c = '-' || c.isDigit then do
      let (n, rest) ← Numeral.read (c :: cs)
      .ok (.number n, rest)
    else if c = 'n' then do .ok (.null, ← readWord ['u', 'l', 'l'] cs)
    else if c = 't' then do .ok (.bool true, ← readWord ['r', 'u', 'e'] cs)
    else if c = 'f' then do .ok (.bool false, ← readWord ['a', 'l', 's', 'e'] cs)
    else .error .malformed

-- Reads the key of a member.
def readKey : Reader String
  | []      => .error .truncated
  | c :: cs => if c = '"' then Quoted.read cs else .error .malformed

-- Goes on to the value of a member, behind the colon.
def readColon (cs : List Char) : Except Fault (List Char) := do
  let rest ← readWord [':'] (skipBlanks cs)
  .ok (skipBlanks rest)

-- Reads a member. As soon as its key is complete, the key is refused or a reader for the value is
-- chosen.
def readMember {α : Type} (reader : String → Except Fault (Reader α)) : Reader (String × α) :=
  fun cs => do
    let (key, rest) ← readKey cs
    let value ← reader key
    let (v, rest) ← value (← readColon rest)
    .ok ((key, v), rest)

-- Reads a value with arrays and objects up to the given depth.
def readValue : (depth : Nat) → Reader Value
  | 0,         cs => readScalar cs
  | depth + 1, cs =>
    match cs with
    | []      => .error .truncated
    | c :: cs =>
      if c = '[' then do
        let (items, rest) ← readGroup ']' (fun _ => readValue depth) cs
        .ok (.array items, rest)
      else if c = '{' then do
        let (members, rest) ← readGroup '}' (fun _ => readMember fun _ => .ok (readValue depth)) cs
        .ok (.object members, rest)
      else readScalar (c :: cs)

-- Reads a value where an array or object is not wanted: they are refused at their bracket, all
-- other values behind their end.
def readWanted {α : Type} (want : Value → Except Fault α) : Reader α := fun cs => do
  if cs.head? == some '[' || cs.head? == some '{' then .error .mismatched
  else
    let (v, rest) ← readScalar cs
    .ok (← want v, rest)

-- Behind the last value of a text only blanks may stand.
def expectEnd (cs : List Char) : Except Fault Unit :=
  if (skipBlanks cs).isEmpty then .ok () else .error .malformed

end ApiSurface.Json
