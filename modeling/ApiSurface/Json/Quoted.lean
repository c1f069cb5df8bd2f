import ApiSurface.Json.Reader

namespace ApiSurface.Json.Quoted

-- The characters that are escaped by a letter of their own, with that letter.
def shortEscapes : List (Char × Char) :=
  [('"', '"'), ('\\', '\\'), ('\x08', 'b'), ('\x0c', 'f'), ('\n', 'n'), ('\r', 'r'), ('\t', 't')]

-- A control character without a letter of its own is written with four hexadecimal digits.
def escape (c : Char) : List Char :=
  match shortEscapes.lookup c with
  | some letter => ['\\', letter]
  | none        =>
    if c.toNat < 0x20 then
      ['\\', 'u', '0', '0', Nat.digitChar (c.toNat / 16), Nat.digitChar (c.toNat % 16)]
    else [c]

def quote (s : String) : List Char :=
  '"' :: (s.toList.flatMap escape ++ ['"'])

-- The character that a letter behind a backslash stands for.
def unescape? (letter : Char) : Option Char :=
  [('"', '"'), ('\\', '\\'), ('/', '/'), ('b', '\x08'), ('f', '\x0c'), ('n', '\n'), ('r', '\r'),
   ('t', '\t')].lookup letter

def hexValue? (c : Char) : Option Nat :=
  if c.isDigit then some (c.toNat - '0'.toNat)
  else if 'a' ≤ c && c ≤ 'f' then some (c.toNat - 'a'.toNat + 10)
  else if 'A' ≤ c && c ≤ 'F' then some (c.toNat - 'A'.toNat + 10)
  else none

-- The number that four hexadecimal digits stand for. The text is truncated if what is left of it
-- takes less than four bytes.
def readHex (cs : List Char) : Except Fault Nat :=
  if ((cs.take 4).flatMap String.utf8EncodeChar).length < 4 then .error .truncated
  else match (cs.take 4).mapM hexValue? with
    | some [a, b, c, d] => .ok (((a * 16 + b) * 16 + c) * 16 + d)
    | _                 => .error .malformed

def isLeading (unit : Nat) : Bool :=
  0xd800 ≤ unit && unit < 0xdc00

def isTrailing (unit : Nat) : Bool :=
  0xdc00 ≤ unit && unit < 0xe000

-- The trailing half of a surrogate pair, whose escape has to follow the leading half at once.
def readTrailing (cs : List Char) : Except Fault Nat := do
  let unit ← readHex (← readWord ['\\', 'u'] cs)
  if isTrailing unit then .ok unit else .error .malformed

-- The character that an escape stands for, and the number of characters behind the backslash that
-- belong to the escape.
def readEscape : List Char → Except Fault (Char × Nat)
  | []           => .error .truncated
  | letter :: cs =>
    match unescape? letter with
    | some c => .ok (c, 1)
    | none   =>
      if letter = 'u' then do
        let unit ← readHex cs
        if isTrailing unit then .error .malformed
        else if isLeading unit then do
          let trailing ← readTrailing (cs.drop 4)
          .ok (Char.ofNat (0x10000 + (unit - 0xd800) * 0x400 + (trailing - 0xdc00)), 11)
        else .ok (Char.ofNat unit, 5)
      else .error .malformed

-- Reads up to the closing quote. The first `spent` characters belong to an escape that has been
-- read already.
def readRest : (spent : Nat) → Reader (List Char)
  | _,     []      => .error .truncated
  | n + 1, _ :: cs => readRest n cs
  | 0,     c :: cs =>
    if c = '"' then .ok ([], cs)
    else if c = '\\' then do
      let (d, n) ← readEscape cs
      let (ds, rest) ← readRest n cs
      .ok (d :: ds, rest)
    else if c.toNat < 0x20 then .error .malformed
    else do
      let (ds, rest) ← readRest 0 cs
      .ok (c :: ds, rest)

-- Reads a string behind its opening quote.
def read : Reader String := fun cs => do
  let (s, rest) ← readRest 0 cs
  .ok (String.ofList s, rest)

end ApiSurface.Json.Quoted
