import ApiSurface.Json.Binary64
import ApiSurface.Json.Reader

namespace ApiSurface.Json

structure Numeral where
  negative : Bool := false
  integer  : List Char
  -- The digits behind the point; none if there is no point.
  fraction : List Char := []
  -- The letter of the exponent and its sign; nothing if there is no exponent.
  mark     : List Char := []
  exponent : List Char := []
deriving DecidableEq, Repr

namespace Numeral

-- The first natural number that does not fit 64 bits.
def wordLimit : Nat :=
  1 <<< 64

def ofNat (n : Nat) : Numeral where
  integer := Nat.toDigits 10 n

def toList (n : Numeral) : List Char :=
  (if n.negative then ['-'] else []) ++ n.integer
    ++ (if n.fraction.isEmpty then [] else '.' :: n.fraction) ++ n.mark ++ n.exponent

-- The value of a number that is written as a natural one and fits 64 bits.
def natural? (n : Numeral) : Option Nat :=
  let value := Nat.ofDigitChars 10 n.integer 0
  if !n.negative && n.fraction.isEmpty && n.mark.isEmpty && value < wordLimit then some value
  else none

-- Appends digits to a number for as long as it fits 64 bits, and tells how many were left out.
def gather : Nat → List Char → Nat × Nat
  | n, []      => (n, 0)
  | n, d :: ds =>
    let m := 10 * n + (d.toNat - '0'.toNat)
    if m < wordLimit then gather m ds else (n, ds.length + 1)

-- The digits that fit 64 bits, and the power of ten to scale them with. Digits of the integer part
-- that do not fit count for the power; those of the fraction are left out.
def scaled (n : Numeral) : Nat × Int :=
  let (whole, left)     := gather 0 n.integer
  let (digits, leftOut) := gather whole n.fraction
  let shift : Int       := left - (n.fraction.length - leftOut : Nat)
  let exponent : Int    := Nat.ofDigitChars 10 n.exponent 0
  (digits, if n.mark.contains '-' then shift - exponent else shift + exponent)

-- Whether a number is too large. The digits and the power of ten are rounded before they are
-- multiplied, and the product is rounded again.
def tooLarge (n : Numeral) : Bool :=
  let (digits, power) := n.scaled
  if power < 0 || digits == 0 then false
  else if 308 < power then true
  else Binary64.overflows (Binary64.nearest digits * Binary64.nearest (Nat.pow 10 power.toNat))

-- So a number may be too large that is less than the largest one of 64 bits.
example : 1797693134862315708 * 10 ^ 290 < 2 ^ 1024 - 2 ^ 971
    ∧ tooLarge ⟨false, ['1'], "797693134862315708".toList, ['e'], "308".toList⟩ := by
  decide +kernel

-- A run of digits, at least one.
def readDigits : Reader (List Char)
  | []      => .error .truncated
  | c :: cs =>
    if c.isDigit then .ok (c :: cs.takeWhile Char.isDigit, cs.dropWhile Char.isDigit)
    else .error .malformed

-- The integer part, which starts with a zero only if it is zero.
def readInteger : Reader (List Char)
  | []      => .error .truncated
  | c :: cs =>
    if c = '0' then
      if (cs.head?.map Char.isDigit).getD false then .error .malformed else .ok ([c], cs)
    else readDigits (c :: cs)

def readFraction : Reader (List Char)
  | []      => .ok ([], [])
  | c :: cs => if c = '.' then readDigits cs else .ok ([], c :: cs)

-- The letter and the sign of an exponent, and its digits.
def readExponent : Reader (List Char × List Char)
  | []      => .ok (([], []), [])
  | c :: cs =>
    if c = 'e' || c = 'E' then do
      let sign := (cs.take 1).filter fun s => s = '+' || s = '-'
      let (digits, rest) ← readDigits (cs.drop sign.length)
      .ok ((c :: sign, digits), rest)
    else .ok (([], []), c :: cs)

def read : Reader Numeral := fun cs => do
  let negative := cs.head? == some '-'
  let (integer, rest) ← readInteger (if negative then cs.drop 1 else cs)
  let (fraction, rest) ← readFraction rest
  let ((mark, exponent), rest) ← readExponent rest
  let n : Numeral := ⟨negative, integer, fraction, mark, exponent⟩
  if n.tooLarge then .error .malformed else .ok (n, rest)

end Numeral

end ApiSurface.Json
