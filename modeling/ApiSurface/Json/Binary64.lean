namespace ApiSurface.Json.Binary64

-- The nearest number that has a significand of 53 bits; of two that are equally near, the one
-- whose significand is even.
def nearest (n : Nat) : Nat :=
  let unit  := 1 <<< (n.log2 - 52)
  let below := n / unit
  let left  := n % unit
  if 2 * left > unit || (2 * left == unit && below % 2 == 1) then (below + 1) * unit
  else below * unit

-- Whether a number is rounded to infinity.
def overflows (n : Nat) : Bool :=
  1 <<< 1024 ≤ nearest n

example : nearest (2 ^ 53 + 1) = 2 ^ 53 ∧ nearest (2 ^ 53 + 3) = 2 ^ 53 + 4 := by decide

example : overflows (2 ^ 1024 - 2 ^ 970) = true ∧ overflows (2 ^ 1024 - 2 ^ 970 - 1) = false := by
  decide +kernel

end ApiSurface.Json.Binary64
