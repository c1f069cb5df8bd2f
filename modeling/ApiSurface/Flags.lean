namespace ApiSurface

structure Flags where
  valueObject : Bool := false
  api         : Bool := false
  enumeration : Bool := false
  isAbstract  : Bool := false
deriving DecidableEq, Repr

namespace Flags

-- The marks whose bits are set in a number. Bits above the fourth have no mark and are dropped.
def ofBits (n : Nat) : Flags where
  valueObject := n.testBit 0
  api         := n.testBit 1
  enumeration := n.testBit 2
  isAbstract  := n.testBit 3

-- The number whose bits are the marks.
def toBits (f : Flags) : Nat :=
  f.valueObject.toNat + 2 * f.api.toNat + 4 * f.enumeration.toNat + 8 * f.isAbstract.toNat

-- The names of the marks that are set, in the order of their bits.
def names (f : Flags) : List String :=
  [(f.valueObject, "VALUE_OBJECT"), (f.api, "API"), (f.enumeration, "ENUM"),
   (f.isAbstract, "ABSTRACT")].filterMap fun (set, name) => if set then some name else none

theorem ofBits_toBits (f : Flags) : ofBits f.toBits = f := by
  obtain ⟨a, b, c, d⟩ := f
  cases a <;> cases b <;> cases c <;> cases d <;> decide

end Flags

end ApiSurface
