import ApiSurface.WellKnown

namespace ApiSurface

inductive Capability where
  | readStream
  | writeStream
  | handler
  | iterable
  | iterator
  | function
deriving DecidableEq, Repr

namespace Capability

-- The name of the interface.
def declaration : Capability → String
  | readStream  => WellKnown.readStream
  | writeStream => WellKnown.writeStream
  | handler     => WellKnown.handler
  | iterable    => WellKnown.iterable
  | iterator    => WellKnown.iterator
  | function    => WellKnown.function

-- The number of type parameters of the interface.
def arity : Capability → Nat
  | function => 2
  | _        => 1

end Capability

inductive Slot where
  | readStream
  | writeStream
  | handler
  | iterable
  | iterator
  | functionIn
  | functionOut
deriving DecidableEq, Repr

namespace Slot

def capability : Slot → Capability
  | readStream  => .readStream
  | writeStream => .writeStream
  | handler     => .handler
  | iterable    => .iterable
  | iterator    => .iterator
  | functionIn  => .function
  | functionOut => .function

-- The position of the type parameter that a slot stands for.
def index : Slot → Nat
  | functionOut => 1
  | _           => 0

end Slot

-- What each slot holds; nothing for a capability that is not implemented.
structure Slots (α : Type) where
  readStream  : Option α := none
  writeStream : Option α := none
  handler     : Option α := none
  iterable    : Option α := none
  iterator    : Option α := none
  functionIn  : Option α := none
  functionOut : Option α := none
deriving DecidableEq, Repr

namespace Slots

variable {α β : Type}

def empty : Slots α := {}

def get (s : Slots α) : Slot → Option α
  | .readStream  => s.readStream
  | .writeStream => s.writeStream
  | .handler     => s.handler
  | .iterable    => s.iterable
  | .iterator    => s.iterator
  | .functionIn  => s.functionIn
  | .functionOut => s.functionOut

-- Fills the slots one after the other, in the order of their declaration.
def fill {m : Type → Type} [Monad m] (content : Slot → m (Option α)) : m (Slots α) := do
  let readStream  ← content .readStream
  let writeStream ← content .writeStream
  let handler     ← content .handler
  let iterable    ← content .iterable
  let iterator    ← content .iterator
  let functionIn  ← content .functionIn
  let functionOut ← content .functionOut
  return ⟨readStream, writeStream, handler, iterable, iterator, functionIn, functionOut⟩

def map (f : α → β) (s : Slots α) : Slots β where
  readStream  := s.readStream.map f
  writeStream := s.writeStream.map f
  handler     := s.handler.map f
  iterable    := s.iterable.map f
  iterator    := s.iterator.map f
  functionIn  := s.functionIn.map f
  functionOut := s.functionOut.map f

-- Whether a capability is implemented: one of its slots holds something.
def implements (s : Slots α) : Capability → Bool
  | .readStream  => s.readStream.isSome
  | .writeStream => s.writeStream.isSome
  | .handler     => s.handler.isSome
  | .iterable    => s.iterable.isSome
  | .iterator    => s.iterator.isSome
  | .function    => s.functionIn.isSome || s.functionOut.isSome

theorem ext_get {s t : Slots α} (h : ∀ slot, s.get slot = t.get slot) : s = t := by
  obtain ⟨_, _, _, _, _, _, _⟩ := s
  obtain ⟨_, _, _, _, _, _, _⟩ := t
  have h₁ := h .readStream
  have h₂ := h .writeStream
  have h₃ := h .handler
  have h₄ := h .iterable
  have h₅ := h .iterator
  have h₆ := h .functionIn
  have h₇ := h .functionOut
  simp_all [get]

@[simp] theorem get_empty (slot : Slot) : (empty : Slots α).get slot = none := by
  cases slot <;> rfl

@[simp] theorem get_map (f : α → β) (s : Slots α) (slot : Slot) :
    (s.map f).get slot = (s.get slot).map f := by
  cases slot <;> rfl

@[simp] theorem map_id (s : Slots α) : s.map id = s :=
  ext_get fun slot => by rw [get_map, Option.map_id, id]

end Slots

end ApiSurface
