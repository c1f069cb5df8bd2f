import ApiSurface.Model

namespace ApiSurface

namespace Slot

def all : List Slot :=
  [readStream, writeStream, handler, iterable, iterator, functionIn, functionOut]

theorem mem_all (s : Slot) : s ∈ all := by
  cases s <;> decide

end Slot

namespace Model

-- Slots, arguments and raw models are smaller than the model that they stand in.
@[elab_as_elim, induction_eliminator]
theorem induction {motive : Model → Prop}
    (void        : motive void)
    (primitive   : ∀ name boxed, motive (primitive name boxed))
    (cls         : ∀ info, motive (cls info))
    (api         : ∀ info slots, (∀ slot m, slots.get slot = some m → motive m) →
      motive (api info slots))
    (valueObject : ∀ info isAbstract, motive (valueObject info isAbstract))
    (enumeration : ∀ info constants, motive (enumeration info constants))
    (applied     : ∀ raw args, motive raw → (∀ m ∈ args, motive m) → motive (applied raw args))
    (typeVar     : ∀ param, motive (typeVar param))
    (m : Model) : motive m := by
  refine @Model.rec motive (fun s => ∀ slot m, s.get slot = some m → motive m)
    (fun ms => ∀ m ∈ ms, motive m) (fun s => ∀ m, s = some m → motive m) void primitive cls api
    valueObject enumeration applied typeVar ?slots ?nil ?cons ?none ?some m
  case slots =>
    intro _ _ _ _ _ _ _ h₁ h₂ h₃ h₄ h₅ h₆ h₇ slot
    cases slot <;> assumption
  case nil  => simp
  case cons => simp_all
  case none => simp
  case some => simp_all

-- `Node n m` means that `n` stands somewhere in `m`.
inductive Node : Model → Model → Prop
  | self {m}              : Node m m
  | raw {n raw args}      : Node n raw → Node n (applied raw args)
  | arg {n raw args a}    : a ∈ args → Node n a → Node n (applied raw args)
  | slot {n info slots a} (slot : Slot) : slots.get slot = some a → Node n a →
      Node n (api info slots)

-- A model that nothing else stands in.
def IsLeaf : Model → Prop
  | api _ _ | applied _ _ => False
  | _                     => True

section Node

variable {m n raw : Model} {args : List Model} {info : ClassInfo} {slots : Slots Model}

theorem node_applied_iff :
    Node n (applied raw args) ↔ n = applied raw args ∨ Node n raw ∨ ∃ a ∈ args, Node n a := by
  constructor
  case mp =>
    intro hn
    cases hn
    case self      => exact .inl rfl
    case raw hn    => exact .inr (.inl hn)
    case arg hn ha => exact .inr (.inr ⟨_, ha, hn⟩)
  case mpr =>
    rintro (rfl | hn | ⟨_, ha, hn⟩)
    · exact .self
    · exact .raw hn
    · exact .arg ha hn

theorem node_api_iff :
    Node n (api info slots)
      ↔ n = api info slots ∨ ∃ slot m, slots.get slot = some m ∧ Node n m := by
  constructor
  case mp =>
    intro hn
    cases hn
    case self           => exact .inl rfl
    case slot slot hn h => exact .inr ⟨slot, _, h, hn⟩
  case mpr =>
    rintro (rfl | ⟨slot, _, h, hn⟩)
    · exact .self
    · exact .slot slot h hn

theorem node_leaf_iff (h : m.IsLeaf) : Node n m ↔ n = m := by
  constructor
  case mp =>
    intro hn
    cases hn
    case self => rfl
    all_goals exact h.elim
  case mpr => exact fun he => he ▸ .self

end Node

-- What holds of all nodes of a model.
def Everywhere (P : Model → Prop) (m : Model) : Prop :=
  ∀ n, Node n m → P n

namespace Everywhere

variable {P : Model → Prop} {m n : Model} {args : List Model} {info : ClassInfo}
  {slots : Slots Model}

theorem self (h : Everywhere P m) : P m :=
  h m .self

theorem raw (h : Everywhere P (applied m args)) : Everywhere P m :=
  fun n hn => h n (.raw hn)

theorem arg (h : Everywhere P (applied m args)) (ha : n ∈ args) : Everywhere P n :=
  fun k hk => h k (.arg ha hk)

theorem slot {slot : Slot} (h : Everywhere P (api info slots)) (hs : slots.get slot = some m) :
    Everywhere P m :=
  fun n hn => h n (.slot slot hs hn)

theorem of_leaf (h : P m) (hl : m.IsLeaf) : Everywhere P m := by
  intro n hn
  exact (node_leaf_iff hl).mp hn ▸ h

theorem of_applied (h : P (applied m args)) (hr : Everywhere P m)
    (ha : ∀ a ∈ args, Everywhere P a) : Everywhere P (applied m args)
  | _, .self       => h
  | _, .raw hn     => hr _ hn
  | _, .arg hm hn  => ha _ hm _ hn

theorem of_api (h : P (api info slots))
    (hs : ∀ slot a, slots.get slot = some a → Everywhere P a) : Everywhere P (api info slots)
  | _, .self           => h
  | _, .slot slot hm hn => hs slot _ hm _ hn

end Everywhere

-- A node that has type arguments was given them by `applyTo?`.
def Applies : Model → Prop
  | applied raw args => raw.applyTo? args = .ok (applied raw args)
  | _                => True

theorem applyTo?_eq_ok_iff {m raw : Model} {args : List Model} :
    raw.applyTo? args = .ok m ↔ m = applied raw args ∧
      ∃ info, raw.info? = some info ∧ args ≠ [] ∧ args.length = info.params.length := by
  rw [applyTo?]
  cases raw.info?
  case none      => simp
  case some info =>
    by_cases hn : args = [] <;> by_cases hl : args.length = info.params.length <;>
      simp [hn, hl, eq_comm (a := m)]

-- The type parameters that a node itself names.
def ownParams : Model → List TypeParam
  | cls info | api info _ | valueObject info _ | enumeration info _ => info.params
  | typeVar param                                                   => [param]
  | void | primitive _ _ | applied _ _                              => []

end Model

end ApiSurface
