import ApiSurface.Model

namespace ApiSurface.Model

mutual

-- Whether two models are the same tree.
def same : Model → Model → Bool
  | void,            void            => true
  | primitive n b,   primitive n' b' => n == n' && b == b'
  | cls i,           cls j           => i == j
  | api i s,         api j t         => i == j && sameSlots s t
  | valueObject i a, valueObject j b => i == j && a == b
  | enumeration i c, enumeration j d => i == j && c == d
  | applied m ms,    applied n ns    => same m n && sameList ms ns
  | typeVar p,       typeVar q       => p == q
  | _,               _               => false
termination_by structural m => m

def sameSlots : Slots Model → Slots Model → Bool
  | ⟨a, b, c, d, e, f, g⟩, ⟨a', b', c', d', e', f', g'⟩ =>
    sameSlot a a' && sameSlot b b' && sameSlot c c' && sameSlot d d' && sameSlot e e'
      && sameSlot f f' && sameSlot g g'
termination_by structural s => s

def sameSlot : Option Model → Option Model → Bool
  | none,   none   => true
  | some m, some n => same m n
  | _,      _      => false
termination_by structural s => s

def sameList : List Model → List Model → Bool
  | [],      []      => true
  | m :: ms, n :: ns => same m n && sameList ms ns
  | _,       _       => false
termination_by structural ms => ms

end

mutual

theorem same_iff : ∀ m n : Model, same m n ↔ m = n
  | void,            n => by cases n <;> simp [same]
  | primitive _ _,   n => by cases n <;> simp [same]
  | cls _,           n => by cases n <;> simp [same]
  | api _ s,         n => by cases n <;> simp [same, sameSlots_iff s]
  | valueObject _ _, n => by cases n <;> simp [same]
  | enumeration _ _, n => by cases n <;> simp [same]
  | applied m ms,    n => by cases n <;> simp [same, same_iff m, sameList_iff ms]
  | typeVar _,       n => by cases n <;> simp [same]
termination_by structural m => m

theorem sameSlots_iff : ∀ s t : Slots Model, sameSlots s t ↔ s = t
  | ⟨a, b, c, d, e, f, g⟩, ⟨_, _, _, _, _, _, _⟩ => by
    simp [sameSlots, sameSlot_iff a, sameSlot_iff b, sameSlot_iff c, sameSlot_iff d,
      sameSlot_iff e, sameSlot_iff f, sameSlot_iff g, and_assoc]
termination_by structural s => s

theorem sameSlot_iff : ∀ s t : Option Model, sameSlot s t ↔ s = t
  | none,   t => by cases t <;> simp [sameSlot]
  | some m, t => by cases t <;> simp [sameSlot, same_iff m]
termination_by structural s => s

theorem sameList_iff : ∀ ms ns : List Model, sameList ms ns ↔ ms = ns
  | [],      ns => by cases ns <;> simp [sameList]
  | m :: ms, ns => by cases ns <;> simp [sameList, same_iff m, sameList_iff ms]
termination_by structural ms => ms

end

instance : DecidableEq Model := fun m n => decidable_of_iff _ (same_iff m n)

end ApiSurface.Model
