import ApiSurface.Proofs.Json.Strict

namespace ApiSurface.Json

namespace Value

-- One member with a key among the given ones, at any depth, is null in the second value and missing
-- from the third.
inductive Omits (spare : List String) : Value → Value → Value → Prop
  | here {before after k v} : k ∈ spare →
    Omits spare (object (before ++ (k, v) :: after)) (object (before ++ (k, null) :: after))
      (object (before ++ after))
  | member {before after k v u w} : Omits spare v u w →
    Omits spare (object (before ++ (k, v) :: after)) (object (before ++ (k, u) :: after))
      (object (before ++ (k, w) :: after))
  | item {before after v u w} : Omits spare v u w →
    Omits spare (array (before ++ v :: after)) (array (before ++ u :: after))
      (array (before ++ w :: after))

-- No member at any depth has one of the keys.
def Fixed (spare : List String) (v : Value) : Prop :=
  ∀ u w, ¬v.Omits spare u w

variable {spare : List String} {v u w : Value} {vs : List Value} {m : String × Value}
  {ms : List (String × Value)}

theorem Omits.damaged (h : v.Omits spare u w) : v.Damaged [] w := by
  induction h
  case here         => exact .lacking List.not_mem_nil
  case member h     => exact .member h
  case item h       => exact .item h

theorem fixed_of_depth_eq_zero (h : v.depth = 0) : v.Fixed spare :=
  fun _ _ ho => absurd h (Nat.ne_of_gt ho.damaged.depth_pos.left)

@[simp] theorem fixed_null : null.Fixed spare :=
  fixed_of_depth_eq_zero rfl

@[simp] theorem fixed_bool {b : Bool} : (bool b).Fixed spare :=
  fixed_of_depth_eq_zero rfl

@[simp] theorem fixed_number {n : Numeral} : (number n).Fixed spare :=
  fixed_of_depth_eq_zero rfl

@[simp] theorem fixed_string {s : String} : (string s).Fixed spare :=
  fixed_of_depth_eq_zero rfl

theorem fixed_object (hk : ∀ k ∈ ms.map (·.1), k ∉ spare) (hv : ∀ m ∈ ms, m.2.Fixed spare) :
    (object ms).Fixed spare := by
  intro u w ho
  generalize he : object ms = v at ho
  cases ho <;> cases he
  case here before after k v h       => exact hk k (by simp) h
  case member before after k v _ _ h => exact hv (k, v) (by simp) _ _ h

theorem fixed_array (h : ∀ v ∈ vs, v.Fixed spare) : (array vs).Fixed spare := by
  intro u w ho
  generalize hv : array vs = v at ho
  cases ho <;> cases hv
  case item ho => exact h _ (by simp) _ _ ho

-- It is the first member of an object that is at issue, or a later one.
theorem Omits.cons (h : (object (m :: ms)).Omits spare u w) :
    (m.1 ∈ spare ∧ u = object ((m.1, null) :: ms) ∧ w = object ms)
    ∨ (∃ v x, m.2.Omits spare v x ∧ u = object ((m.1, v) :: ms) ∧ w = object ((m.1, x) :: ms))
    ∨ ∃ us ws, (object ms).Omits spare (object us) (object ws)
      ∧ u = object (m :: us) ∧ w = object (m :: ws) := by
  generalize hv : object (m :: ms) = v at h
  cases h <;> simp only [object.injEq, List.cons_eq_append_iff, reduceCtorEq] at hv
  case here before after k v hk =>
    obtain ⟨rfl, he⟩ | ⟨before, rfl, rfl⟩ := hv
    case inl => cases he; exact .inl ⟨hk, rfl, rfl⟩
    case inr => exact .inr (.inr ⟨_, _, .here hk, rfl, rfl⟩)
  case member before after k v u w h =>
    obtain ⟨rfl, he⟩ | ⟨before, rfl, rfl⟩ := hv
    case inl => cases he; exact .inr (.inl ⟨_, _, h, rfl, rfl⟩)
    case inr => exact .inr (.inr ⟨_, _, .member h, rfl, rfl⟩)

-- Members that are always there are passed over.
theorem Omits.append (before : List (String × Value)) (hk : ∀ k ∈ before.map (·.1), k ∉ spare)
    (hv : ∀ m ∈ before, m.2.Fixed spare) (h : (object (before ++ ms)).Omits spare u w) :
    ∃ us ws, (object ms).Omits spare (object us) (object ws)
      ∧ u = object (before ++ us) ∧ w = object (before ++ ws) := by
  induction before generalizing u w
  case nil          =>
    generalize he : object ([] ++ ms) = v at h
    cases h <;> cases he
    case here h   => exact ⟨_, _, .here h, rfl, rfl⟩
    case member h => exact ⟨_, _, .member h, rfl, rfl⟩
  case cons m ns hi =>
    rw [List.map_cons, List.forall_mem_cons] at hk
    rw [List.forall_mem_cons] at hv
    obtain ⟨hm, _⟩ | ⟨_, _, ho, _⟩ | ⟨_, _, ho, hu, hw⟩ := h.cons
    case inl     => exact absurd hm hk.left
    case inr.inl => exact absurd ho (hv.left _ _)
    case inr.inr =>
      obtain ⟨us, ws, hs, hu', hw'⟩ := hi hk.right hv.right ho
      cases hu'
      cases hw'
      exact ⟨us, ws, hs, hu, hw⟩

theorem Omits.cons_inner (hk : m.1 ∉ spare) (h : (object (m :: ms)).Omits spare u w) :
    (∃ v x, m.2.Omits spare v x ∧ u = object ((m.1, v) :: ms) ∧ w = object ((m.1, x) :: ms))
    ∨ ∃ us ws, (object ms).Omits spare (object us) (object ws)
      ∧ u = object (m :: us) ∧ w = object (m :: ws) :=
  h.cons.resolve_left fun hm => hk hm.left

theorem Omits.single (hk : m.1 ∉ spare) (h : (object [m]).Omits spare u w) :
    ∃ v x, m.2.Omits spare v x ∧ u = object [(m.1, v)] ∧ w = object [(m.1, x)] := by
  obtain h | ⟨_, _, hn, _⟩ := h.cons_inner hk
  case inl => exact h
  case inr => exact absurd hn (fixed_object (by simp) (by simp) _ _)

end Value

end ApiSurface.Json
