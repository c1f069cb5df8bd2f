import ApiSurface.Proofs.TypeRef.Variables
import Mathlib.Data.Option.Basic

namespace ApiSurface.TypeRef

mutual

def names : TypeRef → List String
  | named name             => [name]
  | applied name args      => name :: namesList args
  | typeVar (.cls owner) _ => [owner]
  | wildcard upper lower   => namesBound upper ++ namesBound lower
  | array component        => names component
  | _                      => []
termination_by structural t => t

def namesBound : Option TypeRef → List String
  | none       => []
  | some bound => names bound
termination_by structural b => b

def namesList : List TypeRef → List String
  | []      => []
  | t :: ts => names t ++ namesList ts
termination_by structural ts => ts

end

variable {cls name x : String} {binding : String → Option TypeRef} {params : List String}
  {args : List TypeRef} {upper lower : Option TypeRef} {t u : TypeRef}

theorem mem_namesList_iff {ts : List TypeRef} : x ∈ namesList ts ↔ ∃ t ∈ ts, x ∈ t.names := by
  induction ts
  case nil          => simp [namesList]
  case cons t ts hi => simp [namesList, hi]

theorem mem_namesBound_iff {b : Option TypeRef} : x ∈ namesBound b ↔ ∃ t ∈ b, x ∈ t.names := by
  cases b <;> simp [namesBound]

theorem mem_names_named_iff : x ∈ (named name).names ↔ x = name :=
  List.mem_singleton

theorem mem_names_classVar_iff : x ∈ (typeVar (.cls cls) name).names ↔ x = cls :=
  List.mem_singleton

theorem mem_names_applied_iff :
    x ∈ (applied name args).names ↔ x = name ∨ ∃ t ∈ args, x ∈ t.names := by
  rw [names, List.mem_cons, mem_namesList_iff]

theorem mem_names_wildcard_iff : x ∈ (wildcard upper lower).names
    ↔ (∃ t ∈ upper, x ∈ t.names) ∨ ∃ t ∈ lower, x ∈ t.names := by
  rw [names, List.mem_append, mem_namesBound_iff, mem_namesBound_iff]

-- What is named after variables were replaced was named before, or in what was put in.
theorem mem_names_of_substitute (h : x ∈ (t.substitute cls binding).names) :
    x ∈ t.names ∨ ∃ var u, binding var = some u ∧ x ∈ u.names := by
  induction t
  case applied name args hi =>
    rw [substitute, substituteList_eq_map, mem_names_applied_iff] at h
    rw [mem_names_applied_iff]
    obtain h | ⟨_, ht, h⟩ := h
    case inl => exact .inl (.inl h)
    case inr =>
      obtain ⟨t, hm, rfl⟩ := List.mem_map.mp ht
      exact (hi t hm h).imp_left fun h => .inr ⟨t, hm, h⟩
  case typeVar owner var =>
    cases owner
    case method     => exact .inl h
    case cls owner  =>
      rw [substitute] at h
      split at h
      case isFalse => exact .inl h
      case isTrue  =>
        cases hb : binding var <;> rw [hb] at h
        case none   => exact .inl h
        case some u => exact .inr ⟨var, u, hb, h⟩
  case wildcard upper lower hu hl =>
    rw [substitute, substituteBound_eq_map, substituteBound_eq_map, mem_names_wildcard_iff] at h
    rw [mem_names_wildcard_iff]
    obtain ⟨_, ht, h⟩ | ⟨_, ht, h⟩ := h
    case inl =>
      obtain ⟨t, hm, rfl⟩ := Option.mem_map.mp ht
      exact (hu t hm h).imp_left fun h => .inl ⟨t, hm, h⟩
    case inr =>
      obtain ⟨t, hm, rfl⟩ := Option.mem_map.mp ht
      exact (hl t hm h).imp_left fun h => .inr ⟨t, hm, h⟩
  case array component hi => exact hi h
  all_goals exact .inl h

theorem mem_of_bind (h : TypeRef.bind params args name = some u) : u ∈ args := by
  obtain ⟨i, _, hu, _⟩ := bind_eq_some_iff.mp h
  exact List.mem_of_getElem? hu

end ApiSurface.TypeRef
