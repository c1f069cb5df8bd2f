import ApiSurface.Dotted
import Mathlib.Data.List.Basic

namespace ApiSurface.Dotted

-- `IsParent above name` means that `name` cut at its last dot is `above`.
def IsParent (above name : String) : Prop :=
  ∃ tail : String, '.' ∉ tail.toList ∧ name = above ++ "." ++ tail

variable {cs before behind : List Char} {name above : String}

-- A name has no dots, or there is a last one.
theorem exists_lastDot (cs : List Char) :
    '.' ∉ cs ∨ ∃ before behind, '.' ∉ behind ∧ cs = before ++ '.' :: behind := by
  by_cases h : '.' ∈ cs
  case neg => exact .inl h
  case pos =>
    obtain ⟨behind, before, he, hn⟩ := List.eq_append_cons_of_mem (List.mem_reverse.mpr h)
    refine .inr ⟨before.reverse, behind.reverse, mt List.mem_reverse.mp hn, ?_⟩
    rw [← cs.reverse_reverse, he]
    simp

theorem cutLast_of_not_mem (h : '.' ∉ cs) : cutLast cs = none := by
  induction cs
  case nil          => rfl
  case cons c cs hi =>
    obtain ⟨hc, hcs⟩ := not_or.mp (mt List.mem_cons.mpr h)
    rw [cutLast, hi hcs]
    exact if_neg (Ne.symm hc)

theorem cutLast_append (h : '.' ∉ behind) :
    cutLast (before ++ '.' :: behind) = some (before, behind) := by
  induction before
  case nil              => rw [List.nil_append, cutLast, cutLast_of_not_mem h]; rfl
  case cons c before hi => rw [List.cons_append, cutLast, hi]

theorem ancestors_of_not_mem (h : '.' ∉ cs) : ancestors cs = [] := by
  induction cs
  case nil          => rfl
  case cons c cs hi =>
    obtain ⟨hc, hcs⟩ := not_or.mp (mt List.mem_cons.mpr h)
    rw [ancestors, if_neg (Ne.symm hc), hi hcs]
    rfl

theorem ancestors_append (h : '.' ∉ behind) :
    ancestors (before ++ '.' :: behind) = ancestors before ++ [before] := by
  induction before
  case nil              =>
    rw [List.nil_append, ancestors, ancestors, ancestors_of_not_mem h]
    rfl
  case cons c before hi =>
    rw [List.cons_append, ancestors, hi, ancestors, List.map_append, List.append_assoc]
    rfl

theorem parent?_eq_none_iff : parent? name = none ↔ '.' ∉ name.toList := by
  rw [parent?, Option.map_eq_none_iff]
  constructor
  case mpr => exact cutLast_of_not_mem
  case mp  =>
    intro h
    obtain hn | ⟨before, behind, hn, he⟩ := exists_lastDot name.toList
    case inl => exact hn
    case inr =>
      rw [he, cutLast_append hn] at h
      cases h

namespace IsParent

theorem exists_toList_eq (h : IsParent above name) :
    ∃ behind, '.' ∉ behind ∧ name.toList = above.toList ++ '.' :: behind := by
  obtain ⟨tail, hn, rfl⟩ := h
  exact ⟨tail.toList, hn, by simp⟩

theorem parent?_eq (h : IsParent above name) : parent? name = some above := by
  obtain ⟨_, hn, he⟩ := h.exists_toList_eq
  rw [parent?, he, cutLast_append hn, Option.map_some, String.ofList_toList]

theorem lineage_eq (h : IsParent above name) : lineage name = name :: lineage above := by
  obtain ⟨_, hn, he⟩ := h.exists_toList_eq
  rw [lineage, he, ancestors_append hn, List.reverse_append, List.map_append, lineage]
  simp

-- A parent has one dot less.
theorem count_eq (h : IsParent above name) :
    name.toList.count '.' = above.toList.count '.' + 1 := by
  obtain ⟨_, hn, he⟩ := h.exists_toList_eq
  simp [he, List.count_eq_zero.mpr hn]

end IsParent

theorem isParent_of_parent? (h : parent? name = some above) : IsParent above name := by
  obtain hn | ⟨before, behind, hn, he⟩ := exists_lastDot name.toList
  case inl => rw [parent?_eq_none_iff.mpr hn] at h; cases h
  case inr =>
    have hp : IsParent (String.ofList before) name := by
      refine ⟨String.ofList behind, by simpa using hn, String.toList_inj.mp ?_⟩
      simp [he]
    cases hp.parent?_eq.symm.trans h
    exact hp

theorem parent?_eq_some_iff : parent? name = some above ↔ IsParent above name :=
  ⟨isParent_of_parent?, IsParent.parent?_eq⟩

theorem lineage_of_root (h : parent? name = none) : lineage name = [name] := by
  rw [lineage, ancestors_of_not_mem (parent?_eq_none_iff.mp h)]
  rfl

end ApiSurface.Dotted
