import ApiSurface.Proofs.Search.Paths
import Mathlib.Data.List.Forall2

namespace ApiSurface.Registry

variable {R : Registry} {t r : TypeRef} {name last target : String} {args : List TypeRef}
  {p q : List Nat} {i : Nat} {paths : List (List Nat)} {queue : List TypeRef}
  {visited : List String} {d : Declaration} {s : Search}

theorem of_instance? (h : R.instance? r = some (name, args)) :
    r.declaration? = some name ∧ R.arguments r = args := by
  cases r
  case named   =>
    have ⟨_, hd, he⟩ := Option.map_eq_some_iff.mp h
    cases he
    simp [TypeRef.declaration?, arguments, hd]
  case applied =>
    cases h
    exact ⟨rfl, rfl⟩
  all_goals cases h

theorem instance?_of_declaration? (h : r.declaration? = some name)
    (hd : R.declaration? name = some d) : R.instance? r = some (name, R.arguments r) := by
  cases r
  case named   =>
    cases h
    simp [instance?, arguments, hd]
  case applied =>
    cases h
    rfl
  all_goals cases h

theorem getElem?_supertypes_iff {u : TypeRef} (h : R.instance? r = some (name, args)) :
    (R.supertypes name args)[i]? = some u ↔ R.Supertype r i u := by
  have ⟨hn, ha⟩ := of_instance? h
  simp only [supertype_iff, hn, ha, supertypes, Option.some.injEq, exists_eq_left']
  cases R.declaration? name <;> simp [List.getElem?_map]

-- A step of a search, by what the first reference in the queue leads to.

theorem searchStep_of_none (h : R.instance? t = none) :
    R.searchStep target ⟨t :: queue, visited⟩ = .searching ⟨queue, visited⟩ := by
  simp only [searchStep, h]

theorem searchStep_of_visited (h : R.instance? t = some (name, args)) (hv : name ∈ visited) :
    R.searchStep target ⟨t :: queue, visited⟩ = .searching ⟨queue, visited⟩ := by
  simp only [searchStep, h, if_pos hv]

theorem searchStep_of_target (h : R.instance? t = some (target, args)) (hv : target ∉ visited) :
    R.searchStep target ⟨t :: queue, visited⟩ = .found args := by
  simp only [searchStep, h, if_neg hv, if_true]

theorem searchStep_of_new (h : R.instance? t = some (name, args)) (hv : name ∉ visited)
    (ht : name ≠ target) : R.searchStep target ⟨t :: queue, visited⟩
      = .searching ⟨queue ++ R.supertypes name args, name :: visited⟩ := by
  simp only [searchStep, h, if_neg hv, if_neg ht]

-- The paths that go one step further.
def branches (p : List Nat) (n : Nat) : List (List Nat) :=
  (List.range n).map fun i => p ++ [i]

theorem before_concat : Before p (p ++ [i]) :=
  .inl (by simp)

theorem sorted_branches {n : Nat} : (branches p n).Pairwise Before := by
  apply List.pairwise_map.mpr
  apply List.pairwise_lt_range.imp
  intro i j h
  exact .inr ⟨by simp, List.append_left_lt <| .rel h⟩

theorem along_branches (h : R.Along t p r) (hi : R.instance? r = some (name, args)) :
    List.Forall₂ (R.Along t) (branches p (R.supertypes name args).length)
      (R.supertypes name args) := by
  refine List.forall₂_iff_get.mpr ⟨by simp [branches], fun i hp hs => ?_⟩
  have hu := (getElem?_supertypes_iff hi).mp (List.getElem?_eq_getElem hs)
  simpa [branches] using h.concat hu

theorem exists_declaration?_of_ancestor? (h : R.ancestor? name p = some last)
    (hd : R.declaration? last = some d) : ∃ d, R.declaration? name = some d := by
  cases p
  case nil      =>
    cases h
    exact ⟨d, hd⟩
  case cons i p =>
    have ⟨d, hd, _⟩ := ancestor?_cons_eq_some_iff.mp h
    exact ⟨d, hd⟩

theorem mem_branches {n : Nat} (h : i < n) : p ++ [i] ∈ branches p n :=
  List.mem_map.mpr ⟨i, List.mem_range.mpr h, rfl⟩

-- A path goes on with one of the supertypes.
theorem lt_length_supertypes (h : R.Along t p r) (hr : R.instance? r = some (name, args))
    (hl : R.Leads t (p ++ i :: q) last) : i < (R.supertypes name args).length := by
  have ⟨name', hp, hq⟩ := Leads.append_iff.mp hl
  have ⟨d, hd, s, hs, _⟩ := ancestor?_cons_eq_some_iff.mp hq
  have hu := supertype_iff.mpr ⟨name', h.declaration? hp, d, hd, s, hs, rfl⟩
  exact (List.getElem?_eq_some_iff.mp ((getElem?_supertypes_iff hr).mpr hu)).fst

-- A search from `t` on its way: `paths` lead to the references in the queue.
structure Frontier (R : Registry) (t : TypeRef) (paths : List (List Nat)) (s : Search) : Prop where
  queue    : List.Forall₂ (R.Along t) paths s.queue
  sorted   : paths.Pairwise Before
  parents  : ∀ p i, p ++ [i] ∈ paths → ∀ q ∈ paths, Before p q
  visited  : ∀ name ∈ s.visited, ∃ q, R.Leads t q name ∧ ∀ p ∈ paths, Before q p
  complete : ∀ name d p, R.declaration? name = some d → R.First t name p →
    name ∈ s.visited ∨ ∃ q ∈ paths, q <+: p

namespace Frontier

theorem start : Frontier R t [[]] { queue := [t] } where
  queue    := .cons .nil .nil
  sorted   := by simp
  parents  := by simp
  visited  := by simp
  complete := by simp

theorem along_head (h : Frontier R t (p :: paths) ⟨r :: queue, visited⟩) : R.Along t p r :=
  (List.forall₂_cons.mp h.queue).left

-- A declaration that was not met before is met at the end of the first path to it.
theorem first (h : Frontier R t (p :: paths) ⟨r :: queue, visited⟩) (hp : R.Leads t p name)
    (hd : R.declaration? name = some d) (hv : name ∉ visited) : R.First t name p := by
  have ⟨q, hq⟩ := First.exists_of_leads hp
  have ⟨s, hs, hsq⟩ := (h.complete name d q hd hq).resolve_left hv
  have hpq := hq.not_before hp
  have hps : p = s ∨ Before p s := by
    cases List.mem_cons.mp hs
    case inl he => exact .inl he.symm
    case inr hs => exact .inr <| (List.pairwise_cons.mp h.sorted).left s hs
  cases hps <;> cases Before.of_isPrefix hsq
  case inl.inl h₁ h₂ => exact h₁ ▸ h₂ ▸ hq
  case inl.inr h₁ h₂ => exact absurd (h₁ ▸ h₂) hpq
  case inr.inl h₁ h₂ => exact absurd (h₂ ▸ h₁) hpq
  case inr.inr h₁ h₂ => exact absurd (h₁.trans h₂) hpq

-- A reference is passed over if no first path goes through it.
theorem pass (h : Frontier R t (p :: paths) ⟨r :: queue, visited⟩)
    (hp : ∀ name d q, R.declaration? name = some d → ¬R.First t name (p ++ q)) :
    Frontier R t paths ⟨queue, visited⟩ where
  queue    := (List.forall₂_cons.mp h.queue).right
  sorted   := (List.pairwise_cons.mp h.sorted).right
  parents  := fun p i hp q hq => h.parents p i (.tail _ hp) q (.tail _ hq)
  visited  := by
    intro name hn
    have ⟨q, hq, hb⟩ := h.visited name hn
    exact ⟨q, hq, fun s hs => hb s (.tail _ hs)⟩
  complete := by
    intro name d q hd hf
    refine (h.complete name d q hd hf).imp_right fun ⟨s, hs, hq⟩ => ?_
    cases List.mem_cons.mp hs
    case inl he =>
      have ⟨u, hu⟩ := he ▸ hq
      exact absurd (hu.symm ▸ hf) (hp name d u hd)
    case inr hs => exact ⟨s, hs, hq⟩

theorem pass_of_none (h : Frontier R t (p :: paths) ⟨r :: queue, visited⟩)
    (hr : R.instance? r = none) : Frontier R t paths ⟨queue, visited⟩ := by
  apply h.pass
  intro name d q hd hf
  have ⟨m, hm, hq⟩ := Leads.append_iff.mp hf.leads
  have ⟨d', hd'⟩ := exists_declaration?_of_ancestor? hq hd
  exact nomatch hr.symm.trans (instance?_of_declaration? (h.along_head.declaration? hm) hd')

theorem pass_of_mem (h : Frontier R t (p :: paths) ⟨r :: queue, visited⟩)
    (hp : R.Leads t p name) (hn : name ∈ visited) : Frontier R t paths ⟨queue, visited⟩ := by
  apply h.pass
  intro last d q hd hf
  have ⟨s, hs, hb⟩ := h.visited name hn
  exact (hf.of_append hp).not_before hs (hb p (.head _))

-- What comes before the path at the head comes before all paths that join the queue.
theorem before_branches (h : Frontier R t (p :: paths) s) (hq : q = p ∨ Before q p) {n : Nat} :
    ∀ u ∈ paths ++ branches p n, Before q u := by
  intro u hu
  have hpu : Before p u := by
    cases List.mem_append.mp hu
    case inl hu => exact (List.pairwise_cons.mp h.sorted).left u hu
    case inr hu =>
      have ⟨i, _, he⟩ := List.mem_map.mp hu
      exact he ▸ before_concat
  cases hq
  case inl he => exact he ▸ hpu
  case inr hb => exact hb.trans hpu

theorem sorted_expand (h : Frontier R t (p :: paths) s) {n : Nat} :
    (paths ++ branches p n).Pairwise Before := by
  obtain ⟨hp, hs⟩ := List.pairwise_cons.mp h.sorted
  refine List.pairwise_append.mpr ⟨hs, sorted_branches, fun q hq u hu => ?_⟩
  obtain ⟨i, _, he⟩ := List.mem_map.mp hu
  cases List.eq_nil_or_concat' q
  case inl hn =>
    have hb := hn ▸ hp q hq
    simp [Before] at hb
  case inr hc =>
    obtain ⟨q', j, hc⟩ := hc
    have hb := h.parents q' j (.tail _ (hc ▸ hq)) p (.head _)
    exact he ▸ hc ▸ hb.append (Nat.le_refl _)

theorem expand (h : Frontier R t (p :: paths) ⟨r :: queue, visited⟩)
    (hp : R.Leads t p name) (hr : R.instance? r = some (name, args)) :
    Frontier R t (paths ++ branches p (R.supertypes name args).length)
      ⟨queue ++ R.supertypes name args, name :: visited⟩ where
  queue    := List.rel_append (List.forall₂_cons.mp h.queue).right (along_branches h.along_head hr)
  sorted   := h.sorted_expand
  parents  := by
    intro q i hq
    apply h.before_branches
    cases List.mem_append.mp hq
    case inl hq => exact .inr <| h.parents q i (.tail _ hq) p (.head _)
    case inr hq =>
      have ⟨j, _, he⟩ := List.mem_map.mp hq
      exact .inl (List.append_inj_left' he rfl).symm
  visited  := by
    intro last hl
    cases List.mem_cons.mp hl
    case inl he => exact ⟨p, he ▸ hp, h.before_branches (.inl rfl)⟩
    case inr hl =>
      have ⟨q, hq, hb⟩ := h.visited last hl
      exact ⟨q, hq, h.before_branches <| .inr <| hb p (.head _)⟩
  complete := by
    intro last d q hd hf
    cases h.complete last d q hd hf
    case inl hv => exact .inl (.tail _ hv)
    case inr hq =>
      have ⟨s, hs, hsq⟩ := hq
      cases List.mem_cons.mp hs
      case inr hs => exact .inr ⟨s, List.mem_append_left _ hs, hsq⟩
      case inl he =>
        have ⟨u, hu⟩ := he ▸ hsq
        cases u
        case nil      =>
          have hq : R.Leads t p last := by simpa [← hu] using hf.leads
          exact .inl <| hq.unique hp ▸ .head _
        case cons i u =>
          have hi := lt_length_supertypes h.along_head hr (hu.symm ▸ hf.leads)
          exact .inr ⟨p ++ [i], List.mem_append_right _ (mem_branches hi), u, by simp [← hu]⟩

end Frontier

end ApiSurface.Registry
