import ApiSurface.Proofs.Search.Frontier
import ApiSurface.Registry.Standard
import Mathlib.Algebra.Order.BigOperators.Group.List

namespace ApiSurface.Registry

variable {R : Registry} {t r : TypeRef} {name target : String} {args : List TypeRef}
  {p : List Nat} {paths : List (List Nat)} {visited : List String} {s : Search} {d : Declaration}
  {n : Nat}

-- The number of supertypes of a declaration that can still join the queue.
def joining (visited : List String) (d : Declaration) : Nat :=
  if d.name ∈ visited then 0 else d.supertypes.length

def pending (R : Registry) (visited : List String) : Nat :=
  (R.declarations.entries.map (joining visited)).sum

theorem pending_nil : 1 + R.pending [] = R.searchBound := by
  have hj : joining [] = fun d => d.supertypes.length := funext fun d => if_neg (by simp)
  rw [pending, hj, searchBound, List.length_flatMap]

theorem sum_joining_cons_le (name : String) (visited : List String) (ds : List Declaration) :
    (ds.map (joining (name :: visited))).sum ≤ (ds.map (joining visited)).sum := by
  apply List.sum_le_sum
  intro d _
  by_cases hd : d.name ∈ visited <;> by_cases hn : d.name = name <;> simp [joining, hd, hn]

theorem pending_cons_le (args : List TypeRef) (h : name ∉ visited) :
    (R.supertypes name args).length + R.pending (name :: visited) ≤ R.pending visited := by
  cases hd : R.declaration? name
  case none   =>
    rw [supertypes, hd, List.length_nil, Nat.zero_add]
    exact sum_joining_cons_le _ _ _
  case some d =>
    have hn : d.name = name := name_of_declaration? hd
    obtain ⟨before, after, he⟩ := List.append_of_mem (Catalog.mem_of_find? hd)
    have hb := sum_joining_cons_le name visited before
    have ha := sum_joining_cons_le name visited after
    have h₁ : joining (name :: visited) d = 0 := if_pos (by simp [hn])
    have h₂ : joining visited d = d.supertypes.length := if_neg (hn ▸ h)
    simp only [pending, supertypes, hd, he, List.map_append, List.map_cons, List.sum_append,
      List.sum_cons, List.length_map, h₁, h₂]
    omega

-- The number of steps that a search can still take.
def remaining (R : Registry) (s : Search) : Nat :=
  s.queue.length + R.pending s.visited

-- What a search for a declaration has to answer.
inductive Answers (R : Registry) (t : TypeRef) (target : String) : Option (List TypeRef) → Prop
  | none : (∀ p, ¬R.Leads t p target) → Answers R t target none
  | some {p : List Nat} {r : TypeRef} : R.First t target p → R.Along t p r →
      Answers R t target (some (R.arguments r))

-- What a step of a search comes to.
inductive Progresses (R : Registry) (t : TypeRef) (target : String) (s : Search) :
    Search.Progress → Prop
  | searching {paths : List (List Nat)} {s' : Search} : Frontier R t paths s' →
      target ∉ s'.visited → R.remaining s' < R.remaining s → Progresses R t target s (.searching s')
  | found {args : List TypeRef} : Answers R t target (some args) →
      Progresses R t target s (.found args)
  | exhausted : Answers R t target none → Progresses R t target s .exhausted

theorem answers_none (hd : R.declaration? target = some d) (h : Frontier R t [] s)
    (ht : target ∉ s.visited) : Answers R t target none := by
  apply Answers.none
  intro p hp
  have ⟨q, hq⟩ := First.exists_of_leads hp
  have ⟨_, hs, _⟩ := (h.complete target d q hd hq).resolve_left ht
  cases hs

theorem progresses_searchStep (hR : R.Grounded) (hd : R.declaration? target = some d)
    (h : Frontier R t paths s) (ht : target ∉ s.visited) :
    Progresses R t target s (R.searchStep target s) := by
  obtain ⟨queue, visited⟩ := s
  cases queue <;> cases paths
  case nil.nil              => exact .exhausted <| answers_none hd h ht
  case nil.cons             => cases h.queue
  case cons.nil             => cases h.queue
  case cons r queue p paths =>
    cases hr : R.instance? r
    case none   =>
      simp only [searchStep, hr]
      exact .searching (h.pass_of_none hr) ht (by simp [remaining])
    case some i =>
      obtain ⟨name, args⟩ := i
      obtain ⟨hn, ha⟩ := of_instance? hr
      have hp := leads_of_along hR h.along_head hn
      simp only [searchStep, hr]
      by_cases hv : name ∈ visited
      case pos =>
        rw [if_pos hv]
        exact .searching (h.pass_of_mem hp hv) ht (by simp [remaining])
      case neg =>
        rw [if_neg hv]
        by_cases he : name = target
        case pos =>
          cases he
          rw [if_pos rfl, ← ha]
          exact .found <| .some (h.first hp hd hv) h.along_head
        case neg =>
          rw [if_neg he]
          have hm := pending_cons_le (R := R) args hv
          refine .searching (h.expand hp hr) ?_ ?_
          case refine_1 => exact List.not_mem_cons_of_ne_of_not_mem (Ne.symm he) ht
          case refine_2 =>
            simp only [remaining, List.length_append, List.length_cons]
            omega

theorem answers_searchWithin (hR : R.Grounded) (hd : R.declaration? target = some d)
    (h : Frontier R t paths s) (ht : target ∉ s.visited) (hn : R.remaining s ≤ n) :
    Answers R t target (R.searchWithin target n s) := by
  induction n generalizing paths s
  case zero      =>
    have hq : s.queue = [] := List.eq_nil_of_length_eq_zero (by rw [remaining] at hn; omega)
    have hp : paths = [] := by simpa [hq] using h.queue
    exact answers_none hd (hp ▸ h) ht
  case succ n hi =>
    have hs := progresses_searchStep hR hd h ht
    rw [searchWithin]
    generalize R.searchStep target s = progress at hs
    cases hs
    case searching hf hv hl => exact hi hf hv (by omega)
    case found ha           => exact ha
    case exhausted ha       => exact ha

-- What a reference binds on a capability are the arguments at the end of the first path to it, as
-- seen from the reference. There is no other path that comes first, and no other way to see them.
theorem resolve_eq_first (hR : R.Grounded) (c : Capability)
    (hc : ∃ d, R.declaration? c.declaration = some d) (t : TypeRef) (index : Nat) :
    ((∀ p, ¬R.Leads t p c.declaration) → R.resolve t c index = none)
    ∧ ((∃ p, R.Leads t p c.declaration) → (∃ p r, R.First t c.declaration p ∧ R.Along t p r)
      ∧ ∀ p r, R.First t c.declaration p → R.Along t p r →
        r.declaration? = some c.declaration ∧ R.resolve t c index = (R.arguments r)[index]?) := by
  have ⟨d, hd⟩ := hc
  have ha : Answers R t c.declaration (R.capabilityArgs? t c) :=
    answers_searchWithin hR hd .start (by simp) (Nat.le_of_eq pending_nil)
  rw [resolve]
  generalize R.capabilityArgs? t c = args? at ha
  cases ha
  case none hn      => exact ⟨fun _ => rfl, fun ⟨p, hp⟩ => absurd hp (hn p)⟩
  case some p r hp hr =>
    refine ⟨fun hn => absurd hp.leads (hn p), fun _ => ⟨⟨p, r, hp, hr⟩, fun q s hq hs => ?_⟩⟩
    cases hp.unique hq
    cases hr.unique hs
    exact ⟨hr.declaration? hp.leads, rfl⟩

-- A class between a reference and the function interface declares its first parameter twice and is
-- given two arguments for three parameters. The second of them is the argument of the function, and
-- the last parameter stands for itself.
theorem resolve_eq_first_middle :
    let middle : Declaration :=
      { name := "Middle", params := ["X", "X", "Y"]
        supertypes := [.applied WellKnown.function
          [.classVar "Middle" "X", .array (.classVar "Middle" "Y")]] }
    let outer : Declaration :=
      { name := "Outer"
        supertypes := [.named "Missing", .applied "Middle" [.void, .named WellKnown.string]] }
    let R := (standard.register middle).register outer
    let t := TypeRef.named "Outer"
    let r := TypeRef.applied WellKnown.function
      [.named WellKnown.string, .array (.classVar "Middle" "Y")]
    R.Grounded ∧ (∃ d, R.declaration? WellKnown.function = some d)
      ∧ R.First t WellKnown.function [1, 0] ∧ R.Along t [1, 0] r
      ∧ R.resolve t .function 0 = some (.named WellKnown.string)
      ∧ R.resolve t .function 1 = some (.array (.classVar "Middle" "Y")) := by
  intro middle outer R t r
  have hR : R.Grounded := by
    unfold Grounded
    decide
  have hc : ∃ d, R.declaration? WellKnown.function = some d := ⟨_, rfl⟩
  have hf : R.First t WellKnown.function [1, 0] := by
    refine ⟨⟨_, rfl, rfl⟩, fun q ⟨start, ht, hq⟩ => ?_⟩
    cases ht
    rcases q with _ | ⟨_ | _ | i, _ | ⟨_ | j, _ | ⟨k, q⟩⟩⟩
    case cons.succ.zero.cons.zero.nil  => exact .inl rfl
    case cons.succ.zero.cons.zero.cons => exact .inr (.inl (by simp))
    case nil                           => exact absurd hq (by decide)
    case cons.zero.nil                 => exact absurd hq (by decide)
    case cons.succ.zero.nil            => exact absurd hq (by decide)
    all_goals cases hq
  have ha : R.Along t [1, 0] r :=
    .cons (supertype_iff.mpr ⟨_, rfl, _, rfl, _, rfl, rfl⟩) <|
      .cons (supertype_iff.mpr ⟨_, rfl, _, rfl, _, rfl, rfl⟩) .nil
  have hr (index : Nat) := ((resolve_eq_first hR .function hc t index).right ⟨_, hf.leads⟩).right
    [1, 0] r hf ha
  exact ⟨hR, hc, hf, ha, (hr 0).right, (hr 1).right⟩

end ApiSurface.Registry
