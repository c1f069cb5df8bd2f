import ApiSurface.Proofs.Search.Bound

namespace ApiSurface.Registry

-- `Ends R target s k names answer` means that the search goes from `s` to its end. It takes `k`
-- references from the queue, expands the declarations `names` in this order, and answers `answer`.
inductive Ends (R : Registry) (target : String) :
    Search → Nat → List String → Option (List TypeRef) → Prop
  | exhausted {visited} : R.searchStep target ⟨[], visited⟩ = .exhausted →
      Ends R target ⟨[], visited⟩ 0 [] none
  | found {t queue visited args} : R.searchStep target ⟨t :: queue, visited⟩ = .found args →
      Ends R target ⟨t :: queue, visited⟩ 1 [] (some args)
  | passed {t queue visited k names answer} :
      R.searchStep target ⟨t :: queue, visited⟩ = .searching ⟨queue, visited⟩ →
      Ends R target ⟨queue, visited⟩ k names answer →
      Ends R target ⟨t :: queue, visited⟩ (k + 1) names answer
  | expanded {t queue visited name args k names answer} : R.instance? t = some (name, args) →
      R.searchStep target ⟨t :: queue, visited⟩
        = .searching ⟨queue ++ R.supertypes name args, name :: visited⟩ →
      Ends R target ⟨queue ++ R.supertypes name args, name :: visited⟩ k names answer →
      Ends R target ⟨t :: queue, visited⟩ (k + 1) (name :: names) answer

variable {R : Registry} {target name : String} {s s' : Search} {t : TypeRef} {args : List TypeRef}
  {queue : List TypeRef} {visited names : List String} {answer : Option (List TypeRef)} {n k : Nat}

-- A declaration that is expanded was not met before.
theorem not_mem_of_searchStep (hi : R.instance? t = some (name, args))
    (h : R.searchStep target ⟨t :: queue, visited⟩
      = .searching ⟨queue ++ R.supertypes name args, name :: visited⟩) : name ∉ visited := by
  intro hv
  rw [searchStep_of_visited hi hv] at h
  injection h with h
  injection h with _ h
  exact List.cons_ne_self name visited h.symm

-- A search has an end from wherever it stands, as there is less to do after every step.
theorem exists_ends (R : Registry) (target : String) (s : Search) :
    ∃ k names answer, R.Ends target s k names answer := by
  induction hn : R.remaining s using Nat.strongRecOn generalizing s
  case ind n hi =>
    have hs := R.stepsTo_searchStep target s
    generalize he : R.searchStep target s = progress at hs
    cases hs
    case exhausted     => exact ⟨_, _, _, .exhausted he⟩
    case found         => exact ⟨_, _, _, .found he⟩
    case passed        =>
      obtain ⟨_, _, _, h⟩ := hi _ (hn ▸ remaining_lt_of_searchStep he) _ rfl
      exact ⟨_, _, _, .passed he h⟩
    case expanded ht _ _ =>
      obtain ⟨_, _, _, h⟩ := hi _ (hn ▸ remaining_lt_of_searchStep he) _ rfl
      exact ⟨_, _, _, .expanded ht he h⟩

namespace Ends

theorem le_remaining (h : R.Ends target s k names answer) : k ≤ R.remaining s := by
  induction h
  case exhausted        => exact Nat.zero_le _
  case found            =>
    rw [remaining, List.length_cons]
    omega
  case passed he _ hi   => exact Nat.lt_of_le_of_lt hi (remaining_lt_of_searchStep he)
  case expanded he _ hi => exact Nat.lt_of_le_of_lt hi (remaining_lt_of_searchStep he)

-- What is expanded on the way was not met before, and is met from then on.
theorem fresh (h : R.Ends target s k names answer) :
    names.Nodup ∧ ∀ name ∈ names, name ∉ s.visited := by
  induction h
  case exhausted            => exact ⟨List.nodup_nil, List.forall_mem_nil _⟩
  case found                => exact ⟨List.nodup_nil, List.forall_mem_nil _⟩
  case passed hi            => exact hi
  case expanded ht he _ hi  =>
    obtain ⟨hn, hv⟩ := hi
    have hf := not_mem_of_searchStep ht he
    refine ⟨List.nodup_cons.mpr ⟨fun hm => hv _ hm (.head _), hn⟩, ?_⟩
    exact List.forall_mem_cons.mpr ⟨hf, fun name hm hm' => hv name hm (.tail _ hm')⟩

-- A bound that is not below the number of references that are taken makes no difference.
theorem searchWithin_eq (h : R.Ends target s k names answer) (hn : k ≤ n) :
    R.searchWithin target n s = answer := by
  induction h generalizing n <;> cases n
  case exhausted.zero        => rfl
  case exhausted.succ he _   => rw [searchWithin, he]
  case found.succ he _       => rw [searchWithin, he]
  case passed.succ he _ hi _ =>
    rw [searchWithin, he]
    exact hi (Nat.le_of_succ_le_succ hn)
  case expanded.succ he _ hi _ =>
    rw [searchWithin, he]
    exact hi (Nat.le_of_succ_le_succ hn)
  all_goals contradiction

end Ends

theorem searchBound_eq :
    R.searchBound = 1 + (R.declarations.entries.map (·.supertypes.length)).sum := by
  rw [searchBound, List.length_flatMap]

-- Every search comes to an end, whatever the registry. It takes at most one reference more than
-- there are declared supertypes, expands no declaration twice, and answers what `resolve` does.
theorem resolve_ends (R : Registry) (t : TypeRef) (c : Capability) (index : Nat) :
    (∃ k names answer, R.Ends c.declaration { queue := [t] } k names answer)
    ∧ ∀ k names answer, R.Ends c.declaration { queue := [t] } k names answer →
      k ≤ 1 + (R.declarations.entries.map (·.supertypes.length)).sum ∧ names.Nodup
      ∧ R.resolve t c index = answer.bind (·[index]?) := by
  refine ⟨exists_ends R _ _, fun k names answer h => ?_⟩
  have hk : k ≤ R.searchBound := remaining_start ▸ h.le_remaining
  refine ⟨searchBound_eq ▸ hk, h.fresh.left, ?_⟩
  rw [resolve, capabilityArgs?, h.searchWithin_eq hk]

-- Two classes that extend each other with a larger and larger argument. The third reference that is
-- taken leads to the first class again, which is not expanded any more.
theorem resolve_ends_growing :
    let outer : Declaration :=
      { name := "Outer", params := ["T"]
        supertypes := [.applied "Inner" [.applied WellKnown.list [.classVar "Outer" "T"]]] }
    let inner : Declaration :=
      { name := "Inner", params := ["T"]
        supertypes := [.applied "Outer" [.classVar "Inner" "T"]] }
    let R : Registry := { declarations := .ofList [outer, inner] }
    R.Ends WellKnown.handler { queue := [.named "Outer"] } 3 ["Outer", "Inner"] none
      ∧ 3 ≤ 1 + (R.declarations.entries.map (·.supertypes.length)).sum
      ∧ R.resolve (.named "Outer") .handler 0 = none := by
  intro outer inner R
  have he : R.Ends WellKnown.handler { queue := [.named "Outer"] } 3 ["Outer", "Inner"] none :=
    .expanded rfl rfl (.expanded rfl rfl (.passed rfl (.exhausted rfl)))
  obtain ⟨hk, _, hr⟩ := (resolve_ends R (.named "Outer") .handler 0).right _ _ _ he
  exact ⟨he, hk, hr⟩

end ApiSurface.Registry
