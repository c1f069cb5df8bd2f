import ApiSurface.Proofs.Search.Resolution

namespace ApiSurface.Registry

variable {R S : Registry} {target : String} {s s' : Search} {t : TypeRef} {args : List TypeRef}
  {n k : Nat}

-- What a step of a search can come to.
inductive StepsTo (R : Registry) (target : String) : Search → Search.Progress → Prop
  | exhausted {visited} : StepsTo R target ⟨[], visited⟩ .exhausted
  | passed {t queue visited} :
      (∀ name args, R.instance? t = some (name, args) → name ∈ visited) →
      StepsTo R target ⟨t :: queue, visited⟩ (.searching ⟨queue, visited⟩)
  | found {t queue visited args} : R.instance? t = some (target, args) → target ∉ visited →
      StepsTo R target ⟨t :: queue, visited⟩ (.found args)
  | expanded {t queue visited name args} : R.instance? t = some (name, args) → name ∉ visited →
      name ≠ target → StepsTo R target ⟨t :: queue, visited⟩
        (.searching ⟨queue ++ R.supertypes name args, name :: visited⟩)

theorem stepsTo_searchStep (R : Registry) (target : String) (s : Search) :
    R.StepsTo target s (R.searchStep target s) := by
  obtain ⟨_ | ⟨t, queue⟩, visited⟩ := s
  case nil  => exact .exhausted
  case cons =>
    cases hi : R.instance? t
    case none   => exact searchStep_of_none hi ▸ .passed (by simp [hi])
    case some i =>
      obtain ⟨name, args⟩ := i
      by_cases hv : name ∈ visited
      case pos => exact searchStep_of_visited hi hv ▸ .passed (by simp [hi, hv])
      case neg =>
        by_cases ht : name = target
        case pos => exact searchStep_of_target (ht ▸ hi) (ht ▸ hv) ▸ .found (ht ▸ hi) (ht ▸ hv)
        case neg => exact searchStep_of_new hi hv ht ▸ .expanded hi hv ht

-- There is less to do after every step.
theorem remaining_lt (h : R.StepsTo target s (.searching s')) :
    R.remaining s' < R.remaining s := by
  cases h
  case passed   => simp [remaining]
  case expanded args _ hv _ =>
    have hp := pending_cons_le (R := R) args hv
    simp only [remaining, List.length_append, List.length_cons]
    omega

theorem remaining_lt_of_searchStep (h : R.searchStep target s = .searching s') :
    R.remaining s' < R.remaining s :=
  remaining_lt (h ▸ stepsTo_searchStep R target s)

theorem searchStep_of_remaining (h : R.remaining s = 0) : R.searchStep target s = .exhausted := by
  have hq : s.queue = [] := List.eq_nil_of_length_eq_zero (by rw [remaining] at h; omega)
  rw [searchStep, hq]

-- A search that has nothing to do any more has no more to find.
theorem searchWithin_of_remaining (h : R.remaining s = 0) : R.searchWithin target n s = none := by
  cases n
  case zero   => rfl
  case succ n => rw [searchWithin, searchStep_of_remaining h]

theorem searchWithin_eq_of_remaining (hn : R.remaining s ≤ n) (hk : R.remaining s ≤ k) :
    R.searchWithin target n s = R.searchWithin target k s := by
  induction n generalizing k s
  case zero      =>
    have hs := Nat.le_zero.mp hn
    rw [searchWithin_of_remaining hs, searchWithin_of_remaining hs]
  case succ n hi =>
    cases k
    case zero   =>
      have hs := Nat.le_zero.mp hk
      rw [searchWithin_of_remaining hs, searchWithin_of_remaining hs]
    case succ k =>
      rw [searchWithin, searchWithin]
      split
      case h_1 s' hs =>
        have hl := remaining_lt_of_searchStep hs
        exact hi (by omega) (by omega)
      all_goals rfl

theorem remaining_start : R.remaining { queue := [t] } = R.searchBound :=
  pending_nil

-- What a reference binds on a capability is found within any number of steps that is large enough.
theorem capabilityArgs?_eq (c : Capability) (h : R.searchBound ≤ n) :
    R.capabilityArgs? t c = R.searchWithin c.declaration n { queue := [t] } :=
  searchWithin_eq_of_remaining (Nat.le_of_eq remaining_start) (remaining_start ▸ h)

-- What a search finds satisfies `Q` if this is so of what is found wherever the search comes to.
-- `P` is what is known of where it comes to.
theorem of_searchWithin {P : Search → Prop} {Q : List TypeRef → Prop}
    (hp : ∀ s s', P s → R.StepsTo target s (.searching s') → P s')
    (hq : ∀ s args, P s → R.StepsTo target s (.found args) → Q args) (hs : P s)
    (h : R.searchWithin target n s = some args) : Q args := by
  induction n generalizing s
  case zero      => cases h
  case succ n hi =>
    have ht := R.stepsTo_searchStep target s
    rw [searchWithin] at h
    split at h
    case h_1 s' he => exact hi (hp s s' hs (he ▸ ht)) h
    case h_2 he    =>
      cases h
      exact hq s args hs (he ▸ ht)
    case h_3       => cases h

-- Two searches find the same if they stay in step. `P` is what is known of where they come to.
theorem searchWithin_congr {P : Search → Prop}
    (he : ∀ s, P s → R.searchStep target s = S.searchStep target s)
    (hp : ∀ s s', P s → R.StepsTo target s (.searching s') → P s') (hs : P s) :
    R.searchWithin target n s = S.searchWithin target n s := by
  induction n generalizing s
  case zero      => rfl
  case succ n hi =>
    have ht := R.stepsTo_searchStep target s
    rw [searchWithin, searchWithin, ← he s hs]
    split
    case h_1 s' hn => exact hi (hp s s' hs (hn ▸ ht))
    all_goals rfl

-- Their bounds may differ.
theorem resolve_congr {P : Search → Prop} {c : Capability} (index : Nat)
    (he : ∀ s, P s → R.searchStep c.declaration s = S.searchStep c.declaration s)
    (hp : ∀ s s', P s → R.StepsTo c.declaration s (.searching s') → P s')
    (hs : P { queue := [t] }) : R.resolve t c index = S.resolve t c index := by
  have hr := Nat.le_max_left R.searchBound S.searchBound
  have hb := Nat.le_max_right R.searchBound S.searchBound
  rw [resolve, resolve, capabilityArgs?_eq c hr, capabilityArgs?_eq c hb,
    searchWithin_congr he hp hs]

end ApiSurface.Registry
