import ApiSurface.Proofs.Search.Bound
import ApiSurface.Proofs.TypeRef.Variables

namespace ApiSurface

-- Replaces the type parameters of a declaration by arguments for them.
def Declaration.instantiation (d : Declaration) (args : List TypeRef) (owner : VarOwner)
    (x : String) : TypeRef :=
  if owner = .cls d.name then ((d.paramIndex? x).bind (args[·]?)).getD (.typeVar owner x)
  else .typeVar owner x

namespace TypeRef

variable {params : List String} {args : List TypeRef} {x : String}

theorem bind_map {f : TypeRef → TypeRef} :
    TypeRef.bind params (args.map f) = fun x => (TypeRef.bind params args x).map f := by
  funext x
  induction params generalizing args <;> cases args
  case cons.cons param params hi arg args =>
    rw [List.map_cons, bind_cons_cons, bind_cons_cons, hi, Option.map_or]
    split <;> rfl
  all_goals rfl

theorem bind_map_params {f : String → TypeRef} :
    TypeRef.bind params (params.map f) x = if x ∈ params then some (f x) else none := by
  induction params
  case nil                  => rfl
  case cons param params hi =>
    rw [List.map_cons, bind_cons_cons, hi]
    by_cases hx : x ∈ params <;> by_cases he : x = param <;> simp_all

theorem bind_eq_getElem? (hn : params.Nodup) :
    TypeRef.bind params args x = (params.findIdx? (· = x)).bind (args[·]?) := by
  induction params generalizing args
  case nil                  => rfl
  case cons param params hi =>
    have ⟨hp, hn⟩ := List.nodup_cons.mp hn
    cases args
    case nil           => simp [TypeRef.bind]
    case cons arg args =>
      rw [bind_cons_cons, List.findIdx?_cons]
      by_cases he : param = x
      case pos =>
        have hb : TypeRef.bind params args x = none :=
          bind_eq_none_iff.mpr fun i hx => absurd (List.mem_of_getElem? hx) (he ▸ hp)
        simp [hb, he]
      case neg =>
        rw [hi hn]
        simp [he, Ne.symm he, Option.bind_map]

end TypeRef

-- A search whose references are replaced.
def Search.replace (f : VarOwner → String → TypeRef) (s : Search) : Search where
  queue   := s.queue.map (.replace f)
  visited := s.visited

def Search.Progress.replace (f : VarOwner → String → TypeRef) : Progress → Progress
  | searching s => searching (s.replace f)
  | found args  => found (args.map (.replace f))
  | exhausted   => exhausted

-- A search that has met a declaration already, on its way through supertypes.
structure Search.Past (name : String) (s : Search) : Prop where
  queue   : ∀ t ∈ s.queue, t.declaration?.isSome
  visited : name ∈ s.visited

-- A replacement that leaves all variables alone but those of one class.
def MovesOnly (name : String) (f : VarOwner → String → TypeRef) : Prop :=
  ∀ owner x, owner ≠ .cls name → f owner x = .typeVar owner x

theorem movesOnly_instantiation {d : Declaration} {args : List TypeRef} :
    MovesOnly d.name (d.instantiation args) :=
  fun _ _ h => if_neg h

namespace Registry

-- The supertypes of a class mention no type variables of other classes.
def SelfContained (R : Registry) : Prop :=
  ∀ d ∈ R.declarations.entries, ∀ s ∈ d.supertypes, ∀ owner x,
    (.cls owner, x) ∈ s.mentions → owner = d.name

variable {R : Registry} {f : VarOwner → String → TypeRef} {binding : String → Option TypeRef}
  {name cls target : String} {args : List TypeRef} {t u : TypeRef} {d : Declaration}
  {s s' : Search}

-- Variables of other classes stand for themselves, so it makes no difference whether a supertype is
-- replaced or what its own variables are substituted by.
theorem replace_substitute (hf : MovesOnly name f) (hc : cls ≠ name)
    (hu : ∀ owner x, (.cls owner, x) ∈ u.mentions → owner = cls) :
    (u.substitute cls binding).replace f
      = u.substitute cls fun x => (binding x).map (.replace f) := by
  rw [TypeRef.substitute_eq_replace, TypeRef.substitute_eq_replace, TypeRef.replace_replace]
  apply TypeRef.replace_congr
  intro owner x hx
  have ho : owner ≠ .cls name := by
    rintro rfl
    exact hc (hu name x hx).symm
  have hx : (TypeRef.typeVar owner x).replace f = .typeVar owner x := hf owner x ho
  rw [TypeRef.assignment, TypeRef.assignment]
  split
  case isTrue  => cases binding x <;> simp [hx]
  case isFalse => exact hx

theorem supertypes_replace (hR : R.SelfContained) (hf : MovesOnly name f) (hc : cls ≠ name) :
    R.supertypes cls (args.map (.replace f)) = (R.supertypes cls args).map (.replace f) := by
  rw [supertypes, supertypes]
  cases hd : R.declaration? cls
  case none   => rfl
  case some d =>
    obtain rfl : d.name = cls := name_of_declaration? hd
    simp only [List.map_map, TypeRef.bind_map]
    refine List.map_congr_left fun u hu => ?_
    exact (replace_substitute hf hc <| hR d (Catalog.mem_of_find? hd) u hu).symm

-- An instance of a declaration has the supertypes of the declaration with the parameters replaced.
theorem supertypes_instantiation (hd : R.declaration? name = some d) (hn : d.params.Nodup) :
    R.supertypes name args
      = (R.supertypes name (d.params.map (.classVar name))).map
          (.replace (d.instantiation args)) := by
  obtain rfl : d.name = name := name_of_declaration? hd
  simp only [supertypes, hd, List.map_map]
  refine List.map_congr_left fun u _ => ?_
  have ho : u.substitute d.name (TypeRef.bind d.params (d.params.map (.classVar d.name))) = u := by
    rw [TypeRef.substitute_eq_replace]
    refine Eq.trans (TypeRef.replace_congr fun owner x _ => ?_) TypeRef.replace_typeVar
    rw [TypeRef.assignment, TypeRef.bind_map_params]
    split
    case isTrue h  => cases h; split <;> rfl
    case isFalse h => rfl
  rw [Function.comp_apply, ho, TypeRef.substitute_eq_replace]
  refine TypeRef.replace_congr fun owner x _ => ?_
  rw [TypeRef.assignment, TypeRef.bind_eq_getElem? hn]
  rfl

theorem instance?_replace (hf : MovesOnly name f) (ht : t.declaration? = some cls)
    (hc : cls ≠ name) :
    R.instance? (t.replace f)
      = (R.instance? t).map fun (cls, args) => (cls, args.map (.replace f)) := by
  cases t
  case named   =>
    cases ht
    have hv (x : String) : (TypeRef.classVar cls x).replace f = .classVar cls x :=
      hf (.cls cls) x (by simpa using hc)
    simp [TypeRef.replace, instance?, Option.map_map, Function.comp_def, hv]
  case applied =>
    rw [TypeRef.replace_applied]
    rfl
  all_goals cases ht

theorem searchStep_of_mem {queue : List TypeRef} {visited : List String}
    (ht : t.declaration? = some cls) (hv : cls ∈ visited) :
    R.searchStep target ⟨t :: queue, visited⟩ = .searching ⟨queue, visited⟩ := by
  cases hi : R.instance? t
  case none   => exact searchStep_of_none hi
  case some i =>
    cases ht.symm.trans (of_instance? hi).left
    exact searchStep_of_visited hi hv

theorem isSome_declaration?_of_supertypes (hR : R.Grounded) (hu : u ∈ R.supertypes name args) :
    u.declaration?.isSome := by
  rw [supertypes] at hu
  cases hd : R.declaration? name
  case none   => simp [hd] at hu
  case some d =>
    simp only [hd, List.mem_map] at hu
    obtain ⟨u, hu, rfl⟩ := hu
    obtain ⟨cls, hc⟩ := Option.isSome_iff_exists.mp <| hR d (Catalog.mem_of_find? hd) u hu
    simp [TypeRef.declaration?_substitute hc]

theorem isSome_declaration?_of_searching (hG : R.Grounded)
    (hs : ∀ t ∈ s.queue, t.declaration?.isSome) (h : R.StepsTo target s (.searching s')) :
    ∀ t ∈ s'.queue, t.declaration?.isSome := by
  cases h
  case passed   => exact fun t ht => hs t (.tail _ ht)
  case expanded =>
    intro t ht
    cases List.mem_append.mp ht
    case inl ht => exact hs t (.tail _ ht)
    case inr ht => exact isSome_declaration?_of_supertypes hG ht

-- Two searches take the same step, replaced, if what the first reference in the queue leads to is
-- the same, replaced. What was met before is passed over and need not be the same.
theorem searchStep_replace {S : Registry} {queue : List TypeRef} {visited : List String}
    (ht : t.declaration? = some cls)
    (hi : cls ∉ visited → S.instance? (t.replace f)
      = (R.instance? t).map fun (cls, args) => (cls, args.map (.replace f)))
    (hs : cls ∉ visited → ∀ args,
      S.supertypes cls (args.map (.replace f)) = (R.supertypes cls args).map (.replace f)) :
    S.searchStep target (Search.replace f ⟨t :: queue, visited⟩)
      = (R.searchStep target ⟨t :: queue, visited⟩).replace f := by
  by_cases hv : cls ∈ visited
  case pos =>
    rw [searchStep_of_mem ht hv]
    exact searchStep_of_mem (TypeRef.declaration?_replace ht) hv
  case neg =>
    cases hr : R.instance? t
    case none   =>
      rw [searchStep_of_none hr]
      exact searchStep_of_none ((hi hv).trans (congrArg _ hr))
    case some i =>
      obtain ⟨cls', args⟩ := i
      cases ht.symm.trans (of_instance? hr).left
      have hr' := (hi hv).trans (congrArg _ hr)
      by_cases he : cls = target
      case pos =>
        cases he
        rw [searchStep_of_target hr hv]
        exact searchStep_of_target hr' hv
      case neg =>
        rw [searchStep_of_new hr hv he, Search.replace, List.map_cons, searchStep_of_new hr' hv he,
          hs hv, ← List.map_append]
        rfl

-- Two searches find the same, replaced, if they stay in step. `P` is what is known of where the
-- first of them comes to.
theorem searchWithin_replace {S : Registry} {P : Search → Prop} {s : Search} {n : Nat}
    (he : ∀ s, P s → S.searchStep target (s.replace f) = (R.searchStep target s).replace f)
    (hp : ∀ s s', P s → R.StepsTo target s (.searching s') → P s') (hs : P s) :
    S.searchWithin target n (s.replace f)
      = (R.searchWithin target n s).map (List.map (.replace f)) := by
  induction n generalizing s
  case zero      => rfl
  case succ n hi =>
    have ht := R.stepsTo_searchStep target s
    rw [searchWithin, searchWithin, he s hs]
    cases hn : R.searchStep target s
    case searching s' => exact hi (hp s s' hs (hn ▸ ht))
    case found        => rfl
    case exhausted    => rfl

end Registry

namespace Search.Past

open Registry

variable {R : Registry} {f : VarOwner → String → TypeRef} {name target : String} {s s' : Search}
  {n : Nat}

theorem step (hR : R.Grounded) (h : Past name s) (hs : R.StepsTo target s (.searching s')) :
    Past name s' where
  queue   := isSome_declaration?_of_searching hR h.queue hs
  visited := by
    cases hs
    case passed   => exact h.visited
    case expanded => exact .tail _ h.visited

-- A step of a search whose references are replaced is the step of the search, replaced.
theorem searchStep_replace (hR : R.SelfContained) (hf : MovesOnly name f) (h : Past name s) :
    R.searchStep target (s.replace f) = (R.searchStep target s).replace f := by
  obtain ⟨_ | ⟨t, queue⟩, visited⟩ := s
  case nil  => rfl
  case cons =>
    obtain ⟨cls, ht⟩ := Option.isSome_iff_exists.mp (h.queue t (.head _))
    have hn (hv : cls ∉ visited) : cls ≠ name := fun he => hv (he ▸ h.visited)
    exact Registry.searchStep_replace ht (fun hv => instance?_replace hf ht (hn hv))
      (fun hv _ => supertypes_replace hR hf (hn hv))

-- So is the whole search.
theorem searchWithin_replace (hG : R.Grounded) (hR : R.SelfContained) (hf : MovesOnly name f)
    (h : Past name s) :
    R.searchWithin target n (s.replace f)
      = (R.searchWithin target n s).map (List.map (.replace f)) :=
  Registry.searchWithin_replace (fun _ h => h.searchStep_replace hR hf) (fun _ _ h => h.step hG) h

end Search.Past

namespace Registry

variable {R : Registry} {name : String} {args : List TypeRef} {d : Declaration}

theorem map_replace_params (hn : d.params.Nodup) (hl : args.length = d.params.length) :
    (d.params.map (.classVar d.name)).map (.replace (d.instantiation args)) = args := by
  apply List.ext_getElem
  case hl => simp [hl]
  case h  =>
    intro i hi ha
    have hp : i < d.params.length := hl ▸ ha
    have hx : d.paramIndex? d.params[i] = some i := by
      refine List.findIdx?_eq_some_iff_getElem.mpr ⟨hp, by simp, fun j hj => ?_⟩
      simpa using List.pairwise_iff_getElem.mp hn j i (hj.trans hp) hp hj
    simp [TypeRef.classVar, TypeRef.replace, Declaration.instantiation, hx, ha]

theorem capabilityArgs?_applied (hG : R.Grounded) (hR : R.SelfContained)
    (hd : R.declaration? name = some d) (hn : d.params.Nodup)
    (hl : args.length = d.params.length) (c : Capability) :
    R.capabilityArgs? (.applied name args) c
      = (R.capabilityArgs? (.named name) c).map (List.map (.replace (d.instantiation args))) := by
  obtain rfl : d.name = name := name_of_declaration? hd
  have hv : d.name ∉ [] := by simp
  have hi : R.instance? (.applied d.name args) = some (d.name, args) := rfl
  have hi' : R.instance? (.named d.name)
      = some (d.name, d.params.map (.classVar d.name)) := by rw [instance?, hd]; rfl
  rw [capabilityArgs?, capabilityArgs?, searchBound, Nat.add_comm, searchWithin, searchWithin]
  generalize c.declaration = target
  by_cases ht : d.name = target
  case pos =>
    cases ht
    rw [searchStep_of_target hi hv, searchStep_of_target hi' hv]
    exact congrArg some (map_replace_params hn hl).symm
  case neg =>
    rw [searchStep_of_new hi hv ht, searchStep_of_new hi' hv ht, List.nil_append, List.nil_append,
      supertypes_instantiation hd hn]
    have hp : Search.Past d.name
        ⟨R.supertypes d.name (d.params.map (.classVar d.name)), [d.name]⟩ :=
      ⟨fun u hu => isSome_declaration?_of_supertypes hG hu, .head _⟩
    exact hp.searchWithin_replace hG hR movesOnly_instantiation

-- Resolving an instance of a declaration gives what resolving the declaration gives, with each of
-- its parameters replaced by the argument for it.
theorem resolve_applied (hG : R.Grounded) (hR : R.SelfContained)
    (hd : R.declaration? name = some d) (hn : d.params.Nodup)
    (hl : args.length = d.params.length) (c : Capability) (index : Nat) :
    R.resolve (.applied name args) c index
      = (R.resolve (.named name) c index).map (.replace (d.instantiation args)) := by
  rw [resolve, resolve, capabilityArgs?_applied hG hR hd hn hl]
  cases R.capabilityArgs? (.named name) c <;> simp

-- The parameters of a class pass through another one that exchanges them. The arguments are
-- variables of both classes.
theorem resolve_applied_exchanged :
    let inner : Declaration :=
      { name := "Inner", params := ["X", "Y"]
        supertypes := [.applied WellKnown.function
          [.array (.classVar "Inner" "Y"), .classVar "Inner" "X"]] }
    let outer : Declaration :=
      { name := "Outer", params := ["A", "B"]
        supertypes := [.applied "Inner" [.classVar "Outer" "B", .classVar "Outer" "A"]] }
    let R : Registry := { declarations := .ofList [inner, outer] }
    let args : List TypeRef := [.classVar "Inner" "Y", .classVar "Outer" "A"]
    R.Grounded ∧ R.SelfContained ∧ R.declaration? "Outer" = some outer ∧ outer.params.Nodup
      ∧ args.length = outer.params.length
      ∧ R.resolve (.named "Outer") .function 0 = some (.array (.classVar "Outer" "A"))
      ∧ R.resolve (.applied "Outer" args) .function 0 = some (.array (.classVar "Inner" "Y")) := by
  intro inner outer R args
  have hG : R.Grounded := by
    unfold Grounded
    decide
  have hR : R.SelfContained := by
    have hv : ∀ d ∈ R.declarations.entries, ∀ u ∈ d.supertypes, ∀ v ∈ u.mentions,
        v.1 = .cls d.name := by decide
    exact fun d hd u hu owner x hx => VarOwner.cls.inj <| hv d hd u hu _ hx
  have hd : R.declaration? "Outer" = some outer := by rfl
  have hn : outer.params.Nodup := by decide
  have hr : R.resolve (.named "Outer") .function 0 = some (.array (.classVar "Outer" "A")) := by rfl
  have hl : args.length = outer.params.length := rfl
  have hi := resolve_applied hG hR hd hn hl .function 0
  rw [hr] at hi
  exact ⟨hG, hR, hd, hn, hl, hr, hi⟩

end Registry

end ApiSurface
