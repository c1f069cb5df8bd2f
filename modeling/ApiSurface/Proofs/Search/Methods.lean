import ApiSurface.Proofs.Search.Instantiation

namespace ApiSurface

-- A replacement that leaves class variables alone and brings in none of them.
structure MovesMethods (f : VarOwner → String → TypeRef) : Prop where
  classVar  : ∀ cls x, f (.cls cls) x = .classVar cls x
  methodVar : ∀ declaring method vars x cls y,
    (.cls cls, y) ∉ (f (.method declaring method vars) x).mentions

-- A declaration whose supertypes are replaced.
def Declaration.replace (f : VarOwner → String → TypeRef) (d : Declaration) : Declaration :=
  { d with supertypes := d.supertypes.map (.replace f) }

-- A registry whose declarations have their supertypes replaced.
def Registry.replace (f : VarOwner → String → TypeRef) (R : Registry) : Registry where
  packages     := R.packages
  declarations := {
    entries := R.declarations.entries.map (.replace f)
    unique  := by
      rw [List.map_map]
      exact R.declarations.unique }

namespace Registry

variable {R : Registry} {f : VarOwner → String → TypeRef} {binding : String → Option TypeRef}
  {name cls target : String} {args : List TypeRef} {t : TypeRef} {s s' : Search}

theorem declaration?_replace :
    (R.replace f).declaration? name = (R.declaration? name).map (.replace f) := by
  simp only [declaration?, Catalog.find?, replace, List.find?_map]
  rfl

theorem searchBound_replace : (R.replace f).searchBound = R.searchBound := by
  simp [searchBound, replace, Declaration.replace, List.length_flatMap, Function.comp_def]

-- What is put in the place of a variable of a method has no class variables to substitute.
theorem replace_assignment (hf : MovesMethods f) {owner : VarOwner} {x : String} :
    (f owner x).replace (TypeRef.assignment cls fun x => (binding x).map (.replace f))
      = (TypeRef.assignment cls binding owner x).replace f := by
  cases owner
  case cls owner =>
    have hx : (TypeRef.typeVar (.cls owner) x).replace f = .typeVar (.cls owner) x :=
      hf.classVar owner x
    rw [hf.classVar, TypeRef.classVar, TypeRef.replace, TypeRef.assignment, TypeRef.assignment]
    split
    case isTrue  => cases binding x <;> simp [hx]
    case isFalse => exact hx.symm
  case method declaring method vars =>
    have hn : VarOwner.method declaring method vars ≠ .cls cls := VarOwner.noConfusion
    rw [TypeRef.assignment, if_neg hn]
    refine Eq.trans (TypeRef.replace_congr fun owner y hy => if_neg ?_) TypeRef.replace_typeVar
    rintro rfl
    exact hf.methodVar declaring method vars x cls y hy

-- So these stay where they are.
theorem substitute_replace (hf : MovesMethods f) :
    (t.replace f).substitute cls (fun x => (binding x).map (.replace f))
      = (t.substitute cls binding).replace f := by
  rw [TypeRef.substitute_eq_replace, TypeRef.substitute_eq_replace, TypeRef.replace_replace,
    TypeRef.replace_replace]
  exact TypeRef.replace_congr fun _ _ _ => replace_assignment hf

theorem instance?_replace_methods (hf : MovesMethods f) (ht : t.declaration?.isSome) :
    (R.replace f).instance? (t.replace f)
      = (R.instance? t).map fun (name, args) => (name, args.map (.replace f)) := by
  cases t
  case named name =>
    have hv (x : String) : (TypeRef.classVar name x).replace f = .classVar name x :=
      hf.classVar name x
    simp [TypeRef.replace, instance?, declaration?_replace, Declaration.replace, Option.map_map,
      Function.comp_def, hv]
  case applied =>
    rw [TypeRef.replace_applied]
    rfl
  all_goals contradiction

theorem supertypes_replace_methods (hf : MovesMethods f) :
    (R.replace f).supertypes name (args.map (.replace f))
      = (R.supertypes name args).map (.replace f) := by
  rw [supertypes, supertypes, declaration?_replace]
  cases R.declaration? name
  case none   => rfl
  case some d =>
    simp only [Option.map_some, Declaration.replace, List.map_map, TypeRef.bind_map]
    exact List.map_congr_left fun u _ => substitute_replace hf

theorem searchStep_replace_methods (hf : MovesMethods f)
    (hs : ∀ t ∈ s.queue, t.declaration?.isSome) :
    (R.replace f).searchStep target (s.replace f) = (R.searchStep target s).replace f := by
  obtain ⟨_ | ⟨t, queue⟩, visited⟩ := s
  case nil  => rfl
  case cons =>
    have ht := hs t (.head _)
    obtain ⟨cls, hc⟩ := Option.isSome_iff_exists.mp ht
    exact searchStep_replace hc (fun _ => instance?_replace_methods hf ht)
      (fun _ _ => supertypes_replace_methods hf)

theorem resolve_replace_methods (hG : R.Grounded) (hf : MovesMethods f)
    (ht : t.declaration?.isSome) (c : Capability) (index : Nat) :
    (R.replace f).resolve (t.replace f) c index = (R.resolve t c index).map (.replace f) := by
  have hs : ∀ u ∈ ({ queue := [t] } : Search).queue, u.declaration?.isSome :=
    List.forall_mem_singleton.mpr ht
  have hw : (R.replace f).searchWithin c.declaration R.searchBound
      (Search.replace f { queue := [t] })
        = (R.searchWithin c.declaration R.searchBound { queue := [t] }).map
            (List.map (.replace f)) :=
    searchWithin_replace (fun _ hs => searchStep_replace_methods hf hs)
      (fun _ _ hs => isSome_declaration?_of_searching hG hs) hs
  rw [resolve, resolve, capabilityArgs?, capabilityArgs?, searchBound_replace]
  refine (congrArg (Option.bind · _) hw).trans ?_
  cases R.searchWithin c.declaration R.searchBound { queue := [t] } <;> simp

end Registry

end ApiSurface
