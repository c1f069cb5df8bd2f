import ApiSurface.Proofs.Search.Methods
import ApiSurface.Proofs.TypeRef.Names

namespace ApiSurface

namespace Registry

-- Each declared supertype gives a registered declaration as many arguments as it declares, and has
-- no other class variables than those that its own declaration declares.
structure WellScoped (R : Registry) : Prop where
  supplied : ∀ d ∈ R.declarations.entries, ∀ s ∈ d.supertypes, ∃ name d',
    s.declaration? = some name ∧ R.declaration? name = some d' ∧ s.args.length = d'.params.length
  own      : ∀ d ∈ R.declarations.entries, ∀ s ∈ d.supertypes, ∀ cls x,
    (.cls cls, x) ∈ s.mentions → cls = d.name ∧ x ∈ d.params

-- Whether a variable stands in one of the declared supertypes.
def Declared (R : Registry) (owner : VarOwner) (x : String) : Prop :=
  ∃ d ∈ R.declarations.entries, ∃ s ∈ d.supertypes, (owner, x) ∈ s.mentions

-- `Stems R args owner x` means that a variable stands in one of the arguments, or is a variable of
-- a method and stands in a declared supertype.
inductive Stems (R : Registry) (args : List TypeRef) : VarOwner → String → Prop
  | arg {a owner x} : a ∈ args → (owner, x) ∈ a.mentions → Stems R args owner x
  | method {declaring method vars x} : R.Declared (.method declaring method vars) x →
      Stems R args (.method declaring method vars) x

-- A reference that gives its declaration as many arguments as it declares, all of whose variables
-- stem from `origin`.
def Supplies (R : Registry) (origin : List TypeRef) (t : TypeRef) : Prop :=
  ∀ name args, R.instance? t = some (name, args) →
    (∀ d, R.declaration? name = some d → args.length = d.params.length)
    ∧ ∀ a ∈ args, ∀ owner x, (owner, x) ∈ a.mentions → R.Stems origin owner x

variable {R : Registry} {name target : String} {origin args : List TypeRef} {t u : TypeRef}
  {d : Declaration} {s s' : Search} {owner : VarOwner} {cls x : String}

theorem isSome_bind {params : List String} (hx : x ∈ params)
    (hl : args.length = params.length) : ∃ a, TypeRef.bind params args x = some a := by
  rw [← Option.ne_none_iff_exists', Ne, TypeRef.bind_eq_none_iff]
  intro hn
  obtain ⟨i, hi, hx⟩ := List.mem_iff_getElem.mp hx
  have ha := hn i (List.getElem?_eq_some_iff.mpr ⟨hi, hx⟩)
  exact absurd (List.getElem?_eq_none_iff.mp ha) (Nat.not_le_of_lt (hl ▸ hi))

-- A variable in a supertype as seen from a reference with all arguments is in one of these, or is a
-- variable of a method.
theorem stems_of_substitute (hR : R.WellScoped) (hd : d ∈ R.declarations.entries)
    (hu : u ∈ d.supertypes) (hl : args.length = d.params.length)
    (ha : ∀ a ∈ args, ∀ owner x, (owner, x) ∈ a.mentions → R.Stems origin owner x)
    (ht : ∀ v ∈ t.mentions, v ∈ u.mentions)
    (h : (owner, x) ∈ (t.substitute d.name (TypeRef.bind d.params args)).mentions) :
    R.Stems origin owner x := by
  rw [TypeRef.substitute_eq_replace, TypeRef.mentions_replace, List.mem_flatMap] at h
  obtain ⟨⟨owner', x'⟩, hv, hx⟩ := h
  replace hv : (owner', x') ∈ u.mentions := ht _ hv
  cases owner'
  case cls cls =>
    obtain ⟨rfl, hp⟩ := hR.own d hd u hu cls x' hv
    obtain ⟨a, hb⟩ := isSome_bind hp hl
    rw [TypeRef.assignment, if_pos rfl, hb] at hx
    exact ha a (TypeRef.mem_of_bind hb) owner x hx
  case method declaring method vars =>
    obtain ⟨rfl, rfl⟩ : owner = .method declaring method vars ∧ x = x' := by
      simpa [TypeRef.assignment, TypeRef.mentions] using hx
    exact .method ⟨d, hd, u, hu, hv⟩

theorem supplies_supertypes (hR : R.WellScoped) (hd : R.declaration? name = some d)
    (hl : args.length = d.params.length)
    (ha : ∀ a ∈ args, ∀ owner x, (owner, x) ∈ a.mentions → R.Stems origin owner x) :
    ∀ t ∈ R.supertypes name args, R.Supplies origin t := by
  obtain rfl : d.name = name := name_of_declaration? hd
  have hm := Catalog.mem_of_find? hd
  simp only [supertypes, hd, List.forall_mem_map]
  intro u hu cls as hi
  obtain ⟨next, d', hn, hd', hs⟩ := hR.supplied d hm u hu
  cases u
  case named =>
    cases hn
    have hp : d'.params = [] := List.eq_nil_of_length_eq_zero hs.symm
    have he : R.instance? (.named next) = some (next, []) := by simp [instance?, hd', hp]
    cases he.symm.trans hi
    exact ⟨fun e he => by simp [Option.some.inj (he.symm.trans hd'), hp], List.forall_mem_nil _⟩
  case applied us =>
    cases hn
    rw [TypeRef.substitute, TypeRef.substituteList_eq_map] at hi
    cases hi
    refine ⟨fun e he => ?_, ?_⟩
    case refine_1 =>
      rw [List.length_map, Option.some.inj (he.symm.trans hd')]
      exact hs
    case refine_2 =>
      simp only [List.forall_mem_map]
      intro t ht owner x hx
      refine stems_of_substitute hR hm hu hl ha (fun v hv => ?_) hx
      rw [TypeRef.mentions, TypeRef.mentionsList_eq_flatMap]
      exact List.mem_flatMap.mpr ⟨t, ht, hv⟩
  all_goals cases hn

-- This holds of all references in the queue of a search.
theorem supplies_of_searching (hR : R.WellScoped) (hs : ∀ t ∈ s.queue, R.Supplies origin t)
    (h : R.StepsTo target s (.searching s')) : ∀ t ∈ s'.queue, R.Supplies origin t := by
  cases h
  case passed => exact fun t ht => hs t (.tail _ ht)
  case expanded queue visited name args hi _ _ =>
    obtain ⟨hl, ha⟩ := hs _ (.head _) name args hi
    intro t ht
    cases List.mem_append.mp ht
    case inl ht => exact hs t (.tail _ ht)
    case inr ht =>
      cases hd : R.declaration? name
      case none   =>
        rw [supertypes, hd] at ht
        cases ht
      case some d => exact supplies_supertypes hR hd (hl d hd) ha t ht

theorem supplies_start (hl : ∀ name d, t.declaration? = some name → R.declaration? name = some d →
    (R.arguments t).length = d.params.length) : R.Supplies (R.arguments t) t := by
  intro name args hi
  obtain ⟨hn, rfl⟩ := of_instance? hi
  exact ⟨fun d hd => hl name d hn hd, fun a ha owner x hx => .arg ha hx⟩

-- So it holds of what a search finds, if it starts from a reference with all of its arguments.
theorem stems_of_resolve (hR : R.WellScoped)
    (hl : ∀ name d, t.declaration? = some name → R.declaration? name = some d →
      (R.arguments t).length = d.params.length)
    {c : Capability} {index : Nat} (h : R.resolve t c index = some u)
    (hx : (owner, x) ∈ u.mentions) : R.Stems (R.arguments t) owner x := by
  obtain ⟨args, ha, hu⟩ := Option.bind_eq_some_iff.mp h
  refine of_searchWithin (P := fun s => ∀ u ∈ s.queue, R.Supplies (R.arguments t) u)
    (Q := fun args => ∀ u ∈ args, ∀ owner x, (owner, x) ∈ u.mentions →
      R.Stems (R.arguments t) owner x) ?_ ?_ ?_ ha u (List.mem_of_getElem? hu) owner x hx
  case refine_1 => exact fun _ _ hs => supplies_of_searching hR hs
  case refine_2 =>
    intro s args hs h
    cases h
    case found _ hi => exact (hs _ (.head _) _ _ hi).right
  case refine_3 => exact List.forall_mem_singleton.mpr (supplies_start hl)

theorem WellScoped.grounded (hR : R.WellScoped) : R.Grounded := by
  intro d hd s hs
  obtain ⟨_, _, hn, _⟩ := hR.supplied d hd s hs
  rw [hn]
  rfl

theorem arguments_named (hd : R.declaration? name = some d) :
    R.arguments (.named name) = d.params.map (.classVar name) := by
  rw [arguments, hd]
  rfl

theorem classVar_of_stems (h : R.Stems args (.cls cls) x) :
    ∃ a ∈ args, (.cls cls, x) ∈ a.mentions := by
  cases h
  case arg a ha hx => exact ⟨a, ha, hx⟩

theorem methodVar_of_stems {declaring method : String} {vars : List String}
    (hd : t.declaration? = some name) (hr : R.declaration? name = some d)
    (h : R.Stems (R.arguments t) (.method declaring method vars) x) :
    (.method declaring method vars, x) ∈ t.mentions
      ∨ R.Declared (.method declaring method vars) x := by
  cases h
  case method h    => exact .inr h
  case arg a ha hx =>
    cases t
    case applied args =>
      refine .inl ?_
      rw [TypeRef.mentions, TypeRef.mentionsList_eq_flatMap]
      exact List.mem_flatMap.mpr ⟨a, ha, hx⟩
    case named =>
      cases hd
      rw [arguments_named hr] at ha
      obtain ⟨_, _, rfl⟩ := List.mem_map.mp ha
      simp [TypeRef.classVar, TypeRef.mentions] at hx
    all_goals cases hd

-- What a declaration binds on a capability has no class variables but its own, and what a reference
-- with all of its arguments binds has those of the arguments only. The variables of methods in it
-- stand in the reference or in a declared supertype, and stay what they are: it makes no difference
-- whether they are replaced before or after.
theorem mentions_of_resolve (hR : R.WellScoped) (hd : R.declaration? name = some d)
    (c : Capability) (index : Nat) :
    (∀ u, R.resolve (.named name) c index = some u → ∀ cls x, (.cls cls, x) ∈ u.mentions →
      cls = name ∧ x ∈ d.params)
    ∧ (∀ args u, args.length = d.params.length →
      R.resolve (.applied name args) c index = some u → ∀ cls x, (.cls cls, x) ∈ u.mentions →
        ∃ a ∈ args, (.cls cls, x) ∈ a.mentions)
    ∧ (∀ t u, t.declaration? = some name → (R.arguments t).length = d.params.length →
      R.resolve t c index = some u → ∀ declaring method vars x,
        (.method declaring method vars, x) ∈ u.mentions →
          (.method declaring method vars, x) ∈ t.mentions
            ∨ R.Declared (.method declaring method vars) x)
    ∧ ∀ f t, MovesMethods f → t.declaration? = some name →
      (R.replace f).resolve (t.replace f) c index = (R.resolve t c index).map (.replace f) := by
  have hs {t u owner x} (ht : t.declaration? = some name)
      (hl : (R.arguments t).length = d.params.length) (h : R.resolve t c index = some u)
      (hx : (owner, x) ∈ u.mentions) : R.Stems (R.arguments t) owner x := by
    refine stems_of_resolve hR (fun name' d' ht' hd' => ?_) h hx
    cases ht.symm.trans ht'
    cases hd.symm.trans hd'
    exact hl
  refine ⟨fun u h cls x hx => ?_, fun args u hl h cls x hx => ?_,
    fun t u ht hl h declaring method vars x hx => methodVar_of_stems ht hd (hs ht hl h hx),
    fun f t hf ht => resolve_replace_methods hR.grounded hf (by rw [ht]; rfl) c index⟩
  case refine_1 =>
    have hl : (R.arguments (.named name)).length = d.params.length := by
      rw [arguments_named hd, List.length_map]
    obtain ⟨_, ha, hx⟩ := classVar_of_stems (hs rfl hl h hx)
    rw [arguments_named hd] at ha
    obtain ⟨param, hp, rfl⟩ := List.mem_map.mp ha
    cases List.mem_singleton.mp hx
    exact ⟨rfl, hp⟩
  case refine_2 => exact classVar_of_stems (hs (t := .applied name args) rfl hl h hx)

-- A class gives another one its own parameter and a variable of a method, and both change places
-- on the way. The argument is a variable of the other class, and the variable of the method may as
-- well be replaced by a class before.
theorem mentions_of_resolve_exchanged :
    let function : Declaration := { name := WellKnown.function, params := ["T", "R"] }
    let inner : Declaration :=
      { name := "Inner", params := ["X", "Y"]
        supertypes := [.applied WellKnown.function
          [.array (.classVar "Inner" "Y"), .classVar "Inner" "X"]] }
    let var : TypeRef := .typeVar (.method "Outer" "send" ["U"]) "U"
    let outer : Declaration :=
      { name := "Outer", params := ["A"]
        supertypes := [.applied "Inner" [.classVar "Outer" "A", var]] }
    let R : Registry := { declarations := .ofList [function, inner, outer] }
    let t : TypeRef := .applied "Outer" [.classVar "Inner" "Y"]
    let f (owner : VarOwner) (x : String) : TypeRef :=
      if owner = .method "Outer" "send" ["U"] then .named WellKnown.string else .typeVar owner x
    R.WellScoped ∧ R.declaration? "Outer" = some outer ∧ MovesMethods f
    ∧ R.resolve (.named "Outer") .function 1 = some (.classVar "Outer" "A")
    ∧ "A" ∈ outer.params
    ∧ R.resolve t .function 1 = some (.classVar "Inner" "Y")
    ∧ (∃ a ∈ [TypeRef.classVar "Inner" "Y"], (.cls "Inner", "Y") ∈ a.mentions)
    ∧ R.resolve t .function 0 = some (.array var)
    ∧ R.Declared (.method "Outer" "send" ["U"]) "U"
    ∧ (R.replace f).resolve (t.replace f) .function 0
      = some (.array (.named WellKnown.string)) := by
  intro function inner var outer R t f
  have hs : ∀ d ∈ R.declarations.entries, ∀ s ∈ d.supertypes,
      (s.declaration?.bind R.declaration?).map (·.params.length) = some s.args.length := by decide
  have hv : ∀ d ∈ R.declarations.entries, ∀ s ∈ d.supertypes, ∀ v ∈ s.mentions,
      v.1 = .cls d.name ∧ v.2 ∈ d.params ∨ v.1 = .method "Outer" "send" ["U"] := by decide
  have hR : R.WellScoped := {
    supplied := fun d hd s hm => by
      obtain ⟨d', hb, hl⟩ := Option.map_eq_some_iff.mp (hs d hd s hm)
      obtain ⟨name, hn, hd'⟩ := Option.bind_eq_some_iff.mp hb
      exact ⟨name, d', hn, hd', hl.symm⟩
    own      := fun d hd s hm cls x hx => by
      obtain ⟨hc, hp⟩ | hn := hv d hd s hm _ hx
      case inl => exact ⟨VarOwner.cls.inj hc, hp⟩
      case inr => cases hn }
  have hf : MovesMethods f := {
    classVar  := fun cls x => if_neg VarOwner.noConfusion
    methodVar := fun declaring method vars x cls y hy => by
      simp only [f] at hy
      split at hy
      case isTrue  => cases hy
      case isFalse => cases List.mem_singleton.mp hy }
  have hd : R.declaration? "Outer" = some outer := by rfl
  have h₁ : R.resolve (.named "Outer") .function 1 = some (.classVar "Outer" "A") := by rfl
  have h₂ : R.resolve t .function 1 = some (.classVar "Inner" "Y") := by rfl
  have h₃ : R.resolve t .function 0 = some (.array var) := by rfl
  obtain ⟨hn, ha, _⟩ := mentions_of_resolve hR hd .function 1
  obtain ⟨_, _, hm, hr⟩ := mentions_of_resolve hR hd .function 0
  have hu : (VarOwner.method "Outer" "send" ["U"], "U") ∉ t.mentions := by decide
  have hr := hr f t hf rfl
  rw [h₃] at hr
  exact ⟨hR, hd, hf, h₁, (hn _ h₁ "Outer" "A" (.head _)).right, h₂,
    ha _ _ rfl h₂ "Inner" "Y" (.head _), h₃,
    (hm t _ rfl rfl h₃ "Outer" "send" ["U"] "U" (.head _)).resolve_left hu, hr⟩

end Registry

end ApiSurface
