import ApiSurface.Proofs.Build.Consistency
import ApiSurface.Proofs.Model.RoundTrip

namespace ApiSurface

-- References that are the same tree, where a variable of a method is given by the method, its own
-- name and its position among the variables of the method.
inductive TypeRef.Alike : TypeRef → TypeRef → Prop
  | void                                : Alike .void .void
  | primitive {name}                    : Alike (.primitive name) (.primitive name)
  | named {name}                        : Alike (.named name) (.named name)
  | applied {name ss ts}                : List.Forall₂ Alike ss ts →
    Alike (.applied name ss) (.applied name ts)
  | classVar {cls name}                 : Alike (.classVar cls name) (.classVar cls name)
  | methodVar {declaring method name} {params params' : List String} :
    params.findIdx? (· = name) = params'.findIdx? (· = name) →
    Alike (.typeVar (.method declaring method params) name)
      (.typeVar (.method declaring method params') name)
  | wildcard {upper lower upper' lower'} : Option.Rel Alike upper upper' →
    Option.Rel Alike lower lower' → Alike (.wildcard upper lower) (.wildcard upper' lower')
  | array {s t}                         : Alike s t → Alike (.array s) (.array t)

namespace Registry

open TypeRef (Alike)

variable {R : Registry} {opened : List String} {t u : TypeRef} {owner owner' : VarOwner}
  {name : String} {m n : Model}

-- What can be seen of a reference in its model.
inductive Reflects (R : Registry) (opened : List String) : TypeRef → Model → Prop
  | void : Reflects R opened .void .void
  | primitive {name boxed : String} : Reflects R opened (.primitive name) (.primitive name boxed)
  | named {m : Model} : m.isClass → Reflects R opened (.named m.name) m
  | applied {raw : Model} {args : List TypeRef} {ms : List Model} :
    List.Forall₂ (fun t m => R.buildIn opened t = .ok m) args ms →
    Reflects R opened (.applied raw.name args) (.applied raw ms)
  | typeVar {owner : VarOwner} {param : TypeParam} {vars : List String} :
    R.declared? owner = some (param.owner, vars) →
    vars.findIdx? (· = param.name) = some param.index →
    Reflects R opened (.typeVar owner param.name) (.typeVar param)

theorem name_of_buildIn_named (h : R.buildIn opened (.named name) = .ok m) : m.name = name := by
  have ⟨d, hd, hi⟩ := info?_of_buildIn_named h
  have ⟨hm, _⟩ := consistent_of_buildIn_named h
  have hn : (R.classInfo d).name = name := name_of_declaration? hd
  cases m
  case cls | api | valueObject | enumeration => cases hi; exact hn
  all_goals contradiction

theorem reflects_of_buildIn (h : R.buildIn opened t = .ok m) : R.Reflects opened t m := by
  cases t
  case void =>
    rw [buildIn_void] at h
    cases h
    exact .void
  case primitive name =>
    rw [buildIn_primitive] at h
    split at h <;> cases h
    exact .primitive
  case named name =>
    exact name_of_buildIn_named h ▸ .named (consistent_of_buildIn_named h).left
  case applied name args =>
    have ⟨ms, ha, raw, hr, hm⟩ := buildIn_applied_eq_ok_iff.mp h
    obtain ⟨rfl, _⟩ := Model.applyTo?_eq_ok_iff.mp hm
    exact name_of_buildIn_named hr ▸ .applied (Except.mapM_eq_ok_iff.mp ha)
  case typeVar owner name =>
    rw [buildIn_typeVar, buildVariable_eq_ok_iff] at h
    obtain ⟨⟨paramOwner, vars⟩, ho, index, hi, rfl⟩ := h
    exact @Reflects.typeVar R opened owner ⟨paramOwner, index, name⟩ vars ho hi
  case wildcard =>
    rw [buildIn_wildcard] at h
    cases h
  case array =>
    rw [buildIn_array] at h
    cases h

-- Two references to what is one variable in the model are to one variable of a class, or to the
-- same position among the variables of a method.
theorem alike_of_declared? {param : TypeParam} {vars vars' : List String}
    (h : R.declared? owner = some (param.owner, vars))
    (h' : R.declared? owner' = some (param.owner, vars'))
    (hi : vars.findIdx? (· = param.name) = vars'.findIdx? (· = param.name)) :
    Alike (.typeVar owner param.name) (.typeVar owner' param.name) := by
  obtain ⟨_ | _, _, _⟩ := param <;> cases owner <;> cases owner' <;>
    simp [declared?] at h h'
  case cls.cls cls cls' =>
    obtain ⟨_, _, rfl, _⟩ := h
    obtain ⟨_, _, rfl, _⟩ := h'
    exact .classVar
  case method.method =>
    obtain ⟨⟨rfl, rfl⟩, rfl⟩ := h
    obtain ⟨⟨rfl, rfl⟩, rfl⟩ := h'
    exact .methodVar hi

theorem alike_of_buildIn (ht : R.buildIn opened t = .ok m) (hu : R.buildIn opened u = .ok m) :
    Alike t u := by
  induction t generalizing u m <;> cases reflects_of_buildIn ht <;> cases reflects_of_buildIn hu
  case void.void.void                => exact .void
  case primitive.primitive.primitive => exact .primitive
  case named.named.named             => exact .named
  case applied.applied.applied args hi raw ms ha args' ha' =>
    refine .applied ?_
    clear ht hu
    induction ha generalizing args'
    case nil           =>
      cases ha'
      exact .nil
    case cons h _ hj =>
      obtain ⟨u, us, h', hs, rfl⟩ := List.forall₂_cons_right_iff.mp ha'
      rw [List.forall_mem_cons] at hi
      exact .cons (hi.left h h') (hj hi.right hs)
  case typeVar.typeVar.typeVar hi ho _ _ ho' hi' =>
    exact alike_of_declared? ho ho' (hi.trans hi'.symm)
  all_goals contradiction

theorem buildVariable_of_findIdx? {declaring method : String} {params params' : List String}
    (hi : params.findIdx? (· = name) = params'.findIdx? (· = name))
    (h : R.buildVariable (.method declaring method params) name = .ok m) :
    R.buildVariable (.method declaring method params') name = .ok m := by
  rw [buildVariable_eq_ok_iff] at h ⊢
  obtain ⟨_, ⟨⟩, h⟩ := h
  exact ⟨_, rfl, hi ▸ h⟩

theorem buildIn_of_alike (h : Alike t u) (ht : R.buildIn opened t = .ok m) :
    R.buildIn opened u = .ok m := by
  induction t generalizing u m <;> cases h
  case applied.applied name args hi args' ha =>
    have ⟨ms, hms, hr⟩ := buildIn_applied_eq_ok_iff.mp ht
    refine buildIn_applied_eq_ok_iff.mpr ⟨ms, ?_, hr⟩
    rw [Except.mapM_eq_ok_iff] at hms ⊢
    clear ht hr
    induction ha generalizing ms
    case nil         => exact hms
    case cons h _ hj =>
      obtain ⟨m, ms, hm, hs, rfl⟩ := List.forall₂_cons_left_iff.mp hms
      rw [List.forall_mem_cons] at hi
      exact .cons (hi.left h hm) (hj hi.right ms hs)
  case typeVar.methodVar hi =>
    rw [buildIn_typeVar] at ht ⊢
    exact buildVariable_of_findIdx? hi ht
  case wildcard.wildcard =>
    rw [buildIn_wildcard] at ht
    cases ht
  case array.array =>
    rw [buildIn_array] at ht
    cases ht
  all_goals exact ht

theorem applies_of_isClass (h : m.isClass) : m.Applies := by
  cases m
  case cls | api | valueObject | enumeration => trivial
  all_goals contradiction

theorem everywhere_applies_of_buildIn (h : R.buildIn opened t = .ok m) :
    m.Everywhere Model.Applies := by
  refine everywhere_of_buildIn ?leaf ?named ?applied h
  case leaf    =>
    intro _ t m ht h
    cases undeclared_of_buildIn ht h <;> trivial
  case named   =>
    intro _ name m h
    exact applies_of_isClass (consistent_of_buildIn_named h).left
  case applied =>
    intro _ name raw args m _ h
    obtain ⟨rfl, _⟩ := Model.applyTo?_eq_ok_iff.mp h
    exact h

-- References have the same model if and only if they are alike, and so have models of them the same
-- text.
theorem build_eq_iff_alike (ht : R.build t = .ok m) (hu : R.build u = .ok n) :
    (m = n ↔ Alike t u)
    ∧ (m.IndicesFit → n.IndicesFit → (m.write = n.write ↔ Alike t u)) := by
  rw [build_eq_buildIn] at ht hu
  have he : m = n ↔ Alike t u := by
    constructor
    case mp =>
      intro h
      subst h
      exact alike_of_buildIn ht hu
    case mpr =>
      intro h
      exact Except.ok.inj <| (buildIn_of_alike h ht).symm.trans hu
  have hm : m.Everywhere Model.Applies := everywhere_applies_of_buildIn ht
  have hn : n.Everywhere Model.Applies := everywhere_applies_of_buildIn hu
  refine ⟨he, fun him hin => ?_⟩
  rw [← he]
  exact ⟨Model.eq_of_write_eq hm hn him hin, congrArg Model.write⟩

-- Lists of a variable of a method: the second one, where the first goes by two names, and then the
-- first one.
theorem build_eq_iff_alike_methodVar :
    let list (vars : List String) : TypeRef :=
      .applied WellKnown.list [.typeVar (.method "com.acme.api.Widget" "send" vars) "U"]
    let elem : TypeParam := ⟨.cls WellKnown.list, 0, "E"⟩
    let m (index : Nat) := Model.applied (.cls ⟨.list, WellKnown.list, none, [elem]⟩)
      [.typeVar ⟨.method "com.acme.api.Widget" "send", index, "U"⟩]
    sample.build (list ["S", "U"]) = .ok (m 1) ∧ sample.build (list ["T", "U"]) = .ok (m 1)
    ∧ sample.build (list ["U", "T"]) = .ok (m 0) ∧ (m 0).IndicesFit ∧ (m 1).IndicesFit
    ∧ Alike (list ["S", "U"]) (list ["T", "U"]) ∧ ¬Alike (list ["S", "U"]) (list ["U", "T"])
    ∧ (m 1).write ≠ (m 0).write := by
  intro list elem m
  have hs : sample.build (list ["S", "U"]) = .ok (m 1) := by rfl
  have ht : sample.build (list ["T", "U"]) = .ok (m 1) := by rfl
  have hu : sample.build (list ["U", "T"]) = .ok (m 0) := by rfl
  have hf {p : TypeParam} (h : p.index < 2) : p.Fits := Nat.lt_trans h (by decide)
  have hi {index : Nat} (h : index < 2) : (m index).IndicesFit :=
    .of_applied nofun (.of_leaf (List.forall_mem_singleton.mpr (hf (by decide))) trivial)
      (List.forall_mem_singleton.mpr
        (.of_leaf (List.forall_mem_singleton.mpr (hf h)) trivial))
  have ⟨hm, hw⟩ := build_eq_iff_alike hs hu
  have hn : ¬Alike (list ["S", "U"]) (list ["U", "T"]) := mt hm.mpr (by simp [m])
  exact ⟨hs, ht, hu, hi (by decide), hi (by decide), (build_eq_iff_alike hs ht).left.mp rfl, hn,
    mt (hw (hi (by decide)) (hi (by decide))).mp hn⟩

end Registry

end ApiSurface
